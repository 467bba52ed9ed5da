/-
GrammarCompiler.Proofs.Framing — where numbers end in a text.

Each byte tells for itself whether it ends a number, so a text falls into numbers
whatever it is: skipped characters, bytes that no writer uses and numbers that wrap
change what the numbers are, not where they end. Texts that end with a number can be
put one behind the other. The first number of a text is its length and is dropped; in
the middle of a text it is a number like all others.

  §1 Ends    — bytes that end a number.
  §2 Numbers — the numbers of any bytes.
  §3 Texts   — what is read from texts.
-/
import GrammarCompiler.Printable
import Mathlib

namespace GrammarCompiler.Printable

/-! ## §1 Ends -/

/-- A byte ends a number if its digit is raised by the base, or if it is the character of
`marker`. -/
def endsNumber (byte : UInt8) : Bool :=
  byte == 126 || decide (46 ≤ byteDigit byte)

/-- From the space on, the bytes that end a number are those from 79 on. -/
theorem endsNumber_iff {byte : UInt8} (h : 32 ≤ byte) : endsNumber byte = true ↔ 79 ≤ byte := by
  have hall : ∀ n < 256, 32 ≤ UInt8.ofNat n →
      (endsNumber (UInt8.ofNat n) = true ↔ 79 ≤ UInt8.ofNat n) := by decide +kernel
  simpa using hall byte.toNat byte.toNat_lt (by simpa using h)

/-- What a number comes to that some digits precede, given its last byte. -/
def finalValue (value : UInt32) (last : UInt8) : UInt32 :=
  if last = 126 then 0xffff else value + (byteDigit last - 46)

variable {value : UInt32} {inside : Bool} {byte : UInt8} {bytes more : List UInt8}

theorem decodeFrom_of_ends (h : endsNumber byte = true) :
    decodeFrom value inside (byte :: bytes) =
      (decodeFrom 0 false bytes).map (finalValue value byte :: ·) := by
  rw [decodeFrom, finalValue]
  split
  next => rfl
  next hne =>
    have hlarge : 46 ≤ byteDigit byte := by simpa [endsNumber, hne] using h
    rw [if_pos hlarge]

theorem decodeFrom_of_not_ends (h : endsNumber byte = false) :
    decodeFrom value inside (byte :: bytes) =
      decodeFrom ((value + byteDigit byte) * 46) true bytes := by
  obtain ⟨hne, hsmall⟩ : byte ≠ 126 ∧ ¬ 46 ≤ byteDigit byte := by simpa [endsNumber] using h
  rw [decodeFrom, if_neg hne, if_neg hsmall]

/-! ## §2 Numbers -/

/-- The number that bytes start with: the value of the digits up to the first byte that ends a
number. `value` is what digits before them have come to. -/
def firstNumber? (value : UInt32) (bytes : List UInt8) : Option UInt32 :=
  (bytes.find? endsNumber).map <| finalValue <|
    (bytes.takeWhile (!endsNumber ·)).foldl (fun value byte => (value + byteDigit byte) * 46) value

theorem firstNumber?_of_ends (h : endsNumber byte = true) :
    firstNumber? value (byte :: bytes) = some (finalValue value byte) := by
  simp [firstNumber?, h]

theorem firstNumber?_of_not_ends (h : endsNumber byte = false) :
    firstNumber? value (byte :: bytes) = firstNumber? ((value + byteDigit byte) * 46) bytes := by
  simp [firstNumber?, h]

/-- Reading fails exactly if the last byte ends no number. -/
theorem decodeFrom_eq_none_iff :
    decodeFrom value inside bytes = none ↔
      (bytes.getLast?.map endsNumber).getD (!inside) = false := by
  induction bytes generalizing value inside with
  | nil => cases inside <;> simp [decodeFrom]
  | cons byte bytes ih =>
    rw [List.getLast?_cons, Option.map_some, Option.getD_some]
    cases hends : endsNumber byte with
    | true =>
      rw [decodeFrom_of_ends hends, Option.map_eq_none_iff, ih]
      cases bytes.getLast? <;> simp [hends]
    | false =>
      rw [decodeFrom_of_not_ends hends, ih]
      cases bytes.getLast? <;> simp [hends]

/-- There are as many numbers as bytes that end one. -/
theorem length_of_decodeFrom {numbers : List UInt32}
    (h : decodeFrom value inside bytes = some numbers) :
    numbers.length = bytes.countP endsNumber := by
  induction bytes generalizing value inside numbers with
  | nil =>
    cases inside <;> cases h
    rfl
  | cons byte bytes ih =>
    cases hends : endsNumber byte with
    | true =>
      rw [decodeFrom_of_ends hends] at h
      obtain ⟨later, hlater, rfl⟩ := Option.map_eq_some_iff.mp h
      rw [List.length_cons, ih hlater, List.countP_cons_of_pos hends]
    | false =>
      rw [decodeFrom_of_not_ends hends] at h
      rw [ih h, List.countP_cons_of_neg (by simp [hends])]

/-- Only the end of the bytes has no numbers. -/
theorem eq_nil_of_decodeFrom (h : decodeFrom value inside bytes = some []) :
    bytes = [] ∧ inside = false := by
  induction bytes generalizing value inside with
  | nil =>
    cases inside <;> cases h
    exact ⟨rfl, rfl⟩
  | cons byte bytes ih =>
    cases hends : endsNumber byte with
    | true =>
      rw [decodeFrom_of_ends hends] at h
      obtain ⟨_, _, heq⟩ := Option.map_eq_some_iff.mp h
      cases heq
    | false =>
      rw [decodeFrom_of_not_ends hends] at h
      cases (ih h).2

theorem firstNumber?_of_decodeFrom {number : UInt32} {later : List UInt32}
    (h : decodeFrom value inside bytes = some (number :: later)) :
    firstNumber? value bytes = some number := by
  induction bytes generalizing value inside with
  | nil => cases inside <;> cases h
  | cons byte bytes ih =>
    cases hends : endsNumber byte with
    | true =>
      rw [decodeFrom_of_ends hends] at h
      obtain ⟨_, _, heq⟩ := Option.map_eq_some_iff.mp h
      rw [firstNumber?_of_ends hends, (List.cons.inj heq).1]
    | false =>
      rw [decodeFrom_of_not_ends hends] at h
      rw [firstNumber?_of_not_ends hends, ih h]

/-- Behind bytes that are read to their end, reading starts afresh. -/
theorem decodeFrom_append {numbers : List UInt32} (hfresh : inside = false → value = 0)
    (h : decodeFrom value inside bytes = some numbers) :
    decodeFrom value inside (bytes ++ more) = (decodeFrom 0 false more).map (numbers ++ ·) := by
  induction bytes generalizing value inside numbers with
  | nil =>
    cases inside with
    | true => cases h
    | false =>
      cases h
      rw [hfresh rfl]
      simp
  | cons byte bytes ih =>
    rw [List.cons_append]
    cases hends : endsNumber byte with
    | true =>
      rw [decodeFrom_of_ends hends] at h ⊢
      obtain ⟨later, hlater, rfl⟩ := Option.map_eq_some_iff.mp h
      rw [ih (fun _ => rfl) hlater, Option.map_map]
      rfl
    | false =>
      rw [decodeFrom_of_not_ends hends] at h ⊢
      exact ih nofun h

/-! ## §3 Texts -/

/-- The bytes of a text. -/
def bytesOf (text : String) : List UInt8 :=
  text.toUTF8.data.toList

theorem decodeArray_eq (text : String) :
    decodeArray text = (decodeFrom 0 false (bytesOf text)).map (List.drop 1) :=
  rfl

theorem bytesOf_append (first second : String) :
    bytesOf (first ++ second) = bytesOf first ++ bytesOf second := by
  simp [bytesOf]

theorem eq_empty_of_bytesOf {text : String} (h : bytesOf text = []) : text = "" := by
  have hsize : text.utf8ByteSize = 0 := congrArg List.length h
  exact String.utf8ByteSize_eq_zero_iff.mp hsize

/-- A text that is not empty has a first number, if it is read to its end. -/
theorem exists_numbers_of_decodeArray {text : String} {values : List UInt32} (hne : text ≠ "")
    (h : decodeArray text = some values) :
    ∃ number, decodeFrom 0 false (bytesOf text) = some (number :: values) := by
  rw [decodeArray_eq] at h
  obtain ⟨numbers, hnumbers, rfl⟩ := Option.map_eq_some_iff.mp h
  cases numbers with
  | nil => exact absurd (eq_empty_of_bytesOf (eq_nil_of_decodeFrom hnumbers).1) hne
  | cons number later => exact ⟨number, hnumbers⟩

/-- For texts of bytes from the space on: reading fails exactly if the last byte is below 79, and
otherwise there is one value for each byte from 79 on but the first. And of any two texts that are
read to their ends, the values of one behind the other are those of the first, the number that the
second starts with, and those of the second. -/
theorem decodeArray_isFramed :
    (∀ text, (∀ byte ∈ bytesOf text, 32 ≤ byte) →
      (decodeArray text = none ↔ ∃ last, (bytesOf text).getLast? = some last ∧ last < 79) ∧
      ∀ values, decodeArray text = some values →
        if text = "" then values = []
        else values.length + 1 = (bytesOf text).countP (79 ≤ ·)) ∧
    ∀ first second values values', first ≠ "" → second ≠ "" →
      decodeArray first = some values → decodeArray second = some values' →
        ∃ number, firstNumber? 0 (bytesOf second) = some number ∧
          decodeArray (first ++ second) = some (values ++ number :: values') := by
  refine ⟨fun text hbytes => ⟨?_, fun values h => ?_⟩, ?_⟩
  · rw [decodeArray_eq, Option.map_eq_none_iff, decodeFrom_eq_none_iff]
    cases hlast : (bytesOf text).getLast? with
    | none => simp
    | some last =>
      have hends := endsNumber_iff (hbytes last (List.mem_of_getLast? hlast))
      simp [← Bool.not_eq_true, hends]
  · have hcount : (bytesOf text).countP endsNumber = (bytesOf text).countP (79 ≤ ·) :=
      List.countP_congr fun byte hbyte => by simpa using endsNumber_iff (hbytes byte hbyte)
    split
    next hempty =>
      subst hempty
      exact (Option.some.inj h).symm
    next hne =>
      obtain ⟨number, hnumbers⟩ := exists_numbers_of_decodeArray hne h
      rw [← hcount, ← length_of_decodeFrom hnumbers, List.length_cons]
  · intro first second values values' hfirst hsecond h h'
    obtain ⟨length, hnumbers⟩ := exists_numbers_of_decodeArray hfirst h
    obtain ⟨number, hnumbers'⟩ := exists_numbers_of_decodeArray hsecond h'
    refine ⟨number, firstNumber?_of_decodeFrom hnumbers', ?_⟩
    rw [decodeArray_eq, bytesOf_append, decodeFrom_append (fun _ => rfl) hnumbers, hnumbers']
    rfl

/-- The first text holds 2 behind its length 1, the second one 65535 behind 46, which is a value
when the second one follows the first. -/
theorem decodeArray_isFramed_twoTexts :
    decodeArray "PQ" = some [2] ∧ decodeArray "!O~" = some [65535] ∧
      ∃ number, firstNumber? 0 (bytesOf "!O~") = some number ∧
        decodeArray ("PQ" ++ "!O~") = some ([2] ++ number :: [65535]) := by
  have hfirst : decodeArray "PQ" = some [2] := by decide +kernel
  have hsecond : decodeArray "!O~" = some [65535] := by decide +kernel
  exact ⟨hfirst, hsecond,
    decodeArray_isFramed.2 "PQ" "!O~" [2] [65535] (by decide) (by decide) hfirst hsecond⟩

end GrammarCompiler.Printable
