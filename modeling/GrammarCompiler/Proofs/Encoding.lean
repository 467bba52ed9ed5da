/-
GrammarCompiler.Proofs.Encoding — numbers that are written are read back.

A reader knows the end of a number by its last digit, which is raised by the
base, so numbers can follow each other without separators. `decodeFrom_digits`
is this fact for one number before any further text, and the round trip of a list
is an induction on it.

  §1 Characters — digits as characters, and characters as bytes.
  §2 Numbers    — a number is read back, whatever follows it.
  §3 Arrays     — the first number that is too large, and the round trip.
-/
import GrammarCompiler.Printable
import Mathlib

namespace GrammarCompiler.Printable

/-! ## §1 Characters -/

/-- Printable characters that need no escape in a string literal. -/
def IsPlain (c : Char) : Prop :=
  32 ≤ c.toNat ∧ c.toNat ≤ 126 ∧ c ≠ '"' ∧ c ≠ '\\'

instance (c : Char) : Decidable (IsPlain c) :=
  inferInstanceAs (Decidable (_ ∧ _))

theorem isPlain_digitChar {digit : Nat} (h : digit < 2 * base) : IsPlain (digitChar digit) := by
  have hall : ∀ d < 92, IsPlain (digitChar d) := by decide
  exact hall digit h

/-- The byte of a digit stands for the digit, and is not the byte of `markerChar`. -/
theorem byteDigit_toUInt8 {digit : Nat} (h : digit < 2 * base) :
    byteDigit ((digitChar digit).toUInt8) = UInt32.ofNat digit ∧
      (digitChar digit).toUInt8 ≠ 126 := by
  have hall : ∀ d < 92, byteDigit ((digitChar d).toUInt8) = UInt32.ofNat d ∧
      (digitChar d).toUInt8 ≠ 126 := by decide
  exact hall digit h

/-- Plain characters are bytes. -/
theorem bytes_ofList {cs : List Char} (h : ∀ c ∈ cs, IsPlain c) :
    (String.ofList cs).toUTF8.data.toList = cs.map Char.toUInt8 := by
  have hbytes : cs.flatMap String.utf8EncodeChar = cs.map Char.toUInt8 := by
    induction cs with
    | nil => rfl
    | cons c cs ih =>
      obtain ⟨hc, hcs⟩ := List.forall_mem_cons.mp h
      have hsize : c.utf8Size = 1 :=
        Char.utf8Size_eq_one_iff.mpr (UInt32.le_iff_toNat_le.mpr (Nat.le_succ_of_le hc.2.1))
      rw [List.flatMap_cons, List.map_cons, ih hcs, String.utf8EncodeChar_eq_singleton hsize]
      rfl
  rw [← hbytes]
  simp [List.utf8Encode]

/-! ## §2 Numbers -/

theorem isPlain_leadingDigits (n : Nat) : ∀ c ∈ leadingDigits n, IsPlain c := by
  fun_induction leadingDigits n with
  | case1 => exact nofun
  | case2 n _ ih =>
    have hlt : n % base < 2 * base := Nat.lt_of_lt_of_le (Nat.mod_lt _ (by decide)) (by decide)
    simpa [or_imp, forall_and] using ⟨ih, isPlain_digitChar hlt⟩

theorem raised_lt (n : Nat) : n % base + base < 2 * base := by
  have := Nat.mod_lt n (show base > 0 by decide)
  omega

theorem isPlain_digits (n : Nat) : ∀ c ∈ digits n, IsPlain c := by
  rw [digits]
  split
  next => exact List.forall_mem_singleton.mpr (by decide)
  next =>
    simpa [or_imp, forall_and] using ⟨isPlain_leadingDigits _, isPlain_digitChar (raised_lt n)⟩

/-- Only the end of the text depends on whether there is a number under way. -/
theorem decodeFrom_cons (value : UInt32) (inside : Bool) (byte : UInt8) (bytes : List UInt8) :
    decodeFrom value inside (byte :: bytes) = decodeFrom value false (byte :: bytes) := by
  simp [decodeFrom]

/-- The digits before the last one come to the number that they stand for, raised by
one place. -/
theorem decodeFrom_leadingDigits (n : Nat) (byte : UInt8) (bytes : List UInt8) :
    decodeFrom 0 false ((leadingDigits n).map Char.toUInt8 ++ byte :: bytes) =
      decodeFrom (UInt32.ofNat (n * base)) false (byte :: bytes) := by
  fun_induction leadingDigits n generalizing byte bytes with
  | case1 => rfl
  | case2 n _ ih =>
    have hlt : n % base < base := Nat.mod_lt _ (by decide)
    obtain ⟨hdigit, hmarker⟩ := byteDigit_toUInt8 (show n % base < 2 * base by omega)
    have hsmall : ¬ 46 ≤ UInt32.ofNat (n % base) := by
      simp only [base] at hlt ⊢
      rw [UInt32.le_iff_toNat_le, UInt32.toNat_ofNat_of_lt' (Nat.lt_trans hlt (by decide))]
      simpa using hlt
    have hvalue : (UInt32.ofNat (n / base * base) + UInt32.ofNat (n % base)) * 46 =
        UInt32.ofNat (n * base) := by
      rw [← UInt32.ofNat_add, Nat.div_add_mod', UInt32.ofNat_mul]
      rfl
    rw [List.map_append, List.append_assoc, List.map_singleton, List.singleton_append, ih,
      decodeFrom, if_neg hmarker, hdigit, if_neg hsmall, decodeFrom_cons, hvalue]

/-- A number is read back, whatever follows it. -/
theorem decodeFrom_digits (n : Nat) (bytes : List UInt8) :
    decodeFrom 0 false ((digits n).map Char.toUInt8 ++ bytes) =
      (decodeFrom 0 false bytes).map (UInt32.ofNat n :: ·) := by
  rw [digits]
  split
  next hmarker => rw [hmarker]; rfl
  next =>
    obtain ⟨hdigit, hmarker⟩ := byteDigit_toUInt8 (raised_lt n)
    have hlast : UInt32.ofNat (n % base + base) = UInt32.ofNat (n % base) + 46 := by
      rw [UInt32.ofNat_add]
      rfl
    have hlarge : 46 ≤ UInt32.ofNat (n % base + base) := by
      have := raised_lt n
      simp only [base] at this ⊢
      rw [UInt32.le_iff_toNat_le, UInt32.toNat_ofNat_of_lt' (Nat.lt_trans this (by decide))]
      simp
    have hvalue : UInt32.ofNat (n / base * base) + UInt32.ofNat (n % base) = UInt32.ofNat n := by
      rw [← UInt32.ofNat_add, Nat.div_add_mod']
    rw [List.map_append, List.append_assoc, List.map_singleton, List.singleton_append,
      decodeFrom_leadingDigits, decodeFrom, if_neg hmarker, hdigit, if_pos hlarge, hlast,
      UInt32.add_sub_cancel, hvalue]

/-! ## §3 Arrays -/

/-- Numbers that are written one after another. -/
theorem decodeFrom_flatMap_digits (values : List Nat) :
    decodeFrom 0 false ((values.flatMap digits).map Char.toUInt8) =
      some (values.map UInt32.ofNat) := by
  induction values with
  | nil => rfl
  | cons n values ih =>
    rw [List.flatMap_cons, List.map_append, decodeFrom_digits, ih]
    rfl

/-- Numbers are written one by one, up to the first that is too large. -/
theorem encodeAll_eq (max : Nat) (values : List Nat) :
    encodeAll max values =
      match values.find? (max < ·) with
      | some value => .error (.capacity (.encodedNumber value))
      | none => .ok (values.flatMap digits) := by
  induction values with
  | nil => rfl
  | cons value values ih =>
    rw [encodeAll, encode]
    split
    next hlarge => simp [hlarge, bind, Except.bind]
    next hsmall =>
      rw [List.find?_cons_of_neg (by simpa using hsmall), ih]
      cases values.find? (max < ·) <;> rfl

/-- What is read from an array is what was written. The length before it can
have any value. -/
theorem decodeArray_digits (length : Nat) (values : List UInt32) :
    decodeArray (String.ofList (digits length ++ (values.map UInt32.toNat).flatMap digits)) =
      some values := by
  have hplain : ∀ c ∈ digits length ++ (values.map UInt32.toNat).flatMap digits, IsPlain c :=
    List.forall_mem_append.mpr ⟨isPlain_digits _, fun c hc => by
      obtain ⟨n, -, hc⟩ := List.mem_flatMap.mp hc
      exact isPlain_digits n c hc⟩
  rw [decodeArray, bytes_ofList hplain, List.map_append, decodeFrom_digits,
    decodeFrom_flatMap_digits]
  simp [Function.comp_def]

/-- An array is written unless a number is larger than `max`; then the first such
number is named. The text between the quotes needs no escapes, and the array is read
back from it. -/
theorem encodeArray_decodes (values : List UInt32) (max : UInt32) :
    match values.find? (max < ·) with
    | some value =>
      encodeArray (values.map UInt32.toNat) max.toNat =
        .error (.capacity (.encodedNumber value.toNat))
    | none =>
      ∃ body : String,
        encodeArray (values.map UInt32.toNat) max.toNat = .ok ("\"" ++ body ++ "\"") ∧
        (∀ c ∈ body.toList, 32 ≤ c.toNat ∧ c.toNat ≤ 126 ∧ c ≠ '"' ∧ c ≠ '\\') ∧
        decodeArray body = some values := by
  have hfind : (values.map UInt32.toNat).find? (max.toNat < ·) =
      (values.find? (max < ·)).map UInt32.toNat := by
    rw [List.find?_map]
    rfl
  rw [encodeArray, encodeAll_eq, hfind]
  cases values.find? (max < ·) with
  | some value => rfl
  | none =>
    refine ⟨String.ofList (digits (values.length % UInt32.size) ++
      (values.map UInt32.toNat).flatMap digits), ?_, ?_, decodeArray_digits _ values⟩
    · simp [bind, Except.bind, pure, Except.pure, String.ext_iff]
    · intro c hc
      rw [String.toList_ofList] at hc
      rcases List.mem_append.mp hc with hc | hc
      · exact isPlain_digits _ c hc
      · obtain ⟨n, -, hc⟩ := List.mem_flatMap.mp hc
        exact isPlain_digits n c hc

end GrammarCompiler.Printable
