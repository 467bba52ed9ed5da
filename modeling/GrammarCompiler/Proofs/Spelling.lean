/-
GrammarCompiler.Proofs.Spelling — printed expressions as tokens.

What is printed of an expression is a sequence of tokens with blanks between them, and
the lexer finds these again. A name ends where something comes that no name goes on
with, so a text spells tokens in front of any text that does not start with such a
character.

  §1 Tokens      — lists of tokens, and the texts they are read from.
  §2 Names       — names, at-names and punctuation.
  §3 Strings     — quoted texts, and hexadecimal numbers in escapes.
  §4 Sets        — the ranges of canonical sets.
  §5 Expressions — the tokens of an expression, which its text spells.
-/
import GrammarCompiler.Proofs.Printing
import Mathlib

namespace GrammarCompiler

open Text

/-! ## §1 Tokens -/

/-- Tokens up to the end of a text, wherever they start. -/
inductive Tokens.Are : Tokens → List Token → Prop
  | done (start : Nat) : Are (.done start) []
  | cons (start : Nat) (token : Token) {rest : Tokens} {ts : List Token} (h : Are rest ts) :
      Are (.cons start token rest) (token :: ts)

namespace Lexer

/-- A text that consists of tokens. -/
def IsText (text : List Char) (ts : List Token) : Prop :=
  ∀ fuel offset, text.length < fuel → (tokensFrom fuel ⟨text, offset⟩).Are ts

/-- A character that a name does not go on with comes first, if anything does. -/
def StartsApart (text : List Char) : Prop :=
  ∀ c ∈ text.head?, isNameChar c = false

/-- The text of some tokens, in front of any text that starts apart. -/
def Spells (text : List Char) (ts : List Token) : Prop :=
  ∀ rest ts', StartsApart rest → IsText rest ts' → IsText (text ++ rest) (ts ++ ts')

/-- A token that comes first in a text, with what is left behind it. -/
def Takes (text : List Char) (token : Token) (rest : List Char) : Prop :=
  ∀ offset, ∃ offset', readToken ⟨text, offset⟩ = .ok (some token, ⟨rest, offset'⟩)

theorem isText_nil : IsText [] [] := by
  intro fuel offset hfuel
  obtain ⟨fuel, rfl⟩ := Nat.exists_eq_add_of_lt hfuel
  exact .done offset

theorem IsText.blank {text : List Char} {ts : List Token} (h : IsText text ts) :
    IsText (' ' :: text) ts := by
  intro fuel offset hfuel
  cases fuel with
  | zero => cases hfuel
  | succ fuel =>
    have hskip : skipBlank .space (' ' :: text) offset = skipBlank .space text (offset + 1) := rfl
    have hrest := h (fuel + 1) (offset + 1) (Nat.lt_of_succ_lt hfuel)
    rw [tokensFrom] at hrest ⊢
    rwa [hskip]

theorem IsText.cons {c : Char} {text rest : List Char} {token : Token} {ts : List Token}
    (hblank : isBlank c = false) (hslash : c ≠ '/') (htoken : Takes (c :: text) token rest)
    (hlength : rest.length ≤ text.length) (h : IsText rest ts) : IsText (c :: text) (token :: ts) := by
  intro fuel offset hfuel
  cases fuel with
  | zero => cases hfuel
  | succ fuel =>
    have hskip : skipBlank .space (c :: text) offset = .ok ⟨c :: text, offset⟩ := by
      rw [skipBlank.eq_def]
      split <;> simp_all
    obtain ⟨offset', hread⟩ := htoken offset
    rw [tokensFrom, hskip]
    simp only [hread]
    exact .cons offset token (h fuel offset' (by simp only [List.length_cons] at hfuel; omega))

theorem spells_nil : Spells [] [] :=
  fun _ _ _ h => h

theorem Spells.append {c : Char} {text text' : List Char} {ts ts' : List Token}
    (h : Spells text ts) (hc : isNameChar c = false) (h' : Spells (c :: text') ts') :
    Spells (text ++ c :: text') (ts ++ ts') := by
  intro rest ts'' hrest hts''
  rw [List.append_assoc, List.append_assoc]
  refine h _ _ (fun d hd => ?_) (h' rest ts'' hrest hts'')
  rw [List.cons_append, List.head?_cons, Option.mem_some_iff] at hd
  exact hd ▸ hc

theorem Spells.blank {text : List Char} {ts : List Token} (h : Spells text ts) :
    Spells (' ' :: text) ts :=
  fun rest ts' hrest hts' => (h rest ts' hrest hts').blank

/-! ## §2 Names -/

theorem ne_of_isNameChar {c d : Char} (hc : isNameChar c = true) (hd : isNameChar d = false) :
    c ≠ d := by
  rintro rfl
  exact Bool.false_ne_true (hd.symm.trans hc)

/-- No blank is a character of names. -/
theorem isBlank_of_isNameChar {c : Char} (hc : isNameChar c = true) : isBlank c = false := by
  have hall : ∀ code ∈ [9, 10, 11, 12, 13, 0x20, 0x85, 0xa0, 0x1680, 0x2000, 0x2001, 0x2002, 0x2003,
      0x2004, 0x2005, 0x2006, 0x2007, 0x2008, 0x2009, 0x200a, 0x2028, 0x2029, 0x202f, 0x205f,
      0x3000], isNameChar (Char.ofNat code) = false := by
    decide +kernel
  by_contra hblank
  rw [Bool.not_eq_false] at hblank
  have hmem : c.toNat ∈ [9, 10, 11, 12, 13, 0x20, 0x85, 0xa0, 0x1680, 0x2000, 0x2001, 0x2002, 0x2003,
      0x2004, 0x2005, 0x2006, 0x2007, 0x2008, 0x2009, 0x200a, 0x2028, 0x2029, 0x202f, 0x205f,
      0x3000] := by
    simp only [isBlank, inRanges, List.any_cons, List.any_nil, Bool.or_false, Bool.or_eq_true,
      Bool.and_eq_true, decide_eq_true_eq] at hblank
    simp only [List.mem_cons, List.not_mem_nil, or_false]
    omega
  have := hall _ hmem
  rw [Char.ofNat_toNat, hc] at this
  cases this

theorem readName_append {name rest : List Char} (hname : ∀ c ∈ name, isNameChar c = true)
    (hrest : StartsApart rest) (offset : Nat) :
    ∃ offset', readName ⟨name ++ rest, offset⟩ = (String.ofList name, ⟨rest, offset'⟩) := by
  have htake : rest.takeWhile isNameChar = [] ∧ rest.dropWhile isNameChar = rest := by
    cases rest with
    | nil => exact ⟨rfl, rfl⟩
    | cons c rest =>
      have hc := hrest c rfl
      simp [hc]
  refine ⟨offset + byteSize name, ?_⟩
  rw [readName, List.takeWhile_append_of_pos hname, List.dropWhile_append_of_pos hname, htake.1,
    htake.2, List.append_nil]

theorem spells_name {id : String} (h : IsName id) : Spells id.toList [.name id] := by
  obtain ⟨hne, hall⟩ := h
  intro rest ts hrest hts
  obtain ⟨c, text, hid⟩ := List.exists_cons_of_ne_nil (String.toList_eq_nil_iff.not.mpr hne)
  have hc : isNameChar c = true := hall c (by rw [hid]; exact List.mem_cons_self)
  have htoken : Takes (c :: text ++ rest) (.name id) rest := by
    intro offset
    obtain ⟨offset', hread⟩ := readName_append (by rwa [hid] at hall) hrest offset
    refine ⟨offset', ?_⟩
    have hquote : isQuote c = false := by
      simp only [isQuote, Bool.or_eq_false_iff, beq_eq_false_iff_ne]
      exact ⟨fun h => ne_of_isNameChar hc (d := '"') (by decide) (Char.ext (UInt32.toNat.inj h)),
        fun h => ne_of_isNameChar hc (d := '\'') (by decide) (Char.ext (UInt32.toNat.inj h))⟩
    rw [List.cons_append, readToken, if_neg (ne_of_isNameChar hc (by decide)), if_neg, hquote,
      if_neg Bool.false_ne_true, if_pos hc, ← List.cons_append, hread, ← hid, String.ofList_toList]
    have h1 : c ≠ '$' := ne_of_isNameChar hc (by decide)
    have h2 : c ≠ '!' := ne_of_isNameChar hc (by decide)
    simp [h1, h2]
  rw [hid]
  exact .cons (isBlank_of_isNameChar hc) (ne_of_isNameChar hc (by decide)) htoken (by simp) hts

theorem spells_atName {id : String} (h : IsName id) : Spells ('@' :: id.toList) [.atName id] := by
  obtain ⟨hne, hall⟩ := h
  intro rest ts hrest hts
  have htoken : Takes ('@' :: (id.toList ++ rest)) (.atName id) rest := by
    intro offset
    obtain ⟨offset', hread⟩ := readName_append hall hrest (offset + 1)
    refine ⟨offset', ?_⟩
    rw [readToken, if_pos rfl, hread, String.ofList_toList]
    split
    next heq => exact absurd (congrArg Prod.fst heq) hne
    next heq =>
      cases heq
      rfl
  exact .cons (by decide) (by decide) htoken (by simp) hts

/-- A character that is a token whatever follows it. -/
theorem Spells.punct {c : Char} {text : List Char} {ts : List Token}
    (hc : c ∈ ['{', '}', '(', ')', '[', ']', '<', '>', '|', '*', '+', '?', '~', ',', '=', '.'])
    (h : Spells text ts) :
    Spells (c :: text) (.punct c :: ts) := by
  intro rest ts' hrest hts'
  have hplain : ['{', '}', '(', ')', '[', ']', '<', '>', '|', '*', '+', '?', '~', ',', '=',
      '.'].Forall fun c =>
      isBlank c = false ∧ c ≠ '/' ∧ c ≠ '@' ∧ c ≠ '$' ∧ c ≠ '!' ∧ isQuote c = false ∧
        isNameChar c = false ∧ punctuation.contains c = true := by
    decide
  obtain ⟨hblank, hslash, hat, hdollar, hnot, hquote, hname, hpunct⟩ :=
    List.forall_iff_forall_mem.mp hplain c hc
  refine .cons hblank hslash (fun offset => ⟨offset + 1, ?_⟩) (Nat.le_refl _)
    (h rest ts' hrest hts')
  rw [readToken, if_neg hat, if_neg (by simp [hdollar, hnot]), hquote, hname, hpunct]
  rfl

end Lexer

/-- The tokens of a marker. -/
def Marker.tokens (m : Marker) : List Token :=
  match m.kind with
  | .ambiguity => [.punct '~', .name m.id.name]
  | .precedence => [.punct '!', .name m.id.name]

namespace Lexer

/-- The sign of a marker starts no set, as a name follows it. -/
theorem spells_marker {m : Marker} (h : IsName m.id.name) : Spells m.shown.toList m.tokens := by
  rw [Marker.shown, Marker.tokens]
  cases m.kind with
  | ambiguity =>
    have hshown : ("~" ++ m.id.name).toList = '~' :: m.id.name.toList := by simp
    rw [hshown]
    exact (spells_name h).punct (by decide)
  | precedence =>
    have hshown : ("!" ++ m.id.name).toList = '!' :: m.id.name.toList := by simp
    rw [hshown]
    intro rest ts hrest hts
    have htoken : Takes ('!' :: (m.id.name.toList ++ rest)) (.punct '!')
        (m.id.name.toList ++ rest) := by
      obtain ⟨c, text, hid⟩ := List.exists_cons_of_ne_nil (String.toList_eq_nil_iff.not.mpr h.1)
      have hc : c ≠ '[' := ne_of_isNameChar (h.2 c (by rw [hid]; exact List.mem_cons_self)) (by decide)
      refine fun offset => ⟨offset + 1, ?_⟩
      rw [readToken, if_neg (by decide), hid, if_neg (by simp [hc])]
      rfl
    exact .cons (by decide) (by decide) htoken (Nat.le_refl _) (spells_name h rest ts hrest hts)

/-! ## §3 Strings -/

theorem hexValue?_digitChar {digit : Nat} (h : digit < 16) :
    hexValue? digit.digitChar = some digit ∧ digit.digitChar ≠ '}' := by
  have hall : ∀ digit < 16, hexValue? digit.digitChar = some digit ∧ digit.digitChar ≠ '}' := by
    decide
  exact hall digit h

/-- A number of at most six digits is read back, after the digits before it. -/
theorem readBraced_hex (start n value digits : Nat) (text : List Char) (offset : Nat)
    (h : digits + (hex n).length ≤ 6) :
    ∃ offset', readBraced start value digits (hex n ++ text) offset =
      readBraced start (value * 16 ^ (hex n).length + n) (digits + (hex n).length) text offset' := by
  induction n using Nat.strongRecOn generalizing text value digits offset with
  | ind n ih =>
    have hone {digit : Nat} (hdigit : digit < 16) (value digits offset : Nat) (hdigits : digits < 6) :
        readBraced start value digits (digit.digitChar :: text) offset =
          readBraced start (value * 16 + digit) (digits + 1) text (offset + 1) := by
      obtain ⟨hvalue, hbrace⟩ := hexValue?_digitChar hdigit
      rw [readBraced, if_neg (by simp [hbrace]), hvalue]
      exact if_pos hdigits
    by_cases hlt : n < 16
    · have hhex : hex n = [n.digitChar] := Nat.toDigits_of_lt_base hlt
      rw [hhex] at h ⊢
      exact ⟨offset + 1, by simpa using hone hlt value digits offset (by simpa using h)⟩
    · have hhex : hex n = hex (n / 16) ++ [(n % 16).digitChar] :=
        Nat.toDigits_of_base_le (by decide) (Nat.le_of_not_lt hlt)
      rw [hhex, List.length_append, List.length_singleton] at h ⊢
      obtain ⟨offset', hrest⟩ :=
        ih (n / 16) (by omega) value digits ((n % 16).digitChar :: text) offset (by omega)
      refine ⟨offset' + 1, ?_⟩
      rw [List.append_assoc, List.singleton_append, hrest,
        hone (Nat.mod_lt _ (by decide)) _ _ _ (by omega)]
      congr 1
      rw [Nat.pow_succ]
      have := Nat.div_add_mod n 16
      linarith

/-- A code point in braces. -/
theorem readEscape_braced {code : Nat} (h : code < CharSet.codePoints) (start : Nat)
    (text : List Char) : ∃ offset', readEscape start ('u' :: '\x7b' :: (hex code ++ '\x7d' :: text)) =
      .ok (code, ⟨text, offset'⟩) := by
  have hlength : (hex code).length ≤ 6 :=
    (Nat.length_toDigits_le_iff (by decide) (by decide)).mpr (Nat.lt_trans h (by decide))
  obtain ⟨offset', hread⟩ := readBraced_hex start code 0 0 ('\x7d' :: text) (start + 3)
    (by omega)
  have hpos : 0 < (hex code).length := Nat.length_toDigits_pos
  have hle : ¬ 0x10ffff < code := by
    simp only [CharSet.codePoints] at h
    omega
  refine ⟨offset' + 1, ?_⟩
  rw [readEscape, hread, readBraced, if_pos (by simpa using hpos), if_neg (by simpa using hle)]
  simp

/-- A short escape inside a string. -/
theorem readString_escape {start code fuel offset : Nat} {text rest : List Char}
    (hcode : code.isValidChar)
    (h : ∃ after, readEscape offset text = .ok (code, ⟨rest, after⟩)) :
    ∃ after, readString '"' start (fuel + 1) ⟨'\\' :: text, offset⟩ = (do
      let (value, rest) ← readString '"' start fuel ⟨rest, after⟩
      return (Char.ofNat code :: value, rest)) := by
  obtain ⟨after, hread⟩ := h
  refine ⟨after, ?_⟩
  rw [readString, if_neg (by decide), if_neg (by decide), if_pos rfl, hread]
  exact if_pos hcode

theorem hex4_control (n : Nat) (h : n < 0x20) : ∃ x y, x < 16 ∧ y < 16 ∧ x * 16 + y = n ∧
    hex4 n = ['0', '0', x.digitChar, y.digitChar] := by
  have hall : ∀ n < 0x20, hex4 n = ['0', '0', (n / 16).digitChar, (n % 16).digitChar] := by decide
  exact ⟨n / 16, n % 16, by omega, by omega, by omega, hall n h⟩

/-- A character between quotes is read back. -/
theorem readString_escapeChar (c : Char) (start fuel : Nat) (rest : List Char) (offset : Nat) :
    ∃ after, readString '"' start (fuel + 1) ⟨escapeChar (fun _ => false) c ++ rest, offset⟩ = (do
      let (value, rest) ← readString '"' start fuel ⟨rest, after⟩
      return (c :: value, rest)) := by
  have hshort (code : Nat) (text : List Char) (hc : c = Char.ofNat code) (hcode : code.isValidChar)
      (h : ∃ after, readEscape offset (text ++ rest) = .ok (code, ⟨rest, after⟩)) :
      ∃ after, readString '"' start (fuel + 1) ⟨'\\' :: (text ++ rest), offset⟩ = (do
        let (value, rest) ← readString '"' start fuel ⟨rest, after⟩
        return (c :: value, rest)) := by
    rw [hc]
    exact readString_escape hcode h
  rw [escapeChar]
  split
  next hc => exact hshort 0x22 ['"'] hc (by decide) ⟨_, rfl⟩
  split
  next hc => exact hshort 0x5c ['\\'] hc (by decide) ⟨_, rfl⟩
  split
  next hc => exact hshort 10 ['n'] hc (by decide) ⟨_, rfl⟩
  split
  next hc => exact hshort 13 ['r'] hc (by decide) ⟨_, rfl⟩
  split
  next hc => exact hshort 9 ['t'] hc (by decide) ⟨_, rfl⟩
  next hquote hbackslash hnewline _ _ =>
    split
    next hcontrol =>
      rw [Bool.or_false, decide_eq_true_eq] at hcontrol
      obtain ⟨x, y, hx, hy, hcode, hhex⟩ := hex4_control c.toNat hcontrol
      rw [hhex]
      refine hshort c.toNat ['u', '0', '0', x.digitChar, y.digitChar]
        (Char.ofNat_toNat c).symm c.valid ⟨offset + 1 + 'u'.utf8Size + 1 + 1 + 1 + 1, ?_⟩
      have hzero : hexValue? '0' = some 0 := rfl
      simp [readEscape, readHex, hzero, (hexValue?_digitChar hx).1, (hexValue?_digitChar hy).1, hcode]
    next =>
      refine ⟨offset + c.utf8Size, ?_⟩
      rw [List.singleton_append, readString, if_neg hnewline, if_neg hquote, if_neg hbackslash]

theorem readString_quoted (value : List Char) (start fuel offset : Nat) (rest : List Char)
    (hfuel : value.length < fuel) :
    ∃ after, readString '"' start fuel
      ⟨value.flatMap (escapeChar fun _ => false) ++ '"' :: rest, offset⟩ =
        .ok (value, ⟨rest, after⟩) := by
  induction value generalizing fuel offset with
  | nil =>
    obtain ⟨fuel, rfl⟩ := Nat.exists_eq_add_of_lt hfuel
    exact ⟨offset + 1, rfl⟩
  | cons c value ih =>
    cases fuel with
    | zero => cases hfuel
    | succ fuel =>
      rw [List.flatMap_cons, List.append_assoc]
      obtain ⟨after, hread⟩ := readString_escapeChar c start fuel
        (value.flatMap (escapeChar fun _ => false) ++ '"' :: rest) offset
      obtain ⟨after', hrest⟩ := ih fuel after (Nat.lt_of_succ_lt_succ hfuel)
      exact ⟨after', by rw [hread, hrest]; rfl⟩

theorem takes_quoted (value : String) (rest : List Char) :
    Takes ((quoted value).toList ++ rest) (.string value) rest := by
  have hquoted : (quoted value).toList ++ rest =
      '"' :: (value.toList.flatMap (escapeChar fun _ => false) ++ '"' :: rest) := by
    simp [quoted, quoteWith]
  have hlength : value.toList.length ≤ (value.toList.flatMap (escapeChar fun _ => false)).length := by
    refine length_le_length_flatMap fun c _ => ?_
    rw [escapeChar]
    split_ifs <;> exact List.cons_ne_nil _ _
  intro offset
  obtain ⟨after, hread⟩ := readString_quoted value.toList offset
    ((value.toList.flatMap (escapeChar fun _ => false) ++ '"' :: rest).length + 1) (offset + 1) rest
     (by rw [List.length_append]; omega)
  refine ⟨after, ?_⟩
  rw [hquoted, readToken, if_neg (by decide), if_neg (by simp), if_pos (by decide), hread]
  simp

theorem spells_quoted (value : String) : Spells (quoted value).toList [.string value] := by
  intro rest ts hrest hts
  have hquoted : (quoted value).toList ++ rest =
      '"' :: (value.toList.flatMap (escapeChar fun _ => false) ++ '"' :: rest) := by
    simp [quoted, quoteWith]
  have htakes := takes_quoted value rest
  rw [hquoted] at htakes ⊢
  exact .cons (by decide) (by decide) htakes (by simp; omega) hts

/-! ## §4 Sets -/

/-- What the text of a code point in a set starts with: nothing that ends the set or makes a
range. -/
theorem head?_showSetChar (code : Nat) (text : List Char) :
    ∃ c, ((showSetChar code).toList ++ text).head? = some c ∧ c ≠ ']' ∧ c ≠ '-' := by
  rw [showSetChar]
  split
  next => exact ⟨'\\', by simp, by decide, by decide⟩
  next hplain =>
    simp only [Bool.or_eq_true, decide_eq_true_eq, not_or] at hplain
    split
    next => exact ⟨Char.ofNat code, by simp, hplain.1.2, hplain.2⟩
    next => exact ⟨'\\', by simp, by decide, by decide⟩

theorem toNat_ofNat_of_ne {code : Nat} (h : Char.ofNat code ≠ Char.ofNat 0) :
    (Char.ofNat code).toNat = code := by
  rw [Char.toNat_ofNat, if_pos]
  by_contra hinvalid
  exact h (by rw [Char.ofNat, dif_neg hinvalid]; rfl)

/-- A code point of a set is read back. -/
theorem readSetChar_showSetChar {code : Nat} (h : code < CharSet.codePoints) (start : Nat)
    (text : List Char) (offset : Nat) :
    ∃ after, readSetChar start ⟨(showSetChar code).toList ++ text, offset⟩ =
      .ok (code, ⟨text, after⟩) := by
  rw [showSetChar]
  split
  next hspecial =>
    simp only [Bool.or_eq_true, decide_eq_true_eq] at hspecial
    have hcode : (Char.ofNat code).toNat = code :=
      toNat_ofNat_of_ne (by rcases hspecial with (h | h) | h <;> rw [h] <;> decide)
    refine ⟨offset + 1 + (Char.ofNat code).utf8Size, ?_⟩
    have hescape : readEscape offset (Char.ofNat code :: text) =
        .ok ((Char.ofNat code).toNat, ⟨text, offset + 1 + (Char.ofNat code).utf8Size⟩) := by
      rcases hspecial with (h | h) | h <;> rw [h] <;> rfl
    rw [String.toList_ofList, ← hcode, Char.ofNat_toNat]
    exact hescape
  next hplain =>
    simp only [Bool.or_eq_true, decide_eq_true_eq, not_or] at hplain
    split
    next hvisible =>
      simp only [Bool.and_eq_true, decide_eq_true_eq] at hvisible
      have hcode : (Char.ofNat code).toNat = code := by
        rw [Char.toNat_ofNat, if_pos (.inl (by omega))]
      refine ⟨offset + (Char.ofNat code).utf8Size, ?_⟩
      rw [String.toList_singleton, List.singleton_append, readSetChar, if_neg hplain.1.1, hcode]
    next =>
      obtain ⟨after, hread⟩ := readEscape_braced h offset text
      exact ⟨after, by simpa [readSetChar] using hread⟩

theorem readRangeEnd_single {start low offset : Nat} {text : List Char} (h : text.head? ≠ some '-') :
    readRangeEnd start low ⟨text, offset⟩ = .ok (⟨low, low + 1⟩, ⟨text, offset⟩) := by
  rw [readRangeEnd.eq_def]
  split
  next heq =>
    cases heq
    exact absurd rfl h
  next heq =>
    cases heq
    exact absurd rfl h
  next => rfl

theorem readRangeEnd_dash {start low high offset : Nat} {text : List Char} {after : Cursor}
    (h : text.head? ≠ some ']') (hle : low ≤ high)
    (hread : readSetChar start ⟨text, offset + 1⟩ = .ok (high, after)) :
    readRangeEnd start low ⟨'-' :: text, offset⟩ = .ok (⟨low, high + 1⟩, after) := by
  rw [readRangeEnd.eq_def]
  split
  next heq =>
    cases heq
    exact absurd rfl h
  next heq =>
    cases heq
    rw [hread]
    exact if_neg (Nat.not_lt.mpr hle)
  next hnone => exact absurd rfl (hnone text offset)

/-- A range of a set is read back, in front of what does not make another range of it. -/
theorem readRange_shown {r : CodeRange} (h : CharSet.IsProper r) (start : Nat) {text : List Char}
    (htext : text.head? ≠ some '-') (offset : Nat) : ∃ middle after,
      readSetChar start ⟨r.shown.toList ++ text, offset⟩ = .ok (r.lo, middle) ∧
        readRangeEnd start r.lo middle = .ok (r, ⟨text, after⟩) := by
  obtain ⟨hlt, hle⟩ := h
  rw [CodeRange.shown, String.toList_append, List.append_assoc]
  split
  next hmany =>
    obtain ⟨after, hlow⟩ := readSetChar_showSetChar (Nat.lt_of_lt_of_le hlt hle) start
      (("-" ++ showSetChar (r.hi - 1)).toList ++ text) offset
    have hcode : r.hi - 1 < CharSet.codePoints := by omega
    obtain ⟨after', hhigh⟩ := readSetChar_showSetChar hcode start text (after + 1)
    refine ⟨_, after', hlow, ?_⟩
    have htext : ("-" ++ showSetChar (r.hi - 1)).toList ++ text =
        '-' :: ((showSetChar (r.hi - 1)).toList ++ text) := by simp
    obtain ⟨c, hhead, hc, -⟩ := head?_showSetChar (r.hi - 1) text
    have hne : ((showSetChar (r.hi - 1)).toList ++ text).head? ≠ some ']' := by
      rw [hhead]
      exact fun heq => hc (Option.some.inj heq)
    have hhi : r.hi - 1 + 1 = r.hi := by omega
    rw [htext, readRangeEnd_dash hne (by omega) hhigh, hhi]
  next hone =>
    obtain ⟨after, hlow⟩ := readSetChar_showSetChar (Nat.lt_of_lt_of_le hlt hle) start text offset
    have hhi : r.lo + 1 = r.hi := by omega
    exact ⟨_, after, hlow, by rw [readRangeEnd_single htext, hhi]⟩

theorem head?_shown (r : CodeRange) (text : List Char) :
    ∃ c, (r.shown.toList ++ text).head? = some c ∧ c ≠ ']' ∧ c ≠ '-' := by
  rw [CodeRange.shown, String.toList_append, List.append_assoc]
  exact head?_showSetChar r.lo _

theorem readSet_cons {start fuel offset : Nat} {text : List Char} {middle after rest : Cursor}
    {r : CodeRange} {ranges : List CodeRange} (h : text.head? ≠ some ']')
    (hlow : readSetChar start ⟨text, offset⟩ = .ok (r.lo, middle))
    (hrange : readRangeEnd start r.lo middle = .ok (r, after))
    (hrest : readSet start fuel after = .ok (ranges, rest)) :
    readSet start (fuel + 1) ⟨text, offset⟩ = .ok (r :: ranges, rest) := by
  rw [readSet.eq_def]
  split
  next heq => cases heq
  next heq =>
    cases heq
    exact absurd rfl h
  next hfuel _ =>
    cases hfuel
    rw [hlow]
    dsimp only [bind, Except.bind]
    rw [hrange]
    dsimp only
    rw [hrest]
    rfl

theorem readSet_shown {ranges : List CodeRange} (h : ∀ r ∈ ranges, CharSet.IsProper r)
    (start fuel offset : Nat) (rest : List Char) (hfuel : ranges.length < fuel) :
    ∃ after, readSet start fuel
      ⟨ranges.flatMap (fun r => r.shown.toList) ++ ']' :: rest, offset⟩ =
        .ok (ranges, ⟨rest, after⟩) := by
  induction ranges generalizing fuel offset with
  | nil =>
    obtain ⟨fuel, rfl⟩ := Nat.exists_eq_add_of_lt hfuel
    exact ⟨offset + 1, rfl⟩
  | cons r ranges ih =>
    obtain ⟨hr, hranges⟩ := List.forall_mem_cons.mp h
    cases fuel with
    | zero => cases hfuel
    | succ fuel =>
      rw [List.flatMap_cons, List.append_assoc]
      have htext : (ranges.flatMap (fun r => r.shown.toList) ++ ']' :: rest).head? ≠ some '-' := by
        cases ranges with
        | nil => simp
        | cons r' ranges =>
          obtain ⟨c, hhead, -, hc⟩ :=
            head?_shown r' (ranges.flatMap (fun r => r.shown.toList) ++ ']' :: rest)
          rw [List.flatMap_cons, List.append_assoc, hhead]
          exact fun heq => hc (Option.some.inj heq)
      obtain ⟨middle, after, hlow, hrange⟩ := readRange_shown hr start htext offset
      obtain ⟨after', hrest⟩ := ih hranges fuel after (Nat.lt_of_succ_lt_succ hfuel)
      obtain ⟨c, hhead, hc, -⟩ :=
        head?_shown r (ranges.flatMap (fun r => r.shown.toList) ++ ']' :: rest)
      refine ⟨after', readSet_cons ?_ hlow hrange hrest⟩
      rw [hhead]
      exact fun heq => hc (Option.some.inj heq)

theorem spells_set {ranges : List CodeRange} (h : CharSet.IsCanonical ranges) (start : Nat)
    (inverted : Bool) :
    Spells (Expr.set start ranges inverted).shown.toList [.set ranges inverted] := by
  intro rest ts hrest hts
  let c := if inverted then '!' else '$'
  let text := ranges.flatMap (fun r => r.shown.toList) ++ ']' :: rest
  have hshown : (Expr.set start ranges inverted).shown.toList ++ rest = c :: '[' :: text := by
    rw [Expr.shown]
    cases inverted <;> simp [c, text, String.toList_join, Function.comp_def, List.flatMap_def]
  have hlength : ranges.length ≤ (ranges.flatMap fun r => r.shown.toList).length := by
    refine length_le_length_flatMap fun r _ hnil => ?_
    obtain ⟨c, hhead, -⟩ := head?_shown r []
    rw [hnil] at hhead
    cases hhead
  have htoken : Takes (c :: '[' :: text) (.set ranges inverted) rest := by
    intro offset
    obtain ⟨after, hread⟩ := readSet_shown h.proper offset (('[' :: text).length + 1)
      (offset + 2) rest (by
        simp only [text, List.length_cons, List.length_append]
        omega)
    refine ⟨after, ?_⟩
    have hc : c ≠ '@' ∧ ((c = '$' || c = '!') && ('[' :: text).head? = some '[') = true ∧
        (c = '!') = (inverted = true) := by
      cases inverted <;> simp [c]
    rw [readToken, if_neg hc.1, if_pos hc.2.1, List.tail_cons, hread]
    dsimp only [bind, Except.bind]
    rw [(CharSet.isCanonical_iff.mp h).1.normalize_eq]
    simp only [hc.2.2, Bool.decide_eq_true]
    rfl
  rw [hshown]
  refine .cons ?_ ?_ htoken (by simp [text]; omega) hts
  · cases inverted <;> decide
  · cases inverted <;> decide

end Lexer

/-! ## §5 Expressions -/

/-- The token of a repetition. -/
def RepeatKind.token : RepeatKind → Token
  | optional => .punct '?'
  | star => .punct '*'
  | plus => .punct '+'

/-- The tokens of a piece of a property value that needs no quotes. -/
def PropPart.tokens : PropPart → List Token
  | text _ value => if value = "." then [.punct '.'] else [.name value]
  | parameter _ name => [.punct '\x7b', .name name, .punct '\x7d']

/-- The tokens of a property. -/
def NodeProp.tokens (p : NodeProp) : List Token :=
  (if p.builtin then .atName p.name else .name p.name) ::
    (if p.value.isEmpty then [] else .punct '=' :: p.value.flatMap PropPart.tokens)

/-- The tokens of properties in brackets. -/
def propsTokens (props : List NodeProp) : List Token :=
  if props.isEmpty then []
  else .punct '[' :: ([.punct ','].intercalate (props.map NodeProp.tokens) ++ [.punct ']'])

/-- Tokens in parentheses. -/
def inParens (ts : List Token) : List Token :=
  .punct '(' :: (ts ++ [.punct ')'])

namespace Expr

mutual

/-- The tokens of an expression. -/
def tokens : Expr → List Token
  | name _ id args =>
    if args.isEmpty then [.name id]
    else .name id :: .punct '<' :: ([.punct ','].intercalate (tokensAll args) ++ [.punct '>'])
  | specialize _ kind props token content =>
    .atName kind.name :: (propsTokens props ++ .punct '<' ::
      (token.tokens ++ .punct ',' :: (content.tokens ++ [.punct '>'])))
  | inlineRule _ id props body =>
    .name id :: (propsTokens props ++ .punct '\x7b' :: (body.tokens ++ [.punct '\x7d']))
  | choice _ alternatives => [.punct '|'].intercalate (tokensAll alternatives)
  | sequence _ elements markers =>
    if elements.isEmpty && markers.all (·.isEmpty) then inParens []
    else elementTokens elements markers
  | repeated _ body kind =>
    (if body.tightness < 4 then inParens body.tokens else body.tokens) ++ [kind.token]
  | literal _ value => [.string value]
  | set _ ranges inverted => [.set ranges inverted]
  | any _ => [.name "_"]
  | charClass _ cls => [.atName cls.name]

/-- The tokens of each expression. -/
def tokensAll : List Expr → List (List Token)
  | [] => []
  | e :: rest => e.tokens :: tokensAll rest

/-- The tokens of the elements of a sequence and of the markers around them. -/
def elementTokens : List Expr → List (List Marker) → List Token
  | [], markers => markers.flatten.flatMap Marker.tokens
  | e :: rest, markers =>
    (markers.head?.getD []).flatMap Marker.tokens ++
      ((if e.tightness < 2 then inParens e.tokens else e.tokens) ++
        elementTokens rest markers.tail)

end

/-- The tokens of a piece of a sequence. -/
def pieceTokens : Marker ⊕ Expr → List Token
  | .inl m => m.tokens
  | .inr e => if e.tightness < 2 then inParens e.tokens else e.tokens

theorem tokensAll_eq (es : List Expr) : tokensAll es = es.map tokens := by
  induction es with
  | nil => rfl
  | cons e es ih => rw [tokensAll, ih, List.map_cons]

theorem elementTokens_eq (elements : List Expr) (markers : List (List Marker)) :
    elementTokens elements markers = (pieces elements markers).flatMap pieceTokens := by
  induction elements generalizing markers with
  | nil => simp only [elementTokens, pieces, List.flatMap_map, pieceTokens]
  | cons e elements ih => simp [elementTokens, pieces, List.flatMap_map, pieceTokens, ih]

end Expr

namespace Lexer

open GrammarCompiler.Expr

/-- A text that spells tokens between others, whatever stands before it. -/
structure Separates (sep : String) (ts : List Token) : Prop where
  apart : ∃ c text, sep.toList = c :: text ∧ isNameChar c = false
  spells {text : List Char} {ts' : List Token} (h : Spells text ts') :
    Spells (sep.toList ++ text) (ts ++ ts')

theorem separates_blank : Separates " " [] :=
  ⟨⟨' ', [], rfl, by decide⟩, fun h => h.blank⟩

theorem separates_comma : Separates "," [.punct ','] :=
  ⟨⟨',', [], rfl, by decide⟩, fun h => h.punct (by decide)⟩

theorem separates_bar : Separates " | " [.punct '|'] :=
  ⟨⟨' ', ['|', ' '], rfl, by decide⟩, fun h => (h.blank.punct (by decide)).blank⟩

theorem spells_intercalate {α : Type} {sep : String} {ts : List Token} {f : α → String}
    {g : α → List Token} {as : List α} (hsep : Separates sep ts)
    (h : ∀ a ∈ as, Spells (f a).toList (g a)) :
    Spells (sep.intercalate (as.map f)).toList (ts.intercalate (as.map g)) := by
  induction as with
  | nil => exact spells_nil
  | cons a as ih =>
    obtain ⟨ha, has⟩ := List.forall_mem_cons.mp h
    cases as with
    | nil => simpa using ha
    | cons a' as =>
      obtain ⟨c, text, heq, hc⟩ := hsep.apart
      have hrest := hsep.spells (ih has)
      rw [heq, List.cons_append] at hrest
      have hall := ha.append hc hrest
      rw [← List.cons_append, ← heq] at hall
      simpa [String.toList_intercalate, List.intercalate_cons_cons] using hall

theorem Spells.inParens {text : List Char} {ts : List Token} (h : Spells text ts) :
    Spells ('(' :: (text ++ [')'])) (inParens ts) :=
  (h.append (by decide) (spells_nil.punct (by decide))).punct (by decide)

/-- Looser expressions get parentheses. -/
theorem spells_within {e : Expr} (h : Spells e.shown.toList e.tokens) (least : Nat) :
    Spells (if e.tightness < least then "(" ++ e.shown ++ ")" else e.shown).toList
      (if e.tightness < least then inParens e.tokens else e.tokens) := by
  split
  next =>
    have hshown : ("(" ++ e.shown ++ ")").toList = '(' :: (e.shown.toList ++ [')']) := by simp
    rw [hshown]
    exact h.inParens
  next => exact h

theorem isName_kind (kind : SpecializeKind) : IsName kind.name := by
  cases kind <;> exact ⟨by decide, List.forall_iff_forall_mem.mp (by decide)⟩

theorem isName_class (cls : CharClass) : IsName cls.name := by
  cases cls <;> exact ⟨by decide, List.forall_iff_forall_mem.mp (by decide)⟩

/-- What comes behind a name in a plain value ends the name. -/
theorem exists_apart_of_arePlain {part : PropPart} {rest : List PropPart}
    (h : PropPart.arePlain (part :: rest) = true) (hname : part.isName = false) :
    ∃ c text, part.shown.toList = c :: text ∧ isNameChar c = false := by
  rw [PropPart.arePlain, Bool.and_eq_true, Bool.and_eq_true] at h
  cases part with
  | text start value =>
    rw [PropPart.isPlain, show decide (IsName value) = false from hname, Bool.or_false,
      beq_iff_eq] at h
    exact ⟨'.', [], by rw [PropPart.shown, h.1.1]; rfl, by decide⟩
  | parameter start name =>
    exact ⟨'\x7b', name.toList ++ ['\x7d'], by simp [PropPart.shown], by decide⟩

theorem spells_value {value : List PropPart} (h : PropPart.arePlain value = true) :
    Spells (value.flatMap fun part => part.shown.toList) (value.flatMap PropPart.tokens) := by
  induction value with
  | nil => exact spells_nil
  | cons part rest ih =>
    have hall := h
    rw [PropPart.arePlain, Bool.and_eq_true, Bool.and_eq_true] at h
    obtain ⟨⟨hpart, hapart⟩, hrest⟩ := h
    have ih := ih hrest
    rw [List.flatMap_cons, List.flatMap_cons]
    cases part with
    | text start text =>
      rw [PropPart.shown, PropPart.tokens]
      split
      next hdot =>
        subst hdot
        exact ih.punct (by decide)
      next hdot =>
        have hname : IsName text := by
          simpa [PropPart.isPlain, hdot] using hpart
        cases rest with
        | nil => simpa using spells_name hname
        | cons next rest =>
          have hnext : next.isName = false := by
            simpa [PropPart.isName, hname] using hapart
          obtain ⟨c, text', hshown, hc⟩ := exists_apart_of_arePlain hrest hnext
          rw [List.flatMap_cons, hshown, List.cons_append] at ih ⊢
          exact (spells_name hname).append hc ih
    | parameter start name =>
      have hname : IsName name := of_decide_eq_true hpart
      simpa [PropPart.shown, PropPart.tokens] using
        ((spells_name hname).append (by decide) (ih.punct (c := '\x7d') (by decide))).punct
          (c := '\x7b') (by decide)

theorem spells_prop {p : NodeProp} (h : p.isPlain = true) : Spells p.shown.toList p.tokens := by
  rw [NodeProp.isPlain, Bool.and_eq_true, decide_eq_true_eq] at h
  obtain ⟨hname, hvalue⟩ := h
  have hid : Spells ((if p.builtin then "@" else "") ++ p.name).toList
      [if p.builtin then .atName p.name else .name p.name] := by
    split
    next => simpa using spells_atName hname
    next => simpa using spells_name hname
  rw [NodeProp.shown, NodeProp.tokens, String.toList_append]
  by_cases hempty : p.value.isEmpty = true
  · rw [if_pos hempty, if_pos hempty, String.toList_empty, List.append_nil]
    exact hid
  · have hrest := (spells_value hvalue).punct (c := '=') (by decide)
    have hshown : ("=" ++ String.join (p.value.map PropPart.shown)).toList =
        '=' :: p.value.flatMap fun part => part.shown.toList := by
      simp [String.toList_join, List.flatMap_def, Function.comp_def]
    rw [if_neg hempty, if_neg hempty, hshown]
    exact hid.append (by decide) hrest

/-- Properties can stand between texts. -/
theorem Spells.append_props {c : Char} {text text' : List Char} {ts ts' : List Token}
    {props : List NodeProp} (h : Spells text ts) (hprops : ∀ p ∈ props, p.isPlain = true)
    (hc : isNameChar c = false) (h' : Spells (c :: text') ts') :
    Spells (text ++ ((showProps props).toList ++ c :: text')) (ts ++ (propsTokens props ++ ts')) := by
  rw [showProps, propsTokens]
  split
  next => simpa using h.append hc h'
  next =>
    have hall := (spells_intercalate separates_comma fun p hp => spells_prop (hprops p hp)).append
      (c := ']') (by decide) (h'.punct (by decide))
    simpa using h.append (by decide) (hall.punct (c := '[') (by decide))

end Lexer

namespace Expr

open Lexer

/-- The text of a normal expression spells its tokens. -/
theorem IsNormal.spells {m : Expr} (h : m.IsNormal) : Spells m.shown.toList m.tokens := by
  induction h with
  | @name start id args hid hany _ ih =>
    rw [shown, tokens, showAll_eq (Nat.zero_le _), tokensAll_eq]
    split
    next => exact spells_name hid
    next =>
      have hargs := (spells_intercalate separates_comma ih).append (c := '>') (by decide)
        (spells_nil.punct (by decide))
      simpa using (spells_name hid).append (by decide) (hargs.punct (c := '<') (by decide))
  | @specialize start kind props token content hprops _ _ htoken hcontent =>
    have hrest := hcontent.append (c := '>') (by decide) (spells_nil.punct (by decide))
    have hpair := htoken.append (c := ',') (by decide) (hrest.blank.punct (by decide))
    simpa [shown, tokens] using (spells_atName (isName_kind kind)).append_props hprops (by decide)
      (hpair.punct (c := '<') (by decide))
  | @inlineRule start id props body hid _ hprops _ ih =>
    have hbody := ih.append (c := ' ') (by decide) (spells_nil.punct (c := '\x7d') (by decide)).blank
    simpa [shown, tokens] using (spells_name hid).append_props hprops (by decide)
      (hbody.blank.punct (c := '\x7b') (by decide)).blank
  | choice start _ _ _ ih =>
    rw [shown, tokens, showAll_eq (Nat.le_refl _), tokensAll_eq]
    exact spells_intercalate separates_bar ih
  | empty start =>
    rw [Expr.empty, shown, tokens]
    exact spells_nil.inParens
  | @sequence start elements markers hlength _ hnames _ _ ih =>
    rw [shown, tokens, showElements_eq, elementTokens_eq]
    split
    next => exact spells_nil.inParens
    next =>
      have hpieces := spells_intercalate separates_blank (f := showPiece) (g := pieceTokens) <|
        forall_mem_pieces hlength (fun gap hgap m hm => spells_marker (hnames gap hgap m hm))
          fun e he => spells_within (ih e he) 2
      rwa [intercalate_nil, ← List.flatMap_def] at hpieces
  | @repeated start body kind h ih =>
    obtain ⟨c, hsign, htoken, hname, hpunct⟩ : ∃ c, kind.sign.toList = [c] ∧
        kind.token = .punct c ∧ isNameChar c = false ∧
          c ∈ ['{', '}', '(', ')', '[', ']', '<', '>', '|', '*', '+', '?', '~', ',', '=', '.'] := by
      cases kind <;> exact ⟨_, rfl, rfl, by decide, by decide⟩
    rw [shown, tokens, String.toList_append, hsign, htoken]
    exact (spells_within ih 4).append hname (spells_nil.punct hpunct)
  | literal start value => exact spells_quoted value
  | set start inverted h => exact spells_set h start inverted
  | any start =>
    have hany : IsName "_" := ⟨by decide, List.forall_iff_forall_mem.mp (by decide)⟩
    exact spells_name hany
  | charClass start cls =>
    simpa [shown, tokens] using spells_atName (isName_class cls)

end Expr

end GrammarCompiler
