/-
GrammarCompiler.Proofs.Quoting — quoted texts mean what they were made from.

A grammar that quotes a text reads it as one string token, which ends with the text.
So different texts are quoted differently. A script reads its own quoted texts in
another way: `pieces?` takes what stands between the quotes apart, into characters
that stand for themselves and escapes. No character that a script cannot have between
quotes stands for itself.

  §1 Tokens — quoted texts of grammars.
  §2 Pieces — quoted texts of scripts.
-/
import GrammarCompiler.Proofs.Offsets
import GrammarCompiler.Proofs.Spelling

namespace GrammarCompiler

open Text Lexer

/-! ## §1 Tokens -/

namespace Lexer

/-- The token of a quoted text ends with the text. -/
theorem readToken_quoted (value : String) (rest : List Char) (offset : Nat) :
    readToken ⟨(quoted value).toList ++ rest, offset⟩ =
      .ok (some (.string value), ⟨rest, offset + (quoted value).utf8ByteSize⟩) := by
  obtain ⟨offset', hread⟩ := takes_quoted value rest offset
  have hscans := @scans_readToken (fun _ => True) ⟨(quoted value).toList ++ rest, offset⟩
    fun _ _ => trivial
  rw [hread] at hscans
  obtain ⟨⟨taken, hrest, hoffset⟩, -⟩ := hscans
  obtain rfl : (quoted value).toList = taken := List.append_cancel_right hrest
  rw [hread, ← byteSize_toList]
  exact congrArg (fun o => Except.ok (some (Token.string value), Cursor.mk rest o)) hoffset

theorem tokens_quoted (value : String) :
    tokens (quoted value) = .cons 0 (.string value) (.done (quoted value).utf8ByteSize) := by
  have hread := readToken_quoted value [] 0
  obtain ⟨text, htext⟩ : ∃ text, (quoted value).toList = '"' :: text :=
    ⟨_, by simp [quoted, quoteWith]; rfl⟩
  have hlength : (quoted value).length = text.length + 1 := by
    rw [← String.length_toList, htext, List.length_cons]
  rw [List.append_nil, htext, Nat.zero_add] at hread
  rw [tokens, hlength, htext, tokensFrom]
  have hskip : skipBlank .space ('"' :: text) 0 = .ok ⟨'"' :: text, 0⟩ := rfl
  rw [hskip]
  simp only [hread]
  rfl

theorem quoted_injective : Function.Injective quoted := by
  intro value value' h
  have hread := tokens_quoted value
  rw [h, tokens_quoted value'] at hread
  injection hread with _ htoken
  exact (Token.string.inj htoken).symm

end Lexer

/-! ## §2 Pieces -/

/-- What a script can have between quotes. -/
inductive Piece where
  /-- A character that stands for itself. -/
  | plain (c : Char)
  /-- An escape that stands for a character. -/
  | escape (c : Char)

namespace Piece

/-- The character that a piece stands for. -/
def value : Piece → Char
  | plain c => c
  | escape c => c

/-- The characters that escapes of one character behind the backslash stand for. -/
def ofSign? : Char → Option Char
  | '"' => some '"'
  | '\\' => some '\\'
  | 'n' => some '\n'
  | 'r' => some '\r'
  | 't' => some '\t'
  | _ => none

/-- Goes on with a hexadecimal number by one digit. -/
def addDigit? (code : Nat) (digit : Char) : Option Nat :=
  (hexValue? digit).map (code * 16 + ·)

/-- The character that an escape with a hexadecimal number stands for. -/
def ofDigits? (digits : List Char) : Option Char := do
  let code ← digits.foldlM addDigit? 0
  if code.isValidChar then some (Char.ofNat code) else none

/-- The pieces of a text, unless a backslash in it starts no escape. -/
def pieces? : List Char → Option (List Piece)
  | [] => some []
  | '\\' :: 'u' :: a :: b :: c :: d :: text =>
    (ofDigits? [a, b, c, d]).bind fun c => (pieces? text).map (escape c :: ·)
  | '\\' :: sign :: text =>
    (ofSign? sign).bind fun c => (pieces? text).map (escape c :: ·)
  | ['\\'] => none
  | c :: text => (pieces? text).map (plain c :: ·)

/-- Characters that can stand for themselves between quotes: no quote, no backslash, no control
character and neither of the two line separators. -/
structure IsPlain (c : Char) : Prop where
  ne_quote : c ≠ '"'
  ne_backslash : c ≠ '\\'
  le_toNat : 0x20 ≤ c.toNat
  ne_lineSeparator : c.toNat ≠ 0x2028
  ne_paragraphSeparator : c.toNat ≠ 0x2029

theorem foldlM_addDigit?_hex (n : Nat) : (hex n).foldlM addDigit? 0 = some n := by
  induction n using Nat.strongRecOn with
  | ind n ih =>
    have hone {digit : Nat} (hdigit : digit < 16) (code : Nat) :
        addDigit? code digit.digitChar = some (code * 16 + digit) := by
      rw [addDigit?, (hexValue?_digitChar hdigit).1, Option.map_some]
    by_cases hlt : n < 16
    · have hhex : hex n = [n.digitChar] := Nat.toDigits_of_lt_base hlt
      simp [hhex, hone hlt]
    · have hhex : hex n = hex (n / 16) ++ [(n % 16).digitChar] :=
        Nat.toDigits_of_base_le (by decide) (Nat.le_of_not_lt hlt)
      rw [hhex, List.foldlM_append, ih (n / 16) (by omega)]
      simp [hone (Nat.mod_lt n (by decide)), Nat.div_add_mod']

theorem foldlM_addDigit?_zeros (count : Nat) (digits : List Char) :
    (List.replicate count '0' ++ digits).foldlM addDigit? 0 = digits.foldlM addDigit? 0 := by
  induction count with
  | zero => rfl
  | succ count ih => exact ih

/-- Four digits are enough for the characters of one code unit. -/
theorem exists_hex4 {c : Char} (h : c.toNat < 0x10000) : ∃ a b c' d,
    hex4 c.toNat = [a, b, c', d] ∧ ofDigits? [a, b, c', d] = some c := by
  have hlength : (hex c.toNat).length ≤ 4 :=
    (Nat.length_toDigits_le_iff (by decide) (by decide)).mpr h
  have hfour : (hex4 c.toNat).length = 4 := by
    rw [hex4, List.length_leftpad, Nat.max_eq_left hlength]
  have hdigits : ofDigits? (hex4 c.toNat) = some c := by
    rw [ofDigits?, hex4, List.leftpad, foldlM_addDigit?_zeros, foldlM_addDigit?_hex]
    exact (if_pos c.valid).trans (congrArg some (Char.ofNat_toNat c))
  match hhex : hex4 c.toNat, hfour with
  | [a, b, c', d], _ => exact ⟨a, b, c', d, rfl, hhex ▸ hdigits⟩

theorem escape_ne_plain (c c' : Char) : escape c ≠ plain c' :=
  Piece.noConfusion

/-- A character between quotes is one piece, which stands for it. -/
theorem pieces?_escapeChar (c : Char) (text : List Char) :
    ∃ piece : Piece, piece.value = c ∧ (∀ c', piece = plain c' → IsPlain c') ∧
      pieces? (escapeChar (fun c => c.toNat == 0x2028 || c.toNat == 0x2029) c ++ text) =
        (pieces? text).map (piece :: ·) := by
  have hescape {written : List Char} (h : pieces? (written ++ text) =
      (pieces? text).map (escape c :: ·)) : ∃ piece : Piece, piece.value = c ∧
        (∀ c', piece = plain c' → IsPlain c') ∧
        pieces? (written ++ text) = (pieces? text).map (piece :: ·) :=
    ⟨escape c, rfl, fun c' hplain => absurd hplain (escape_ne_plain c c'), h⟩
  rw [escapeChar]
  split_ifs with hquote hbackslash hnewline hreturn htab hspecial
  · exact hescape (by rw [hquote]; rfl)
  · exact hescape (by rw [hbackslash]; rfl)
  · exact hescape (by rw [hnewline]; rfl)
  · exact hescape (by rw [hreturn]; rfl)
  · exact hescape (by rw [htab]; rfl)
  · simp only [Bool.or_eq_true, decide_eq_true_eq, beq_iff_eq] at hspecial
    obtain ⟨a, b, c', d, hhex, hdigits⟩ := exists_hex4 (c := c) (by omega)
    refine hescape ?_
    rw [hhex]
    change (ofDigits? [a, b, c', d]).bind _ = _
    rw [hdigits]
    rfl
  · simp only [Bool.or_eq_true, decide_eq_true_eq, beq_iff_eq, not_or] at hspecial
    refine ⟨plain c, rfl, ?_, ?_⟩
    · intro c' h
      obtain rfl := Piece.plain.inj h
      exact ⟨hquote, hbackslash, by omega, hspecial.2.1, hspecial.2.2⟩
    · rw [List.singleton_append, pieces?.eq_def]
      split <;> simp_all

/-- What stands between quotes is taken apart into pieces that stand for the text. -/
theorem pieces?_quoted (text : List Char) : ∃ pieces,
    pieces? (text.flatMap (escapeChar fun c => c.toNat == 0x2028 || c.toNat == 0x2029)) =
      some pieces ∧ pieces.map value = text ∧ ∀ c, plain c ∈ pieces → IsPlain c := by
  induction text with
  | nil => exact ⟨[], rfl, rfl, nofun⟩
  | cons c text ih =>
    obtain ⟨pieces, hpieces, hvalue, hplain⟩ := ih
    obtain ⟨piece, hc, hplain', hfirst⟩ := pieces?_escapeChar c
      (text.flatMap (escapeChar fun c => c.toNat == 0x2028 || c.toNat == 0x2029))
    refine ⟨piece :: pieces, ?_, by rw [List.map_cons, hc, hvalue], fun c' h => ?_⟩
    · rw [List.flatMap_cons, hfirst, hpieces, Option.map_some]
    · rcases List.mem_cons.mp h with h | h
      · exact hplain' c' h.symm
      · exact hplain c' h

end Piece

/-- A quoted text is read as one complete string token whose value is the text, wherever it stands
and whatever follows it. So no other text is quoted the same. What a script writes between its
quotes consists of escapes and of characters that can stand there, and the pieces stand for the
characters of the text. -/
theorem quoted_isInvertible (text : String) :
    (∀ rest offset, readToken ⟨(quoted text).toList ++ rest, offset⟩ =
      .ok (some (.string text), ⟨rest, offset + (quoted text).utf8ByteSize⟩)) ∧
    tokens (quoted text) = .cons 0 (.string text) (.done (quoted text).utf8ByteSize) ∧
    (∀ other, quoted other = quoted text ↔ other = text) ∧
    ∃ body pieces, scriptQuoted text = "\"" ++ body ++ "\"" ∧
      Piece.pieces? body.toList = some pieces ∧
      String.ofList (pieces.map Piece.value) = text ∧
      ∀ c, Piece.plain c ∈ pieces → Piece.IsPlain c := by
  obtain ⟨pieces, hpieces, hvalue, hplain⟩ := Piece.pieces?_quoted text.toList
  refine ⟨readToken_quoted text, tokens_quoted text, fun _ => quoted_injective.eq_iff,
    String.ofList (text.toList.flatMap _), pieces, ?_, by rwa [String.toList_ofList], ?_, hplain⟩
  · simp [scriptQuoted, quoteWith, String.ext_iff]
  · rw [hvalue, String.ofList_toList]

end GrammarCompiler
