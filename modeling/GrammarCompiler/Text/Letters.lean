/-
GrammarCompiler.Text.Letters — the character classes of grammar texts.

A name consists of letters, numbers, underscores and dashes
(`isNameChar`); a name that starts with a lowercase letter or an underscore
does not show up in syntax trees (`isHiddenName`); blanks separate tokens
(`isBlank`). ASCII is decided by comparisons, everything above it by the
tables of `GrammarCompiler.Text.LetterTables`.

`isNameChar_of_isAlphanum` and `isBlank_of_isWhitespace` say that the
classes of the core library, which know ASCII only, are contained in these.
-/
import GrammarCompiler.Text.LetterTables

namespace GrammarCompiler.Text

/-! ## §1 Classes -/

/-- Membership in a list of closed ranges. -/
def inRanges (ranges : List (Nat × Nat)) (code : Nat) : Bool :=
  ranges.any fun r => r.1 ≤ code && code ≤ r.2

/-- A letter or a number of any script. -/
def isLetterOrNumber (c : Char) : Bool :=
  if c.toNat < 0x80 then c.isAlphanum else inRanges nameRanges c.toNat

/-- The characters of names. -/
def isNameChar (c : Char) : Bool :=
  isLetterOrNumber c || c == '_' || c == '-'

/-- A lowercase letter of any script. -/
def isLowercase (c : Char) : Bool :=
  if c.toNat < 0x80 then c.isLower else inRanges lowercaseRanges c.toNat

/-- Blank space, the characters with the White_Space property. -/
def isBlank (c : Char) : Bool :=
  inRanges [(0x9, 0xd), (0x20, 0x20), (0x85, 0x85), (0xa0, 0xa0), (0x1680, 0x1680),
    (0x2000, 0x200a), (0x2028, 0x2029), (0x202f, 0x202f), (0x205f, 0x205f),
    (0x3000, 0x3000)] c.toNat

/-- Names that start with an underscore or a lowercase letter produce no
nodes; neither does the empty name. -/
def isHiddenName (name : String) : Bool :=
  match name.toList with
  | [] => true
  | c :: _ => c == '_' || isLowercase c

/-! ## §2 The classes of the core library -/

theorem isNameChar_of_isAlphanum {c : Char} (ascii : c.toNat < 0x80)
    (h : c.isAlphanum = true) : isNameChar c = true := by
  simp [isNameChar, isLetterOrNumber, ascii, h]

theorem isBlank_of_isWhitespace {c : Char} (h : c.isWhitespace = true) :
    isBlank c = true := by
  simp only [Char.isWhitespace, Bool.or_eq_true, decide_eq_true_eq] at h
  rcases h with ((h | h) | h) | h <;> subst h <;> decide

end GrammarCompiler.Text
