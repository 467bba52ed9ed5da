/-
GrammarCompiler.CharSet — sets of code points as lists of ranges.

  §1 Ranges     — half-open ranges of code points and membership.
  §2 Canonical  — `normalize` sorts ranges and joins the ones that overlap or
                  touch, so that every set has one canonical list.
  §3 Complement — `complement` of a canonical list, within all code points.
  §4 Classes    — the named character classes.
-/
namespace GrammarCompiler

/-! ## §1 Ranges -/

/-- The code points from `lo` up to, but not including, `hi`. -/
structure CodeRange where
  lo : Nat
  hi : Nat
deriving DecidableEq, Repr

namespace CharSet

/-- The number of code points. -/
def codePoints : Nat := 0x110000

/-- Whether one of the ranges contains a code point. -/
def contains (ranges : List CodeRange) (code : Nat) : Bool :=
  ranges.any fun r => r.lo ≤ code && code < r.hi

/-! ## §2 Canonical lists -/

/-- Ranges are ordered by where they start, then by where they end. -/
def before (a b : CodeRange) : Bool :=
  a.lo < b.lo || (a.lo == b.lo && a.hi ≤ b.hi)

/-- Joins `current` with the sorted ranges that follow it. -/
def joinFrom (current : CodeRange) : List CodeRange → List CodeRange
  | [] => [current]
  | next :: rest =>
    if next.lo ≤ current.hi then joinFrom ⟨current.lo, max current.hi next.hi⟩ rest
    else current :: joinFrom next rest

/-- Joins sorted ranges that overlap or touch. -/
def join : List CodeRange → List CodeRange
  | [] => []
  | first :: rest => joinFrom first rest

/-- The canonical list of ranges for the same set. -/
def normalize (ranges : List CodeRange) : List CodeRange :=
  join (ranges.mergeSort before)

/-! ## §3 Complement -/

/-- The code points from `start` on that lie in none of the ranges. -/
def complementFrom (start : Nat) : List CodeRange → List CodeRange
  | [] => if start < codePoints then [⟨start, codePoints⟩] else []
  | r :: rest =>
    if start < r.lo then ⟨start, r.lo⟩ :: complementFrom r.hi rest
    else complementFrom r.hi rest

/-- The code points outside a canonical list of ranges. -/
def complement (ranges : List CodeRange) : List CodeRange :=
  complementFrom 0 ranges

end CharSet

/-! ## §4 Named classes -/

/-- The character classes that grammars can name. The end of the input is
written like a class but holds no characters. -/
inductive CharClass where
  | asciiLetter
  | asciiUppercase
  | asciiLowercase
  | digit
  | whitespace
  | eof
deriving DecidableEq, Repr

namespace CharClass

/-- The name of a class. -/
def name : CharClass → String
  | asciiLetter => "asciiLetter"
  | asciiUppercase => "asciiUppercase"
  | asciiLowercase => "asciiLowercase"
  | digit => "digit"
  | whitespace => "whitespace"
  | eof => "eof"

/-- Every class. -/
def all : List CharClass :=
  [asciiLetter, asciiUppercase, asciiLowercase, digit, whitespace, eof]

/-- The class with a name. -/
def ofName? (name : String) : Option CharClass :=
  all.find? fun c => c.name == name

/-- The characters of a class. -/
def ranges : CharClass → List CodeRange
  | asciiLetter => [⟨65, 91⟩, ⟨97, 123⟩]
  | asciiUppercase => [⟨65, 91⟩]
  | asciiLowercase => [⟨97, 123⟩]
  | digit => [⟨48, 58⟩]
  | whitespace =>
    [⟨9, 14⟩, ⟨32, 33⟩, ⟨133, 134⟩, ⟨160, 161⟩, ⟨5760, 5761⟩, ⟨8192, 8203⟩,
      ⟨8232, 8234⟩, ⟨8239, 8240⟩, ⟨8287, 8288⟩, ⟨12288, 12289⟩]
  | eof => []

theorem ofName?_name (c : CharClass) : ofName? c.name = some c := by
  cases c <;> decide

end CharClass

end GrammarCompiler
