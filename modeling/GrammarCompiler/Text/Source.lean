/-
GrammarCompiler.Text.Source — a grammar text with its file name.

Places in the text are byte offsets into its UTF-8 encoding; messages give
them as a line and a column. Lines are counted from one, columns from zero
and in characters. An offset past the end stands for the end, and one inside
a character (`isBoundary` is false) for the place before that character.
-/
namespace GrammarCompiler.Text

/-! ## §1 Positions -/

/-- A line, counted from one, and a column, counted from zero. -/
structure Position where
  line : Nat
  column : Nat
deriving DecidableEq, Repr

/-- The position right after a character. -/
def Position.after (p : Position) (c : Char) : Position :=
  if c = '\n' then ⟨p.line + 1, 0⟩ else ⟨p.line, p.column + 1⟩

/-- The position `count` bytes further on in `text`, which starts at `p`. -/
def Position.advance (p : Position) : List Char → Nat → Position
  | [], _ => p
  | c :: text, count =>
    if count < c.utf8Size then p else (p.after c).advance text (count - c.utf8Size)

/-- Whether a character of `text`, or its end, starts after `count` bytes. -/
def isBoundary : List Char → Nat → Bool
  | _, 0 => true
  | [], _ => false
  | c :: text, count => c.utf8Size ≤ count && isBoundary text (count - c.utf8Size)

/-! ## §2 Sources -/

/-- A grammar text and the name messages use for it. -/
structure Source where
  file : String
  text : String
deriving Repr

/-- A position in a named file. -/
structure Location where
  file : String
  position : Position
deriving DecidableEq, Repr

/-- Locations are written `file line:column`. -/
def Location.shown (l : Location) : String :=
  s!"{l.file} {l.position.line}:{l.position.column}"

namespace Source

/-- An offset, limited to the length of the text. -/
def clamp (s : Source) (offset : Nat) : Nat :=
  min offset s.text.utf8ByteSize

/-- Whether `offset`, limited to the length, lies between two characters. -/
def onBoundary (s : Source) (offset : Nat) : Bool :=
  isBoundary s.text.toList (s.clamp offset)

/-- The line and column of an offset. -/
def position (s : Source) (offset : Nat) : Position :=
  Position.advance ⟨1, 0⟩ s.text.toList (s.clamp offset)

/-- The location of an offset. -/
def location (s : Source) (offset : Nat) : Location :=
  ⟨s.file, s.position offset⟩

end Source

/-- A message, followed by the place it is about. -/
def located (message : String) : Option Location → String
  | none => message
  | some l => s!"{message} ({l.shown})"

end GrammarCompiler.Text
