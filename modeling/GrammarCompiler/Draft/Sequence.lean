/-
GrammarCompiler.Draft.Sequence — sequences of choices as a choice of phrases.

Every element of a sequence can stand for one of several phrases. The sequence
then stands for one phrase for each way to choose. Markers in a gap of the
sequence put marks on the gap, and precedences also on the end of the phrase.
-/
import GrammarCompiler.Declaration.Basic
import GrammarCompiler.Fault
import GrammarCompiler.Grammar.Rule

namespace GrammarCompiler

/-! ## §1 Markers -/

/-- What the markers in a gap say about the gap, and about the end of the
rule. -/
structure GapMarks where
  here : Marks := Marks.none
  atEnd : Marks := Marks.none

namespace GapMarks

/-- The marks of both. -/
def join (a b : GapMarks) : GapMarks :=
  ⟨a.here.join b.here, a.atEnd.join b.atEnd⟩

/-- What an item of a precedence list says. Levels are four apart, so that
operators that associate differ from their level at the end of a rule. -/
def ofPrecedence (level : Nat) : Option Associativity → GapMarks
  | some .cut => { here := { cut := level } }
  | some .left => ⟨{ precedence := 4 * level }, { precedence := 4 * level + 1 }⟩
  | some .right => ⟨{ precedence := 4 * level }, { precedence := 4 * level - 1 }⟩
  | none => ⟨{ precedence := 4 * level }, { precedence := 4 * level }⟩

/-- What a marker says. Earlier items of the precedence list are on higher
levels. -/
def ofMarker (items : List PrecedenceItem) (m : Marker) :
    Except (GrammarFault × Option Nat) GapMarks :=
  match m.kind with
  | .ambiguity => .ok { here := { ambiguities := [m.id.name] } }
  | .precedence =>
    match items.dropWhile fun i => i.id.name != m.id.name with
    | [] => .error (.unknownPrecedence m.id.name, some m.id.start)
    | item :: later => .ok (ofPrecedence (later.length + 1) item.assoc)

/-- What the markers of a gap say. -/
def ofMarkers (items : List PrecedenceItem) (markers : List Marker) :
    Except (GrammarFault × Option Nat) GapMarks :=
  markers.foldlM (fun marks m => do return marks.join (← ofMarker items m)) {}

end GapMarks

/-! ## §2 Sequences -/

/-- The phrases for a sequence of elements behind `done`. There is one gap more
than elements. The marks for the end of the rule are collected on the way; the
last gap has no say in them. -/
def sequencePhrases : (elements : List (List Phrase)) → (gaps : List GapMarks) →
    (done : Phrase) → (atEnd : Marks) → List Phrase
  | [], gaps, done, atEnd => [done.markEnd ((gaps.headD {}).here.join atEnd)]
  | phrases :: elements, gaps, done, atEnd =>
    let gap := gaps.headD {}
    phrases.flatMap fun phrase =>
      sequencePhrases elements gaps.tail ((done.markEnd gap.here).append phrase)
        (atEnd.join gap.atEnd)

end GrammarCompiler
