/-
GrammarCompiler.Grammar.Rule — sequences of symbols, and rules.

  §1 Phrases — a sequence of symbols with marks in its gaps: one before each
               symbol and one at the end.
  §2 Rules   — a phrase that a symbol can stand for.
-/
import GrammarCompiler.Grammar.Marks
import GrammarCompiler.Grammar.Term

namespace GrammarCompiler

/-! ## §1 Phrases -/

/-- Symbols with marks in the gaps. There is one gap more than symbols. -/
structure Phrase where
  parts : List Term
  marks : List Marks
deriving DecidableEq, Repr, Inhabited

namespace Phrase

/-- The phrase without symbols. -/
def empty : Phrase := ⟨[], [Marks.none]⟩

/-- The phrase of one symbol. -/
def single (term : Term) : Phrase := ⟨[term], [Marks.none, Marks.none]⟩

/-- The marks of the gap before a symbol, or of the last gap. -/
def marksAt (p : Phrase) (gap : Nat) : Marks :=
  p.marks[gap]?.getD Marks.none

/-- The marks of the last gap. -/
def lastMarks (p : Phrase) : Marks :=
  p.marks.getLast?.getD Marks.none

/-- Joins marks to those of the last gap. -/
def markEnd (p : Phrase) (m : Marks) : Phrase :=
  ⟨p.parts, p.marks.dropLast ++ [p.lastMarks.join m]⟩

/-- One phrase after another. The gaps that meet become one. -/
def append (p q : Phrase) : Phrase :=
  ⟨p.parts ++ q.parts,
    p.marks.dropLast ++ p.lastMarks.join (q.marks.headD Marks.none) :: q.marks.tail⟩

end Phrase

/-! ## §2 Rules -/

/-- A rule: `name` can stand for the phrase. `id` tells the order of
creation, `skip` what may be skipped between the parts. -/
structure Rule extends Phrase where
  id : Nat
  name : Term
  skip : Term
deriving Repr, Inhabited

deriving instance DecidableEq for Rule

namespace Rule

/-- Compares rules, leaving their names and the order of creation aside. -/
def compareBody (a b : Rule) : Ordering :=
  (compare a.parts.length b.parts.length).then
    ((compare a.skip b.skip).then
      ((firstDifference compare a.parts b.parts).then
        (compareByLength Marks.compare a.marks b.marks)))

/-- Whether a rule makes a longer repeat out of two shorter ones. -/
def isRepeatWrap (terms : TermTable) (r : Rule) : Bool :=
  terms.isRepeat r.name && r.parts.length == 2 && r.parts.head? == some r.name

/-- Whether reducing by either rule does the same. -/
def sameReduce (terms : TermTable) (a b : Rule) : Bool :=
  a.name == b.name && a.parts.length == b.parts.length &&
    a.isRepeatWrap terms == b.isRepeatWrap terms

/-- A rule in text: its name, an arrow and its parts. -/
def shown (terms : TermTable) (r : Rule) : String :=
  terms.name r.name ++ " ->" ++ String.join (r.parts.map fun t => " " ++ terms.name t)

end Rule

end GrammarCompiler
