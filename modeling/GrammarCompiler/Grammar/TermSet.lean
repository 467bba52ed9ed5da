/-
GrammarCompiler.Grammar.TermSet — sets of symbols.

A set is a number whose bits tell which symbols it holds, so that two sets
are equal exactly when they hold the same symbols.
-/
import GrammarCompiler.Grammar.Term

namespace GrammarCompiler

/-- A set of symbols, one bit for each. -/
structure TermSet where
  bits : Nat
deriving DecidableEq, Repr, Inhabited

namespace TermSet

/-- The empty set. -/
def empty : TermSet := ⟨0⟩

/-- Whether a set holds no symbol. -/
def isEmpty (s : TermSet) : Bool :=
  s.bits == 0

/-- Whether a set holds a symbol. -/
def contains (s : TermSet) (t : Term) : Bool :=
  s.bits.testBit t.index

/-- A set with one more symbol. -/
def insert (s : TermSet) (t : Term) : TermSet :=
  ⟨s.bits ||| 1 <<< t.index⟩

/-- The symbols of either set. -/
def union (s t : TermSet) : TermSet :=
  ⟨s.bits ||| t.bits⟩

/-- A set with one more symbol, and whether that was new. -/
def add (s : TermSet) (t : Term) : TermSet × Bool :=
  (s.insert t, !s.contains t)

/-- The symbols of either set, and whether any of the second was new. -/
def addAll (s t : TermSet) : TermSet × Bool :=
  (s.union t, s.union t != s)

/-- The set of the symbols in a list. -/
def ofList (terms : List Term) : TermSet :=
  terms.foldl insert empty

/-- The symbols of a set in the order of creation. -/
def toList (s : TermSet) : List Term :=
  ((List.range (s.bits.log2 + 1)).filter s.bits.testBit).map Term.mk

theorem contains_empty (t : Term) : empty.contains t = false := by
  simp [contains, empty]

theorem contains_insert (s : TermSet) (t u : Term) :
    (s.insert t).contains u = (s.contains u || decide (t = u)) := by
  obtain ⟨t⟩ := t
  obtain ⟨u⟩ := u
  simp [contains, insert, Nat.testBit_or, Nat.one_shiftLeft, Nat.testBit_two_pow]

theorem contains_union (s t : TermSet) (u : Term) :
    (s.union t).contains u = (s.contains u || t.contains u) := by
  simp [contains, union, Nat.testBit_or]

end TermSet

end GrammarCompiler
