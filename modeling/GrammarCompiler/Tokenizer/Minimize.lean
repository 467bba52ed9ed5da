/-
GrammarCompiler.Tokenizer.Minimize — as few states as possible.

States are put into classes, at first by the tokens that end in them, and
classes are split until the edges of all states in a class lead to the same
classes. There are at most as many classes as states, so this comes to an
end. One state of each class remains.
-/
import GrammarCompiler.Tokenizer.Dfa

namespace GrammarCompiler

namespace Minimize

/-! ## §1 Classes -/

/-- The class of each state, and the number of classes. -/
structure Classes where
  ofState : Array Nat := #[]
  count : Nat := 0
deriving DecidableEq, Repr

/-- The class that an edge leads to. -/
def Classes.target (c : Classes) (e : UnitEdge) : Nat :=
  c.ofState[e.target]?.getD 0

/-- Classes under way: the states so far, and for each of the classes that are
split the keys that occurred in it, with the classes they make. -/
structure Splitting (κ : Type) extends Classes where
  known : Array (List (κ × Nat))

/-- Puts the next state, one of class `old`, into the class that its key makes
there. A key that did not occur in `old` makes a new class. -/
def Splitting.add [BEq κ] (s : Splitting κ) (old : Nat) (key : κ) : Splitting κ :=
  match (s.known[old]?.getD []).lookup key with
  | some i => { s with ofState := s.ofState.push i }
  | none => {
      ofState := s.ofState.push s.count
      count := s.count + 1
      known := s.known.modify old fun keys => (key, s.count) :: keys }

/-- Splits classes by keys, one for each state. New classes are numbered in
the order of their first states. -/
def Classes.split [BEq κ] (c : Classes) (keys : Array κ) : Classes :=
  let start : Splitting κ := { known := Array.replicate c.count [] }
  ((c.ofState.zip keys).foldl (fun s (old, key) => s.add old key) start).toClasses

/-- Splits classes by where the edges of their states lead. -/
def refine (a : Dfa) (c : Classes) : Classes :=
  c.split (a.states.map fun s => s.edges.map fun e => (e.lo, e.hi, c.target e))

/-- Splits classes until their number stays the same. -/
def rounds (a : Dfa) : (fuel : Nat) → Classes → Classes
  | 0, c => c
  | fuel + 1, c =>
    let next := refine a c
    if next.count = c.count then next else rounds a fuel next

/-- The class of each state. All states start in one class, which is split by
the tokens that end in them. -/
def classes (a : Dfa) : Array Nat :=
  let single : Classes := ⟨Array.replicate a.size 0, 1⟩
  (rounds a (a.size + 1) (single.split (a.states.map DfaState.accepting))).ofState

/-! ## §2 Remaining states -/

/-- The first state of the class of a state. -/
def representative (classes : Array Nat) (i : Nat) : Nat :=
  (classes.findIdx? (· == classes[i]?.getD 0)).getD i

/-- Puts an edge in front of others, joining it with the next one if they
touch and lead to the same state. -/
def consEdge (e : UnitEdge) : List UnitEdge → List UnitEdge
  | [] => [e]
  | next :: rest =>
    if e.hi = next.lo && e.target = next.target then ⟨e.lo, next.hi, e.target⟩ :: rest
    else e :: next :: rest

/-- A state whose edges lead to other states. -/
def moveTargets (place : Nat → Nat) (s : DfaState) : DfaState where
  accepting := s.accepting
  edges := (s.edges.map fun e => { e with target := place e.target }).foldr consEdge []

end Minimize

/-- The smallest automaton that reads the same tokens. Its states are those
that can be reached, in the order in which a walk gets to them. -/
def Dfa.minimize (a : Dfa) : Dfa :=
  let classes := Minimize.classes a
  let representatives := (Array.range a.size).map (Minimize.representative classes)
  let representative (i : Nat) := representatives[i]?.getD i
  let next (i : Nat) := (a.state i).edges.map fun e => (e.lo, representative e.target)
  let order := (walk a.size a.edgeCount next (representative 0)).map Walk.Stop.node
  let place (i : Nat) := order.idxOf (representative i)
  ⟨(order.map fun i => Minimize.moveTargets place (a.state i)).toArray⟩

end GrammarCompiler
