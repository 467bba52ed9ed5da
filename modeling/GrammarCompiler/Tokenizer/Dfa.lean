/-
GrammarCompiler.Tokenizer.Dfa — automata that read tokens, without choices.

A state of this automaton is a set of states of one with choices: those that
a word can lead to.

  §1 Automata  — states and runs.
  §2 Splitting — overlapping edges as disjoint ones.
  §3 Subsets   — all sets of states that can be reached. There are finitely
                 many, so the search ends.
-/
import GrammarCompiler.Fault
import GrammarCompiler.Tokenizer.Nfa

namespace GrammarCompiler

/-! ## §1 Automata -/

/-- A state: the tokens that end there, and edges that do not overlap. -/
structure DfaState where
  accepting : List Term
  edges : List UnitEdge
deriving DecidableEq, Repr, Inhabited

/-- An automaton without choices. It starts in its first state. -/
structure Dfa where
  states : Array DfaState
deriving DecidableEq, Repr, Inhabited

namespace Dfa

/-- The number of states. -/
def size (a : Dfa) : Nat :=
  a.states.size

/-- A state. -/
def state (a : Dfa) (i : Nat) : DfaState :=
  a.states[i]?.getD ⟨[], []⟩

/-- Where a code unit leads from a state. -/
def step? (a : Dfa) (i unit : Nat) : Option Nat :=
  ((a.state i).edges.find? fun e => e.lo ≤ unit && unit < e.hi).map UnitEdge.target

/-- Where a word leads from a state. -/
def run? (a : Dfa) : (i : Nat) → (word : List Nat) → Option Nat
  | i, [] => some i
  | i, unit :: word => (a.step? i unit).bind fun next => a.run? next word

/-- The number of edges. -/
def edgeCount (a : Dfa) : Nat :=
  a.states.foldl (fun count s => count + s.edges.length) 0

/-- The states that can be reached from a state, with words that lead there:
the lowest code unit of each edge on the way. -/
def reachable (a : Dfa) (start : Nat) : List Walk.Stop :=
  walk a.size a.edgeCount (fun i => (a.state i).edges.map fun e => (e.lo, e.target)) start

end Dfa

namespace Subset

/-! ## §2 Splitting -/

/-- The union of two lists in ascending order. -/
def union : List Nat → List Nat → List Nat
  | [], bs => bs
  | as, [] => as
  | a :: as, b :: bs =>
    if a < b then a :: union as (b :: bs)
    else if b < a then b :: union (a :: as) bs
    else a :: union as bs
termination_by as bs => as.length + bs.length

/-- The places where edges begin and end, in ascending order. -/
def borders (edges : List UnitEdge) : List Nat :=
  edges.foldl (fun found e => union found (union [e.lo] [e.hi])) []

/-- A range of code units and the states that it leads to. -/
structure Span where
  lo : Nat
  hi : Nat
  targets : List Nat
deriving DecidableEq, Repr

/-- The states that edges lead to on all code units of a range between two
borders. -/
def targets (closure : Nat → List Nat) (edges : List UnitEdge) (lo hi : Nat) : List Nat :=
  edges.foldl (fun found e =>
    if lo < e.hi && e.lo < hi then union found (closure e.target) else found) []

/-- Puts a range in front of others, joining it with the next one if they
touch and lead to the same states. -/
def cons (span : Span) : List Span → List Span
  | [] => [span]
  | next :: rest =>
    if span.hi = next.lo && span.targets = next.targets then
      ⟨span.lo, next.hi, next.targets⟩ :: rest
    else span :: next :: rest

/-- The ranges between consecutive borders, without those that lead
nowhere. -/
def spansBetween (closure : Nat → List Nat) (edges : List UnitEdge) : List Nat → List Span
  | lo :: hi :: rest =>
    let found := targets closure edges lo hi
    let later := spansBetween closure edges (hi :: rest)
    if found.isEmpty then later else cons ⟨lo, hi, found⟩ later
  | _ => []

/-- Disjoint ranges in place of edges. -/
def spans (closure : Nat → List Nat) (edges : List UnitEdge) : List Span :=
  spansBetween closure edges (borders edges)

/-! ## §3 Subsets -/

/-- The sets found so far, and the edges of those that were looked at. A set
is known by its place. -/
structure Found where
  sets : Array (List Nat)
  edges : Array (List UnitEdge)
deriving Repr

/-- Where a range leads. A set that is new is added, also to the ones that
are to be looked at. -/
def follow (fp : Found × List Nat × List UnitEdge) (span : Span) :
    Found × List Nat × List UnitEdge :=
  let (found, pending, edges) := fp
  match found.sets.findIdx? (· == span.targets) with
  | some i => (found, pending, edges ++ [⟨span.lo, span.hi, i⟩])
  | none =>
    let i := found.sets.size
    (⟨found.sets.push span.targets, found.edges.push []⟩, i :: pending,
      edges ++ [⟨span.lo, span.hi, i⟩])

/-- Looks at the pending sets, the last added first, until there are none. -/
def explore (a : Nfa) (closure : Nat → List Nat) :
    (fuel : Nat) → (pending : List Nat) → Found → Option Found
  | _, [], found => some found
  | 0, _ :: _, _ => none
  | fuel + 1, i :: pending, found =>
    let set := found.sets[i]?.getD []
    let out := set.flatMap fun s => (a.state s).edges
    let (found, pending, edges) := (spans closure out).foldl follow (found, pending, [])
    explore a closure fuel pending { found with edges := found.edges.setIfInBounds i edges }

/-- The tokens that end in a set of states, in order. -/
def accepting (a : Nfa) (set : List Nat) : List Term :=
  let tokens := set.foldl (fun found s => (a.state s).accepting.foldl Term.addNew found) []
  tokens.mergeSort Term.le

end Subset

/-- The automaton without choices that reads the same tokens. A token must not
be empty. -/
def Nfa.compile (a : Nfa) (start : Nat) (terms : TermTable) : Except BuildError Dfa := do
  let closures := (Array.range a.size).map a.closure
  let closure (i : Nat) := closures[i]?.getD []
  match Subset.explore a closure (1 <<< a.size + 1) [0] ⟨#[closure start], #[[]]⟩ with
  | none => throw (.grammar .unfinished none)
  | some found =>
    let dfa : Dfa := ⟨found.sets.zipWith (fun set edges => ⟨Subset.accepting a set, edges⟩)
      found.edges⟩
    match (dfa.state 0).accepting with
    | [] => return dfa
    | token :: _ => throw (.grammar (.emptyToken (terms.name token)) none)

end GrammarCompiler
