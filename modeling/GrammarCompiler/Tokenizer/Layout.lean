/-
GrammarCompiler.Tokenizer.Layout — the tokenizer as a list of numbers.

Each state is a record:

  the groups in which any token can still be read, the place where its tokens
  end, the number of its edges;
  for each token that ends there its number and its groups;
  for each edge the first code unit, the one after the last, and the place of
  the record it leads to.

Groups are bits of a mask; a token without groups belongs to all of them. The
limit above the last code unit does not fit and is written as zero. All other
numbers fit into 16 bits, if the list is not too long: its length is checked, and
symbols, groups and code units are small.
-/
import GrammarCompiler.Tokenizer.Dfa

namespace GrammarCompiler

namespace Layout

/-- All groups. -/
def allGroups : Nat := 0xffff

/-- The mask of a token by its number. -/
def maskOf (masks : Nat → Nat) (id : Nat) : Nat :=
  if masks id = 0 then allGroups else masks id

/-- The tokens of a state by their place in the list of precedences, then by
number. -/
def ordered (ids : Term → Nat) (precedence : List Nat) (tokens : List Term) : List Nat :=
  (tokens.map ids).mergeSort fun a b =>
    let i := precedence.idxOf a
    let j := precedence.idxOf b
    i < j || (i == j && a ≤ b)

/-- The length of the record of a state. -/
def recordSize (s : DfaState) : Nat :=
  3 + s.accepting.length * 2 + s.edges.length * 3

/-- The groups in which a token can be read from a state on. -/
def stateMask (a : Dfa) (ids : Term → Nat) (masks : Nat → Nat) (i : Nat) : Nat :=
  (a.reachable i).foldl (fun mask s =>
    (a.state s.node).accepting.foldl (fun mask t => mask ||| maskOf masks (ids t)) mask) 0

/-- The record of a state that starts at `start`. -/
def record (a : Dfa) (ids : Term → Nat) (masks : Nat → Nat) (precedence : List Nat)
    (place : Nat → Nat) (start i : Nat) : List Nat :=
  let s := a.state i
  let tokens := (ordered ids precedence s.accepting).flatMap fun id => [id, maskOf masks id]
  let edges := s.edges.flatMap fun e =>
    [e.lo, if 0xffff < e.hi then 0 else e.hi, place e.target]
  [stateMask a ids masks i, start + 3 + s.accepting.length * 2, s.edges.length] ++
    tokens ++ edges

/-- States with the places of their records, which follow one another. -/
def places (a : Dfa) : (start : Nat) → List Nat → List (Nat × Nat)
  | _, [] => []
  | start, i :: rest => (i, start) :: places a (start + recordSize (a.state i)) rest

end Layout

/-- The automaton as a list of numbers, from the start state on. -/
def Dfa.toWords (a : Dfa) (ids : Term → Nat) (masks : Nat → Nat) (precedence : List Nat) :
    Except BuildError (List Nat) :=
  let order := Layout.places a 0 ((a.reachable 0).map Walk.Stop.node)
  let offsets := order.foldl (fun (offsets : Array Nat) (i, start) =>
    offsets.setIfInBounds i start) (Array.replicate a.size 0)
  let place (i : Nat) := offsets[i]?.getD 0
  let words := order.flatMap fun (i, start) =>
    Layout.record a ids masks precedence place start i
  if 0xffff < words.length then .error (.capacity .tokenizer) else .ok words

end GrammarCompiler
