/-
GrammarCompiler.Automaton.Forced — reductions for when nothing else works.

To recover from an error, a parser may have to reduce in a state where no
action fits, as if the rest of a rule had been read. Each state gets a
reduction for this, of one of its items, if there is one that cannot run in
circles: reductions that take a single part off the stack could lead back to
where they started.

  §1 Circles    — following reductions of a single part.
  §2 Candidates — the items that come into question.
  §3 Choices    — states with fewer candidates choose first.
-/
import GrammarCompiler.Automaton.State
import GrammarCompiler.Fault

namespace GrammarCompiler

/-- A reduction by a rule of which only the first `depth` parts have been
read. -/
structure Forced where
  rule : Rule
  depth : Nat
deriving Repr

namespace Forced

/-! ## §1 Circles -/

/-- A target that a symbol leads to, and the states it leads there from. -/
structure Edge where
  term : Term
  target : Nat
  parents : List Nat
deriving Repr

/-- Adds a goto of a state to the edges. -/
def addGoto (parent : Nat) (edges : List Edge) (a : Goto) : List Edge :=
  if edges.any fun e => e.term == a.term && e.target == a.target then
    edges.map fun e =>
      if e.term == a.term && e.target == a.target then
        { e with parents := e.parents ++ [parent] }
      else e
  else edges ++ [⟨a.term, a.target, [parent]⟩]

/-- The edges of an automaton. -/
def edges (states : Automaton) : List Edge :=
  states.toList.zipIdx.foldl (fun edges (s, id) => s.gotos.foldl (addGoto id) edges) []

/-- What has been chosen so far, and for each state with a reduction of a
single part the symbol it makes. -/
structure Chosen where
  reductions : Array (Option Forced)
  single : Array (Option Term)

/-- Whether making `term`, on top of one of `parents` if given, can lead back
to `start` through reductions of a single part. No answer if the way gets
longer than any without a circle of its own. -/
def leadsBack (edges : List Edge) (single : Array (Option Term)) (start : Nat) :
    (fuel : Nat) → (term : Term) → (parents : Option (List Nat)) → Option Bool
  | 0, _, _ => none
  | fuel + 1, term, parents =>
    (edges.filter fun e => e.term == term).anyM fun e =>
      let shared := match parents with
        | some parents => parents.filter e.parents.contains
        | none => e.parents
      if shared.isEmpty then some false
      else if e.target == start then some true
      else
        match (single[e.target]?).join with
        | some next => leadsBack edges single start fuel next (some shared)
        | none => some false

/-! ## §2 Candidates -/

/-- Compares candidates: the most read first, then the shortest rule, then
the order of creation. -/
def compareCandidates (a b : Item) : Ordering :=
  (compare b.dot a.dot).then
    ((compare a.rule.parts.length b.rule.parts.length).then (compare a.rule.id b.rule.id))

/-- The items of a state that have read something, top rules aside. -/
def candidates (g : Grammar) (s : State) : List Item :=
  (s.items.filter fun i => 0 < i.dot && !g.terms.isTop i.rule.name).mergeSort
    fun a b => compareCandidates a b != .gt

/-! ## §3 Choices -/

/-- Chooses a reduction for a state. -/
def choose (c : Chosen) (state : Nat) (f : Forced) : Chosen where
  reductions := c.reductions.setIfInBounds state (some f)
  single :=
    if f.depth = 1 then c.single.setIfInBounds state (some f.rule.name) else c.single

/-- A default reduction that takes anything off the stack is also the one to
force. -/
def chooseDefault (c : Chosen) (entry : State × Nat) : Chosen :=
  match entry.1.defaultReduce with
  | some rule =>
    if rule.parts.isEmpty then c else choose c entry.2 ⟨rule, rule.parts.length⟩
  | none => c

/-- Chooses the first candidate that does not lead back to the state. -/
def chooseFirst (edges : List Edge) (c : Chosen) (state : Nat) :
    List Item → Except BuildError Chosen
  | [] => .ok c
  | i :: rest =>
    if i.dot != 1 then .ok (choose c state ⟨i.rule, i.dot⟩)
    else
      let bound := (c.single.size + 1) * (c.single.size + 1)
      match leadsBack edges c.single state bound i.rule.name none with
      | some false => .ok (choose c state ⟨i.rule, i.dot⟩)
      | some true => chooseFirst edges c state rest
      | none => .error (.grammar .unfinished none)

/-- Chooses for the states with `size` candidates and no default
reduction. -/
def chooseForSize (edges : List Edge) (waiting : List (Nat × List Item)) (c : Chosen)
    (size : Nat) : Except BuildError Chosen :=
  (waiting.filter fun w => w.2.length == size).foldlM
    (fun c w => chooseFirst edges c w.1 w.2) c

end Forced

/-- The reduction to force in each state, if there is one. -/
def forcedReductions (g : Grammar) (states : Automaton) :
    Except BuildError (Array (Option Forced)) := do
  let numbered := states.toList.zipIdx
  let blank : Forced.Chosen :=
    ⟨Array.replicate states.size none, Array.replicate states.size none⟩
  let start := numbered.foldl Forced.chooseDefault blank
  let waiting := (numbered.filter fun (s, _) => s.defaultReduce.isNone).map fun (s, id) =>
    (id, Forced.candidates g s)
  let largest := (waiting.map fun w => w.2.length).foldl max 0
  let sizes := (List.range largest).map (· + 1)
  let c ← sizes.foldlM (Forced.chooseForSize (Forced.edges states) waiting) start
  return c.reductions

end GrammarCompiler
