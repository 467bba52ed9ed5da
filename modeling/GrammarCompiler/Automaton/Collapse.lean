/-
GrammarCompiler.Automaton.Collapse — states that differ in lookahead only.

States with the same dotted rules are put into one cluster and become one
state, as long as that brings no two actions into conflict. States that do
not fit their cluster are moved to a later cluster, or to a new one, until
everything fits. Entry states stay apart.

  §1 Fitting   — whether two states can become one.
  §2 Clusters  — putting states together and moving them apart. A state only
                 ever moves to a later cluster, so the passes end.
  §3 Merging   — one state for each cluster.
-/
import GrammarCompiler.Automaton.State

namespace GrammarCompiler

/-! ## §1 Fitting -/

namespace Collapse

/-- Whether two actions for the same terminal do the same, when states are
known by their clusters. -/
def matching (g : Grammar) (mapping : Array Nat) : Action → Action → Bool
  | .shift _ target, .shift _ target' => mapping[target]? == mapping[target']?
  | .reduce _ rule, .reduce _ rule' => rule.sameReduce g.terms rule'
  | _, _ => false

/-- Whether the gotos of two states for the same symbol lead to the same
cluster. -/
def gotosFit (mapping : Array Nat) (a b : State) : Bool :=
  a.gotos.all fun x => b.gotos.all fun y =>
    x.term != y.term || mapping[x.target]? == mapping[y.target]?

/-- Whether an action of state `a` fits state `b`: `b` has no action for the
terminal, or the same action, or both states have the same several
actions. -/
def actionFits (g : Grammar) (mapping : Array Nat) (a b : State) (action : Action) : Bool :=
  let inB := b.actions.filter fun x => x.term == action.term
  inB.isEmpty || inB.any (fun x => matching g mapping x action) ||
    (inB.length != 1 &&
      let inA := a.actions.filter fun x => x.term == action.term
      inA.length == inB.length && inA.all fun x => inB.any fun y => matching g mapping x y)

/-- Whether state `a` fits state `b`. -/
def fits (g : Grammar) (mapping : Array Nat) (a b : State) : Bool :=
  gotosFit mapping a b && a.actions.all (actionFits g mapping a b)

/-- Whether two states can become one. -/
def compatible (g : Grammar) (states : Automaton) (mapping : Array Nat) (i j : Nat) : Bool :=
  match states[i]?, states[j]? with
  | some a, some b => fits g mapping a b && fits g mapping b a
  | _, _ => false

/-! ## §2 Clusters -/

/-- States that are to become one. `origin` is the cluster that they were
once split off from. -/
structure Cluster where
  origin : Nat
  members : List Nat
deriving Repr, Inhabited

/-- Clusters, and the cluster of each state. -/
structure Clustering where
  clusters : Array Cluster
  mapping : Array Nat
deriving Repr

/-- Whether a state has the same dotted rules as another, and reads tokens
and skips in the same way. -/
def sameCore (a b : State) : Bool :=
  a.start.isNone && b.start.isNone && a.group == b.group && a.skip == b.skip &&
    Item.sameCores a.items b.items

/-- Puts the next state into the first cluster that it has the core of. -/
def assign (states : Automaton) (c : Clustering) (s : State) : Clustering :=
  let found := c.clusters.findIdx? fun cluster =>
    match cluster.members.head?.bind fun m => states[m]? with
    | some first => sameCore s first
    | none => false
  let id := c.mapping.size
  match found with
  | some i =>
    { clusters := c.clusters.modify i fun k => { k with members := k.members ++ [id] }
      mapping := c.mapping.push i }
  | none =>
    { clusters := c.clusters.push ⟨c.clusters.size, [id]⟩
      mapping := c.mapping.push c.clusters.size }

/-- Moves a state to the first of the clusters from `i` on that it fits, of
those with the same origin, or to a new cluster. `count` clusters are left to
try. -/
def moveFrom (g : Grammar) (states : Automaton) (origin state : Nat) :
    (count i : Nat) → Clustering → Clustering
  | 0, _, c =>
    { clusters := c.clusters.push ⟨origin, [state]⟩
      mapping := c.mapping.setIfInBounds state c.clusters.size }
  | count + 1, i, c =>
    let mapping := c.mapping.setIfInBounds state i
    match c.clusters[i]? with
    | none => moveFrom g states origin state count (i + 1) c
    | some cluster =>
      if cluster.origin == origin &&
          cluster.members.all (compatible g states mapping state) then
        { clusters := c.clusters.modify i fun k => { k with members := k.members ++ [state] }
          mapping }
      else moveFrom g states origin state count (i + 1) c

/-- Moves a state out of cluster `i`. -/
def moveOut (g : Grammar) (states : Automaton) (i state : Nat) (c : Clustering) : Clustering :=
  let origin := (c.clusters[i]?.getD default).origin
  moveFrom g states origin state (c.clusters.size - (i + 1)) (i + 1) c

/-- Moves the states of `rest` that do not fit state `first` out of cluster
`i`. Returns those that stay. -/
def keepFitting (g : Grammar) (states : Automaton) (i first : Nat) :
    (rest : List Nat) → Clustering → List Nat × Clustering
  | [], c => ([], c)
  | state :: rest, c =>
    if compatible g states c.mapping first state then
      let (stay, c) := keepFitting g states i first rest c
      (state :: stay, c)
    else keepFitting g states i first rest (moveOut g states i state c)

/-- Moves states out of cluster `i` until those that stay fit each other. -/
def keepAll (g : Grammar) (states : Automaton) (i : Nat) :
    (fuel : Nat) → (members : List Nat) → Clustering → List Nat × Clustering
  | fuel + 1, first :: rest, c =>
    let (stay, c) := keepFitting g states i first rest c
    let (stay, c) := keepAll g states i fuel stay c
    (first :: stay, c)
  | _, members, c => (members, c)

/-- Sorts out a cluster. Also tells whether a state had to move. -/
def split (g : Grammar) (states : Automaton) (cb : Clustering × Bool) (i : Nat) :
    Clustering × Bool :=
  let (c, moved) := cb
  let members := (c.clusters[i]?.getD default).members
  let (stay, c) := keepAll g states i members.length members c
  ({ c with clusters := c.clusters.modify i fun k => { k with members := stay } },
    moved || stay.length != members.length)

/-- Passes over the clusters until no state moves. Also returns the number of
clusters after each pass. -/
def passes (g : Grammar) (states : Automaton) :
    (fuel : Nat) → Clustering → Clustering × List Nat
  | 0, c => (c, [])
  | fuel + 1, c =>
    let (c, moved) := (List.range c.clusters.size).foldl (split g states) (c, false)
    if moved then
      let (last, counts) := passes g states fuel c
      (last, c.clusters.size :: counts)
    else (c, [c.clusters.size])

/-! ## §3 Merging -/

/-- Adds the actions and gotos of a state to those of `into`, as far as they
are new. -/
def absorb (g : Grammar) (mapping : Nat → Nat) (into s : State) : State :=
  let addAction (actions : Array Action) (a : Action) :=
    if actions.any fun b => b.same g a then actions else actions.push a
  let addGoto (gotos : List Goto) (a : Goto) :=
    if gotos.contains a then gotos else gotos ++ [a]
  { into with
    items := into.items ++ Item.notIn into.items s.items
    actions :=
      ((s.actions.map (Action.map mapping)).foldl addAction into.actions.toArray).toList
    gotos := (s.gotos.map (Goto.map mapping)).foldl addGoto into.gotos }

/-- The state that several states become. -/
def mergeStates (g : Grammar) (mapping : Nat → Nat) (members : List State) : State :=
  let first := members.headD default
  let blank : State := { first with items := [], actions := [], gotos := [] }
  let merged := members.foldl (absorb g mapping) blank
  { merged with items := Item.sort merged.items }.finish g

end Collapse

/-- The automaton with states put together that differ in lookahead only.
Also returns the number of clusters after each pass. -/
def collapse (g : Grammar) (states : Automaton) : Automaton × List Nat :=
  let start := states.foldl (Collapse.assign states) ⟨#[], #[]⟩
  let (c, counts) :=
    Collapse.passes g states (states.size * states.size + 1) start
  let mapping (i : Nat) := c.mapping[i]?.getD i
  (c.clusters.map fun cluster =>
    Collapse.mergeStates g mapping (cluster.members.filterMap fun m => states[m]?), counts)

end GrammarCompiler
