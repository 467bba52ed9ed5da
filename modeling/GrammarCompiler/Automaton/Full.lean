/-
GrammarCompiler.Automaton.Full — the automaton with one terminal of
lookahead.

States are found by reading on from the entry states. A state is known by its
kernel, the items that were read on; equal kernels are one state, and no state
leads back to an entry state. Since there are only finitely many kernels, the
search ends (`kernelBits`).

  §1 Seeds     — states that are found but not yet read on from.
  §2 Reading   — the actions and gotos of a state.
  §3 Automata  — the search, and the states in their final form.
-/
import GrammarCompiler.Automaton.Closure
import GrammarCompiler.Automaton.Conflict

namespace GrammarCompiler

/-! ## §1 Seeds -/

/-- A state before its actions are known: what was read on to reach it, all
its items, what may be skipped in it, and the symbol it is an entry for. -/
structure Seed where
  kernel : List Item
  items : List Item
  skip : Term
  start : Option Term
deriving Repr, Inhabited

/-- The states found so far, and the conflicts in those that were read on
from. States that are no entries are listed in slots, so that few have to be
compared with a kernel to find its state. -/
structure Search where
  seeds : Array Seed
  slots : Array (List Nat)
  clashes : List Clash

namespace Search

/-- The search that has found nothing yet. -/
def start (g : Grammar) : Search :=
  ⟨#[], Array.replicate (g.rules.length + 1) [], []⟩

/-- The slot that the state of a kernel is listed in. -/
def slotOf (s : Search) (kernel : List Item) : Nat :=
  kernel.foldl (fun n i => n + (i.rule.id + i.dot + i.ahead.bits)) 0 % s.slots.size

/-- The state of a kernel, if it is known. -/
def find? (s : Search) (kernel : List Item) : Option Nat :=
  (s.slots[s.slotOf kernel]?.getD []).find? fun state =>
    s.seeds[state]?.any fun seed => Item.sameAll seed.kernel kernel

/-- Adds a state. Entry states are not listed. -/
def push (s : Search) (seed : Seed) : Search :=
  { s with
    seeds := s.seeds.push seed
    slots :=
      if seed.start.isSome then s.slots
      else s.slots.modify (s.slotOf seed.kernel) fun states => s.seeds.size :: states }

/-- What may be skipped at all items of a kernel alike. -/
def commonSkip (g : Grammar) (none : Term) : List Item → Except BuildError Term
  | [] => .ok none
  | first :: rest =>
    match rest.find? fun i => i.skip != first.skip with
    | some odd => .error (.grammar (.inconsistentSkip (odd.trail g 60)) Option.none)
    | Option.none => .ok first.skip

/-- The state of a kernel, which becomes a new state unless it is known.
Entry states are always new.

No other look-up can find a state. All items that a closure adds begin their
rules, and those of a kernel that was read on do not, so closed sets of items are
equal only if their kernels are. What may be skipped in a known state is what may
be skipped here, since it is read off the items of the same kernel. -/
def stateOf (g : Grammar) (table : FirstTable) (kernel : List Item) (start : Option Term)
    (s : Search) : Except BuildError (Nat × Search) := do
  let kernel := Item.sort kernel
  let skip ← commonSkip g .eof kernel
  match if start.isSome then none else s.find? kernel with
  | some known => return (known, s)
  | none =>
    let items ← closure g table kernel
    return (s.seeds.size, s.push ⟨kernel, items, skip, start⟩)

/-- Adds the entry state of a symbol. A symbol without rules has none. -/
def addEntry (g : Grammar) (table : FirstTable) (noSkip : Term) (s : Search) (start : Term) :
    Except BuildError Search := do
  let rules := g.rulesFor start
  let skip := (rules.head?.map Rule.skip).getD noSkip
  let kernel := rules.map fun r =>
    ({ rule := r, dot := 0, ahead := TermSet.empty.insert .eof, ambigAhead := [],
       skipAhead := skip } : Item)
  if kernel.isEmpty then return s
  let (_, s) ← stateOf g table kernel (some start) s
  return s

/-! ## §2 Reading -/

/-- The items of a state by the symbol they read next, in the order in which
the symbols first occur. -/
def byNext (items : List Item) : List (Term × List Item) :=
  let symbols := (items.filterMap fun i => i.next?).foldl Term.addNew []
  symbols.map fun t => (t, items.filter fun i => i.next? == some t)

/-- The level at which an item that was just read on cuts others off. -/
def cutLevel (i : Item) : Nat :=
  (i.rule.marksAt (i.dot - 1)).cut

/-- The items on the highest level of cutting, or all if none cuts. -/
def applyCut (items : List Item) : List Item :=
  let level := (items.map cutLevel).foldl max 0
  if level = 0 then items else items.filter fun i => cutLevel i == level

/-- The actions and gotos of a state under way. `replaced` tells that a
reduction did not simply come in addition. -/
structure Reading where
  causes : Array Cause
  gotos : List Goto
  replaced : Bool

/-- Adds an action to a state and logs the conflict if there is one. The first
action for a terminal meets no other. -/
def addAction (g : Grammar) (context : List Item) (new : Cause) (causes : Array Cause)
    (s : Search) : Array Cause × Search :=
  if causes.any fun old => old.action.term == new.action.term then
    match Cause.add g context new causes.toList with
    | .clash causes old =>
      (causes.toArray, { s with clashes := Clash.log g s.clashes old new })
    | outcome => (outcome.causes.toArray, s)
  else (causes.push new, s)

/-- Reads a symbol in a state. -/
def readSymbol (g : Grammar) (table : FirstTable) (context : List Item)
    (rs : Reading × Search) (next : Term × List Item) : Except BuildError (Reading × Search) := do
  let (reading, s) := rs
  let (symbol, items) := next
  let advanced := items.map Item.advance
  if g.isTerminal symbol then
    let (target, s) ← stateOf g table (applyCut advanced) none s
    let (causes, s) := addAction g context ⟨.shift symbol target, items⟩ reading.causes s
    return ({ reading with causes }, s)
  else
    let (target, s) ← stateOf g table advanced none s
    return ({ reading with gotos := reading.gotos ++ [⟨symbol, target⟩] }, s)

/-- The reductions of a state, each with its item. Top rules are not
reduced. -/
def reductions (g : Grammar) (items : List Item) : List Cause :=
  (items.filter fun i => i.atEnd && !g.terms.isTop i.rule.name).flatMap fun i =>
    i.ahead.toList.map fun t => ⟨.reduce t i.rule, [i]⟩

/-- Adds a reduction to a state. -/
def addReduction (g : Grammar) (context : List Item) (rs : Reading × Search) (new : Cause) :
    Reading × Search :=
  let (⟨causes, gotos, replaced⟩, s) := rs
  let count := causes.size
  let (causes, s) := addAction g context new causes s
  (⟨causes, gotos, replaced || causes.size == count⟩, s)

/-- When reductions took the place of actions, only those gotos stay whose
symbols can begin with a terminal that is still read. -/
def dropGotos (table : FirstTable) (reading : Reading) : List Goto :=
  if reading.replaced then
    reading.gotos.filter fun goto => reading.causes.any fun c =>
      match c.action with
      | .shift t _ => (table.first goto.term).terminals.contains t
      | .reduce _ _ => false
  else reading.gotos

/-- The actions and gotos of a state. -/
def readState (g : Grammar) (table : FirstTable) (seed : Seed) (s : Search) :
    Except BuildError (State × Search) := do
  let start : Reading × Search := (⟨#[], [], false⟩, s)
  let read ← (byNext seed.items).foldlM (readSymbol g table seed.items) start
  let (reading, s) := (reductions g seed.items).foldl (addReduction g seed.items) read
  return ({
    items := seed.items
    actions := reading.causes.toList.map Cause.action
    gotos := dropGotos table reading
    skip := seed.skip
    start := seed.start }, s)

/-! ## §3 Automata -/

/-- How many bits it takes to tell kernels apart: of each dotted rule there is
at most one item, and that is one for each choice of the terminals and
ambiguities ahead and of what is skipped. -/
def kernelBits (g : Grammar) : Nat :=
  let dots := g.rules.foldl (fun n r => n + (r.parts.length + 1)) 0
  let names := (g.rules.flatMap fun r => r.marks.flatMap Marks.ambiguities).length
  dots * (2 * g.terms.size + names + 1)

/-- Reads on from at most `count` of the states found so far, in the order in
which they were found. `states` are those that were read on from before. -/
def readOn (g : Grammar) (table : FirstTable) :
    (count : Nat) → Array State → Search → Except BuildError (Array State × Search)
  | 0, states, s => .ok (states, s)
  | count + 1, states, s =>
    match s.seeds[states.size]? with
    | none => .ok (states, s)
    | some seed => do
      let (state, s) ← readState g table seed s
      readOn g table count (states.push state) s

/-- Reads on from all states, in rounds. Each round may go twice as far as the
one before it, so that a bound on the number of rounds can be small. -/
def run (g : Grammar) (table : FirstTable) :
    (rounds count : Nat) → Array State → Search → Except BuildError (Array State × List Clash)
  | 0, _, _, _ => .error (.grammar .unfinished none)
  | rounds + 1, count, states, s => do
    let (states, s) ← readOn g table count states s
    if states.size = s.seeds.size then return (states, s.clashes)
    else run g table rounds (2 * count) states s

end Search

/-- The automaton for a grammar, with an entry state for each of the start
symbols. Fails if there are conflicts. -/
def fullAutomaton (g : Grammar) (table : FirstTable) (starts : List Term) (noSkip : Term) :
    Except BuildError Automaton := do
  let s ← starts.foldlM (Search.addEntry g table noSkip) (Search.start g)
  let rounds := starts.length + Search.kernelBits g + 1
  let (states, clashes) ← Search.run g table rounds 1 #[] s
  if clashes.isEmpty then return states.map (State.finish g)
  else throw (.conflicts (clashes.map Clash.description))

end GrammarCompiler
