/-
GrammarCompiler.Automaton.Identical — states that do the same.

States with the same default reduction, or with the same actions and gotos,
become one. That can make other states the same, so it is repeated until
nothing changes; every other round takes at least one state away.
-/
import GrammarCompiler.Automaton.State

namespace GrammarCompiler

namespace Identical

/-- The states kept in a round, and the place of each state among them. -/
structure Kept where
  states : Array State
  mapping : Array Nat

/-- Adds the items of a state to another that does the same. -/
def addItems (into s : State) : State :=
  match Item.notIn into.items s.items with
  | [] => into
  | new => { into with items := Item.sort (new ++ into.items) }

/-- Keeps a state, unless one that does the same is kept already. -/
def keep (g : Grammar) (k : Kept) (s : State) : Kept :=
  match k.states.findIdx? (s.sameAs g) with
  | some i =>
    { states := k.states.modify i fun other => addItems other s
      mapping := k.mapping.push i }
  | none =>
    { states := k.states.push s
      mapping := k.mapping.push k.states.size }

/-- A state whose targets have moved. -/
def moveTargets (g : Grammar) (mapping : Nat → Nat) (s : State) : State :=
  { s with
    actions := s.actions.map (Action.map mapping)
    gotos := s.gotos.map (Goto.map mapping) }.finish g

/-- Rounds until all states are kept. -/
def rounds (g : Grammar) : (fuel : Nat) → Automaton → Automaton
  | 0, states => states
  | fuel + 1, states =>
    let k := states.foldl (keep g) ⟨#[], #[]⟩
    if k.states.size = states.size then states
    else
      let mapping (i : Nat) := k.mapping[i]?.getD i
      rounds g fuel (k.states.map (moveTargets g mapping))

end Identical

/-- The automaton with states put together that do the same. -/
def mergeIdentical (g : Grammar) (states : Automaton) : Automaton :=
  Identical.rounds g (states.size + 1) states

end GrammarCompiler
