/-
GrammarCompiler.Automaton.Run — reading terminals with an automaton.

  §1 Configurations — the states that were entered and what is still to be
                      read.
  §2 Steps          — by the listed actions, or by default reductions without
                      looking ahead.
  §3 Runs           — what steps in a row can read, and where they may end.
-/
import Mathlib.Logic.Relation
import GrammarCompiler.Automaton.State

namespace GrammarCompiler

/-! ## §1 Configurations -/

/-- The states that were entered, the last one first, and the terminals that
are still to be read. -/
structure Config where
  stack : List Nat
  rest : List Term
deriving DecidableEq, Repr

/-- The terminal that comes next, or the end of the input. -/
def Config.ahead (c : Config) : Term :=
  c.rest.headD .eof

namespace Automaton

/-- A state. A state that does not exist does nothing. -/
def state (a : Automaton) (i : Nat) : State :=
  a[i]?.getD default

/-! ## §2 Steps -/

/-- `a.Reduces r stack next`: reducing by `r` leads from one stack to the
next. One state is taken off for each part of the rule, and the state that
comes to light tells where the name of the rule leads. -/
inductive Reduces (a : Automaton) (r : Rule) (stack : List Nat) : List Nat → Prop where
  | intro {p q : Nat} {below : List Nat} (uncovers : stack.drop r.parts.length = p :: below)
      (leads : ⟨r.name, q⟩ ∈ (a.state p).gotos) : Reduces a r stack (q :: p :: below)

/-- A step by an action that is listed for the terminal that comes next. -/
inductive Step (a : Automaton) : Config → Config → Prop where
  | shift {s q : Nat} {t : Term} {stack : List Nat} {rest : List Term}
      (listed : .shift t q ∈ (a.state s).actions) :
      Step a ⟨s :: stack, t :: rest⟩ ⟨q :: s :: stack, rest⟩
  | reduce {s : Nat} {r : Rule} {stack next : List Nat} {rest : List Term}
      (listed : .reduce (rest.headD .eof) r ∈ (a.state s).actions)
      (reduces : a.Reduces r (s :: stack) next) :
      Step a ⟨s :: stack, rest⟩ ⟨next, rest⟩

/-- A step that takes the default reduction of a state without looking at what
comes next. Only states without one look at their actions. -/
inductive EagerStep (a : Automaton) : Config → Config → Prop where
  | listed {s : Nat} {stack : List Nat} {rest : List Term} {next : Config}
      (looks : (a.state s).defaultReduce = none) (step : a.Step ⟨s :: stack, rest⟩ next) :
      EagerStep a ⟨s :: stack, rest⟩ next
  | byDefault {s : Nat} {r : Rule} {stack next : List Nat} {rest : List Term}
      (known : (a.state s).defaultReduce = some r)
      (reduces : a.Reduces r (s :: stack) next) :
      EagerStep a ⟨s :: stack, rest⟩ ⟨next, rest⟩

/-! ## §3 Runs -/

/-- A run from state `start` can read all of `word` and end in state `s`. A run
is any number of steps in a row. -/
def Reads (step : Config → Config → Prop) (start : Nat) (word : List Term) (s : Nat) : Prop :=
  ∃ stack, Relation.ReflTransGen step ⟨[start], word⟩ ⟨s :: stack, []⟩

/-- Whether a run may end in a state: a top rule is complete, and nothing else
is to be done at the end of the input. -/
def EndsIn (g : Grammar) (a : Automaton) (s : Nat) : Prop :=
  (a.state s).accepting g = true ∧ .eof ∉ (a.state s).terms

/-- Whether the listed actions accept a word. -/
def Accepts (g : Grammar) (a : Automaton) (start : Nat) (word : List Term) : Prop :=
  ∃ s, Reads a.Step start word s ∧ a.EndsIn g s

/-- Whether a word is accepted with default reductions taken without looking
ahead. A state that has one is not the end. -/
def EagerlyAccepts (g : Grammar) (a : Automaton) (start : Nat) (word : List Term) : Prop :=
  ∃ s, Reads a.EagerStep start word s ∧ a.EndsIn g s ∧ (a.state s).defaultReduce = none

end Automaton

end GrammarCompiler
