/-
GrammarCompiler.Automaton.State — states of an automaton.

  §1 Actions — what a state does when a terminal comes next.
  §2 States  — items, actions, and where symbols lead.
  §3 Text    — states in text.

A state is known by its place in the automaton.
-/
import GrammarCompiler.Automaton.Item

namespace GrammarCompiler

/-! ## §1 Actions -/

/-- What to do when `term` comes next: read it and go to another state, or
reduce by a rule. -/
inductive Action where
  | shift (term : Term) (target : Nat)
  | reduce (term : Term) (rule : Rule)
deriving DecidableEq, Repr, Inhabited

namespace Action

/-- The terminal that an action is for. -/
def term : Action → Term
  | shift term _ => term
  | reduce term _ => term

/-- Whether two actions do the same. -/
def same (g : Grammar) : Action → Action → Bool
  | shift t target, shift t' target' => t == t' && target == target'
  | reduce t rule, reduce t' rule' => t == t' && rule.sameReduce g.terms rule'
  | _, _ => false

/-- An action of an automaton whose states have moved. -/
def map (mapping : Nat → Nat) : Action → Action
  | shift term target => shift term (mapping target)
  | reduce term rule => reduce term rule

/-- Compares actions: shifts come before reductions, then the numbers of the
terminals count. -/
def compare (g : Grammar) : Action → Action → Ordering
  | shift t target, shift t' target' =>
    (Ord.compare (g.id t) (g.id t')).then (Ord.compare target target')
  | shift _ _, reduce _ _ => .lt
  | reduce _ _, shift _ _ => .gt
  | reduce t rule, reduce t' rule' =>
    (Ord.compare (g.id t) (g.id t')).then
      ((Ord.compare (g.id rule.name) (g.id rule'.name)).then
        (Ord.compare rule.parts.length rule'.parts.length))

end Action

/-- Where a symbol leads after its rule has been reduced. -/
structure Goto where
  term : Term
  target : Nat
deriving DecidableEq, Repr, Inhabited

/-- Compares gotos by the numbers of their symbols, then by target. -/
def Goto.compare (g : Grammar) (a b : Goto) : Ordering :=
  (Ord.compare (g.id a.term) (g.id b.term)).then (Ord.compare a.target b.target)

/-- A goto of an automaton whose states have moved. -/
def Goto.map (mapping : Nat → Nat) (a : Goto) : Goto :=
  ⟨a.term, mapping a.target⟩

/-! ## §2 States -/

/-- A state. `start` is the symbol whose rules begin in it, if it is an entry
of the automaton; `group` is the group of tokens that may come next. When
all actions come down to one reduction, that is the default. -/
structure State where
  items : List Item
  actions : List Action
  gotos : List Goto
  skip : Term
  start : Option Term
  group : Option Nat := none
  defaultReduce : Option Rule := none
deriving Repr, Inhabited

/-- The states of an automaton. -/
abbrev Automaton := Array State

namespace State

/-- The rule that all actions reduce by, if there is one. -/
def onlyReduction (g : Grammar) (actions : List Action) : Option Rule :=
  match actions with
  | .reduce _ rule :: _ =>
    if actions.all fun a =>
      match a with
      | .reduce _ other => other.sameReduce g.terms rule
      | .shift _ _ => false
    then some rule
    else none
  | _ => none

/-- Finds the default reduction and puts actions and gotos in order. -/
def finish (g : Grammar) (s : State) : State :=
  { s with
    defaultReduce := onlyReduction g s.actions
    actions := s.actions.mergeSort fun a b => a.compare g b != .gt
    gotos := s.gotos.mergeSort fun a b => a.compare g b != .gt }

/-- Whether a top rule is complete. -/
def accepting (g : Grammar) (s : State) : Bool :=
  s.items.any fun i => g.terms.isTop i.rule.name && i.atEnd

/-- The terminals that have an action. -/
def terms (s : State) : List Term :=
  s.actions.map Action.term

/-- Whether two lists of actions do the same, one by one. -/
def sameActions (g : Grammar) (as bs : List Action) : Bool :=
  as.length == bs.length && (as.zip bs).all fun (a, b) => a.same g b

/-- Whether two states do the same: they have the same default reduction, or
no default reduction and the same actions and gotos. -/
def sameAs (g : Grammar) (a b : State) : Bool :=
  a.start == b.start &&
    match a.defaultReduce, b.defaultReduce with
    | some r, some r' => r.sameReduce g.terms r'
    | none, none =>
      a.skip == b.skip && a.group == b.group && sameActions g a.actions b.actions &&
        a.gotos == b.gotos
    | _, _ => false

/-! ## §3 Text -/

/-- An action in text. -/
def actionShown (g : Grammar) : Action → String
  | .shift term target => s!"{g.name term} => {target}"
  | .reduce term rule => s!"{g.name term} <= {rule.shown g.terms}"

/-- A state in text: its items, its actions and its gotos. -/
def shown (g : Grammar) (id : Nat) (s : State) : String :=
  let lines := s.items.map (fun i => i.toDotted.shown g) ++ s.actions.map (actionShown g) ++
    s.gotos.map fun a => actionShown g (.shift a.term a.target)
  s!"{id}: \x7b\n" ++ String.join (lines.map fun line => s!"  {line}\n") ++ "\x7d\n"

end State

end GrammarCompiler
