/-
GrammarCompiler.Automaton.Conflict — more than one action for a terminal.

Actions are added to a state one at a time, each with the items it is due to.
When there already is another action for the same terminal, repeats and then
declared precedences decide which of the two stays; an ambiguity that both
allow keeps both; anything else is a conflict.

  §1 Marks       — what is declared for the items behind an action.
  §2 Resolution  — adding an action.
  §3 Description — conflicts in text, one for each pair of rules involved.
-/
import GrammarCompiler.Automaton.State

namespace GrammarCompiler

/-- An action and the items it is due to. -/
structure Cause where
  action : Action
  items : List Item
deriving Repr

namespace Cause

/-! ## §1 Marks -/

/-- Adds to `found` the items of a state that started the rules of `queue`,
and those that started their rules, and so on. -/
def originsFrom (context : List Item) :
    (fuel : Nat) → (found queue : List Item) → List Item
  | 0, found, _ => found
  | _, found, [] => found
  | fuel + 1, found, i :: queue =>
    if i.dot == 0 then
      let new := Item.notIn found (context.filter fun c => c.next? == some i.rule.name)
      originsFrom context fuel (found ++ new) (queue ++ new)
    else originsFrom context fuel found queue

/-- The items and the items of the state that they come from. -/
def withOrigins (context items : List Item) : List Item :=
  originsFrom context (items.length + context.length + 1) items items

/-- The marks of all items together. -/
def marksOf (items : List Item) : Marks :=
  Marks.joinAll (items.map Item.marks)

/-- Decides between repeats of the same thing: a longer repeat is made as
soon as possible. -/
def compareRepeats (terms : TermTable) (as bs : List Item) : Ordering :=
  let pairs := as.flatMap fun a =>
    if terms.isRepeat a.rule.name then
      (bs.filter fun b => b.rule.name == a.rule.name).map fun b => (a, b)
    else []
  let decide (pair : Item × Item) : Option Ordering :=
    if pair.1.rule.isRepeatWrap terms && pair.1.dot == 2 then some .gt
    else if pair.2.rule.isRepeatWrap terms && pair.2.dot == 2 then some .lt
    else none
  (pairs.findSome? decide).getD .eq

/-! ## §2 Resolution -/

/-- What came of adding an action: it is among the actions, or others are
preferred to it, or it clashes with one of them. -/
inductive Outcome where
  | added (causes : List Cause)
  | refused (causes : List Cause)
  | clash (causes : List Cause) (other : Cause)

/-- The actions after the addition. -/
def Outcome.causes : Outcome → List Cause
  | added causes => causes
  | refused causes => causes
  | clash causes _ => causes

/-- The same outcome with one more action in front. -/
def Outcome.behind (old : Cause) : Outcome → Outcome
  | added causes => added (old :: causes)
  | refused causes => refused (old :: causes)
  | clash causes other => clash (old :: causes) other

/-- Adds an action to those of a state, comparing it with each of them that is
for the same terminal. -/
def add (g : Grammar) (context : List Item) (new : Cause) : List Cause → Outcome
  | [] => .added [new]
  | old :: rest =>
    if old.action.term != new.action.term then (add g context new rest).behind old
    else if old.action.same g new.action then .refused (old :: rest)
    else
      let newItems := withOrigins context new.items
      let oldItems := withOrigins context old.items
      let newMarks := marksOf newItems
      let oldMarks := marksOf oldItems
      match (compareRepeats g.terms newItems oldItems).then
          (compare newMarks.precedence oldMarks.precedence) with
      | .gt => add g context new rest
      | .lt => .refused (old :: rest)
      | .eq =>
        if newMarks.ambiguities.any oldMarks.ambiguities.contains then
          (add g context new rest).behind old
        else .clash (old :: rest) old

end Cause

/-! ## §3 Description -/

/-- A conflict in text, and the names of the rules it is between. -/
structure Clash where
  rules : List String
  description : String
deriving Repr

namespace Clash

/-- Describes a conflict between two actions, an earlier one and a later one,
by the first of the items that each is due to. -/
def describe (g : Grammar) (earlier later : Action) (oldItem newItem : Item) : String :=
  let newRule := newItem.rule.shown g.terms
  let sides := match earlier with
    | .shift _ _ =>
      s!"shift/reduce conflict between\n  {oldItem.toDotted.shown g}\nand\n  {newRule}"
    | .reduce _ _ =>
      s!"reduce/reduce conflict between\n  {oldItem.rule.shown g.terms}\nand\n  {newRule}"
  sides ++ s!"\nWith input:\n  {newItem.trail g 70} · {g.name later.term} …" ++
    Item.sharedOrigin g oldItem newItem

/-- Adds a conflict between an action and one that was there before, unless
one of the rules involved is in another conflict already. -/
def log (g : Grammar) (clashes : List Clash) (old new : Cause) : List Clash :=
  match old.items.head?, new.items.head? with
  | some oldItem, some newItem =>
    let rules := [g.name newItem.rule.name, g.name oldItem.rule.name]
    if clashes.any fun c => c.rules.any rules.contains then clashes
    else clashes ++ [{ rules, description := describe g old.action new.action oldItem newItem }]
  | _, _ => clashes

end Clash

end GrammarCompiler
