/-
GrammarCompiler.Table.Code — actions as numbers.

A reduction is one word of 32 bits: the number of the symbol in the lower 16,
then three flags, then the number of parts that are taken off the stack.
Actions are stored as lists of triples, which end with a mark and what to do
for all other terms.
-/
import GrammarCompiler.Automaton.State
import GrammarCompiler.Grammar.Skip

namespace GrammarCompiler

namespace Code

/-! ## §1 Words -/

/-- The word is a reduction. -/
def reduceFlag : Nat := 1 <<< 16

/-- The reduction makes a longer repeat out of two. -/
def repeatFlag : Nat := 1 <<< 17

/-- The word tells to enter the states for something skipped. -/
def gotoFlag : Nat := 1 <<< 17

/-- The state does not change: what was read is skipped. -/
def stayFlag : Nat := 1 <<< 18

/-- A word of 32 bits. Higher bits get lost. -/
def word (bits : Nat) : Nat :=
  bits % 1 <<< 32

/-- The word for reducing by a rule when `depth` of its parts have been
read. -/
def reduction (g : Grammar) (skips : Skipping) (r : Rule) (depth : Nat) : Nat :=
  let full := r.isRepeatWrap g.terms && depth == r.parts.length
  g.id r.name ||| reduceFlag ||| word (depth <<< 19) |||
    (if full then repeatFlag else 0) |||
    (if skips.withStates.contains r.name then stayFlag else 0)

/-- The word for reducing by a rule that has been read. -/
def fullReduction (g : Grammar) (skips : Skipping) (r : Rule) : Nat :=
  reduction g skips r r.parts.length

/-- The lower and the upper half of a word. -/
def halves (word : Nat) : List Nat :=
  [word % 1 <<< 16, word >>> 16]

/-! ## §2 Lists -/

/-- The mark at the end of a list. -/
def listEnd : Nat := 0xffff

/-- There is nothing to do for other terms. -/
def done : Nat := 0

/-- What follows is to be done for all other terms. -/
def otherwise : Nat := 2

/-- An action as a triple. The action `fallback` is left out. -/
def action (g : Grammar) (skips : Skipping) (fallback : Option Nat) : Action → List Nat
  | .shift term target => [g.id term, target, 0]
  | .reduce term rule =>
    let word := fullReduction g skips rule
    if fallback = some word then [] else g.id term :: halves word

/-- A list of actions, and the action for all other terms. -/
def actions (g : Grammar) (skips : Skipping) (fallback : Option Nat) (list : List Action) :
    List Nat :=
  list.flatMap (action g skips fallback) ++
    match fallback with
    | none => [listEnd, done]
    | some word => listEnd :: otherwise :: halves word

end Code

end GrammarCompiler
