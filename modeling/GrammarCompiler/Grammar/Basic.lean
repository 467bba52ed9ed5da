/-
GrammarCompiler.Grammar.Basic — symbols, their numbers, and rules.

A `Grammar` is what automata are built from. `Derives` says what its rules
mean: which sequences of terminals a sequence of symbols can stand for.
-/
import GrammarCompiler.Grammar.Numbering

namespace GrammarCompiler

/-! ## §1 Grammars -/

/-- The symbols, their numbers and the rules of a grammar. -/
structure Grammar where
  terms : TermTable
  numbering : Numbering
  rules : List Rule
deriving DecidableEq, Repr, Inhabited

namespace Grammar

/-- The rules for a symbol, in order. -/
def rulesFor (g : Grammar) (name : Term) : List Rule :=
  g.rules.filter fun r => r.name == name

/-- Whether a symbol is a terminal. -/
def isTerminal (g : Grammar) (t : Term) : Bool :=
  g.terms.isTerminal t

/-- The number of a symbol. -/
def id (g : Grammar) (t : Term) : Nat :=
  g.numbering.id t

/-- The name of a symbol. -/
def name (g : Grammar) (t : Term) : String :=
  g.terms.name t

end Grammar

/-! ## §2 Derivations -/

/-- `Derives isTerminal rules parts word`: the symbols `parts` can stand for
the terminals `word`. Terminals stand for themselves; any other symbol stands
for what the parts of one of its rules stand for. -/
inductive Derives (isTerminal : Term → Bool) (rules : List Rule) :
    List Term → List Term → Prop where
  | nil : Derives isTerminal rules [] []
  | terminal {t : Term} {parts word : List Term} (ht : isTerminal t = true)
      (rest : Derives isTerminal rules parts word) :
      Derives isTerminal rules (t :: parts) (t :: word)
  | rule {r : Rule} {parts word rest : List Term} (hr : r ∈ rules)
      (hn : isTerminal r.name = false)
      (body : Derives isTerminal rules r.parts word)
      (after : Derives isTerminal rules parts rest) :
      Derives isTerminal rules (r.name :: parts) (word ++ rest)

/-- What a symbol of a grammar can stand for. -/
def Grammar.Generates (g : Grammar) (t : Term) (word : List Term) : Prop :=
  Derives g.isTerminal g.rules [t] word

end GrammarCompiler
