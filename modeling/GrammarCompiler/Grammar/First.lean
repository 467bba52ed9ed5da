/-
GrammarCompiler.Grammar.First — how symbols can begin.

For each symbol the table tells which terminals can come first in what it
stands for, and whether it can stand for nothing. It is filled in rounds over
the rules until a round changes nothing. Every other round adds something, so
their number is bounded by what there is to add.
-/
import GrammarCompiler.Grammar.Basic
import GrammarCompiler.Grammar.TermSet

namespace GrammarCompiler

/-! ## §1 First sets -/

/-- The terminals that can come first, and whether there may be none. -/
structure FirstSet where
  nullable : Bool := false
  terminals : TermSet := TermSet.empty
deriving DecidableEq, Repr, Inhabited

/-- A first set for each symbol, by index. -/
abbrev FirstTable := Array FirstSet

namespace FirstTable

/-- The first set of a symbol. -/
def first (table : FirstTable) (t : Term) : FirstSet :=
  table[t.index]?.getD {}

/-! ## §2 The table -/

/-- A first set with what a sequence of parts can begin with. -/
def scan (g : Grammar) (table : FirstTable) : List Term → FirstSet → FirstSet
  | [], set => { set with nullable := true }
  | part :: parts, set =>
    if g.isTerminal part then { set with terminals := set.terminals.insert part }
    else
      let found := table.first part
      let set := { set with terminals := set.terminals.union found.terminals }
      if found.nullable then scan g table parts set else set

/-- The table after looking at a rule. -/
def look (g : Grammar) (table : FirstTable) (r : Rule) : FirstTable :=
  table.setIfInBounds r.name.index (scan g table r.parts (table.first r.name))

/-- The table after looking at each rule once. -/
def round (g : Grammar) (table : FirstTable) : FirstTable :=
  g.rules.foldl (look g) table

/-- Rounds until one changes nothing. -/
def rounds (g : Grammar) : (fuel : Nat) → FirstTable → FirstTable
  | 0, table => table
  | fuel + 1, table =>
    let next := round g table
    if next = table then table else rounds g fuel next

/-- How much there can be to add: for each symbol the parts of all rules, and
that it can stand for nothing. -/
def capacity (g : Grammar) : Nat :=
  g.terms.size * ((g.rules.flatMap fun r => r.parts).length + 1)

/-- The first table of a grammar. -/
def ofGrammar (g : Grammar) : FirstTable :=
  rounds g (capacity g + 1) (Array.replicate g.terms.size {})

/-! ## §3 What can come next -/

/-- The terminals that a sequence of parts, and then `after` if they can stand
for nothing, can begin with. -/
def beginnings (g : Grammar) (table : FirstTable) (after : TermSet) : List Term → TermSet
  | [] => after
  | part :: parts =>
    if g.isTerminal part then TermSet.empty.insert part
    else
      let set := table.first part
      if set.nullable then set.terminals.union (beginnings g table after parts)
      else set.terminals

/-- The terminals that can come after the part of a rule at `position`, when
those of `after` can come behind the rule. -/
def termsAhead (g : Grammar) (table : FirstTable) (r : Rule) (position : Nat)
    (after : TermSet) : TermSet :=
  beginnings g table after (r.parts.drop (position + 1))

/-! ## §4 Text -/

/-- A first set in text. -/
def shown (g : Grammar) (set : FirstSet) : String :=
  "\x7b" ++ ", ".intercalate (set.terminals.toList.map g.name) ++ "\x7d" ++
    (if set.nullable then " (+ empty)" else "")

end FirstTable

end GrammarCompiler
