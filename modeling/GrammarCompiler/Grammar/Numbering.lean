/-
GrammarCompiler.Grammar.Numbering — the numbers of symbols in the tables.

Symbols that nothing uses any more are left out. The others are numbered in
bands: the error symbol, the symbols that show up in trees, the repeats, the
end of the input, and the rest. Within a band the order of creation counts.
-/
import GrammarCompiler.Fault
import GrammarCompiler.Grammar.Rule

namespace GrammarCompiler

/-- The numbered symbols, in the order of their numbers. The first
`nodeCount` show up in trees; of these, the ones from `minRepeat` on are
repeats. -/
structure Numbering where
  order : List Term
  ids : Array (Option Nat)
  minRepeat : Nat
  nodeCount : Nat
deriving DecidableEq, Repr, Inhabited

namespace Numbering

/-- The symbols that occur in rules. -/
def usedIn (rules : List Rule) : List Term :=
  rules.flatMap fun r => r.name :: r.parts

/-- Whether each symbol occurs in rules, by index. -/
def usage (terms : TermTable) (rules : List Rule) : Array Bool :=
  (usedIn rules).foldl (fun used t => used.setIfInBounds t.index true)
    (Array.replicate terms.size false)

/-- The symbols that get a number: terminals, preserved ones, and those that
occur in rules. -/
def live (terms : TermTable) (rules : List Rule) : List Term :=
  let used := usage terms rules
  terms.all.filter fun t =>
    terms.isTerminal t || (terms.info t).preserved || used[t.index]?.getD false

/-- The number of each symbol of a list, by index, counting from zero. -/
def idTable (terms : TermTable) (order : List Term) : Array (Option Nat) :=
  order.zipIdx.foldl (fun ids (t, id) => ids.setIfInBounds t.index (some id))
    (Array.replicate terms.size none)

/-- Numbers the symbols of a grammar. -/
def ofRules (terms : TermTable) (rules : List Rule) : Except BuildError Numbering :=
  let live := (live terms rules).filter fun t => t != .error && t != .eof
  let repeats := live.filter terms.isRepeat
  let others := live.filter fun t => !terms.isRepeat t
  let nodes := others.filter fun t => (terms.info t).isNode
  let rest := others.filter fun t => !(terms.info t).isNode
  let order := Term.error :: nodes ++ repeats ++ Term.eof :: rest
  if 0xfffe ≤ order.length then .error (.capacity .terms)
  else .ok {
    order
    ids := idTable terms order
    minRepeat := nodes.length + 1
    nodeCount := nodes.length + repeats.length + 1 }

/-- The number of a symbol, if it has one. -/
def id? (n : Numbering) (t : Term) : Option Nat :=
  (n.ids[t.index]?).join

/-- The number of a symbol. Symbols without a number count as the error
symbol. -/
def id (n : Numbering) (t : Term) : Nat :=
  (n.id? t).getD 0

/-- The largest number. -/
def maxTerm (n : Numbering) : Nat :=
  n.order.length - 1

/-- The symbols that show up in trees. -/
def nodeTypes (n : Numbering) : List Term :=
  n.order.take n.nodeCount

/-- The names of the numbered symbols, with their numbers. -/
def names (n : Numbering) (terms : TermTable) : List (Nat × String) :=
  n.order.zipIdx.map fun (t, id) => (id, terms.name t)

end Numbering

end GrammarCompiler
