/-
GrammarCompiler.Table.Nodes — what the tables say about nodes.
-/
import GrammarCompiler.Grammar.Basic
import GrammarCompiler.Table.Basic

namespace GrammarCompiler

namespace Nodes

/-- Adds a node to those that have a value. -/
def addValue (id : Nat) (value : String) (values : List (String × List Nat)) :
    List (String × List Nat) :=
  if values.any fun v => v.1 == value then
    values.map fun v => if v.1 == value then (v.1, v.2 ++ [id]) else v
  else values ++ [(value, [id])]

/-- Adds the value of a prop. -/
def addProp (prop : PropSource) (id : Nat) (value : String) (tables : List PropTable) :
    List PropTable :=
  if tables.any fun t => t.prop == prop then
    tables.map fun t =>
      if t.prop == prop then { t with values := addValue id value t.values } else t
  else tables ++ [⟨prop, [(value, [id])]⟩]

/-- Adds the props of a node. -/
def addNode (g : Grammar) (known : NameMap PropSource) (tables : List PropTable) (node : Term) :
    Except BuildError (List PropTable) :=
  (g.terms.info node).props.foldlM (fun tables (name, value) =>
    match known.get? name with
    | some prop => .ok (addProp prop (g.id node) value tables)
    | none => .error (.grammar (.unknownPropType name) none)) tables

/-- The props of all nodes. -/
def propTables (g : Grammar) (known : NameMap PropSource) : Except BuildError (List PropTable) :=
  g.numbering.nodeTypes.foldlM (addNode g known) []

/-- The nodes that only occur in what is skipped, going by the rules as they
were declared. -/
def skippedNodes (g : Grammar) (declared : List Rule) (skipTerms : List Term) : List Nat :=
  let parts := (declared.filter fun r => !skipTerms.contains r.name).flatMap fun r => r.parts
  (g.numbering.nodeTypes.filter fun t =>
    !parts.contains t && !g.terms.isTop t && t != .error).map g.id

/-- The names of the nodes that are not repeats. -/
def nodeNames (g : Grammar) : List String :=
  (g.numbering.nodeTypes.take g.numbering.minRepeat).map fun t =>
    ((g.terms.info t).nodeName).getD ""

end Nodes

end GrammarCompiler
