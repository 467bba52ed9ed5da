/-
GrammarCompiler.Table.Assemble — all tables of a parser.

The order in which lists are stored decides where they are found: first what
can be skipped, then the actions of the states, then the tokens of dialects,
and last the precedence of tokens.
-/
import GrammarCompiler.Draft.Declarations
import GrammarCompiler.Table.Goto
import GrammarCompiler.Table.Nodes
import GrammarCompiler.Table.Records
import GrammarCompiler.Tokenizer.Groups

namespace GrammarCompiler

/-- Everything that the tables are made from. -/
structure Assembly where
  blueprint : Blueprint
  grammar : Grammar
  skips : Skipping
  groups : List (List Term)
  precedence : List Term
  tokenData : List Nat
  automaton : Automaton

namespace Assembly

/-- The tables for the cases of a specialized token. -/
def specializationTable (g : Grammar) (t : SpecializationTable) : Specializer :=
  .table (g.id t.base) (g.name t.base) (t.cases.map fun c =>
    (c.value, 2 * g.id c.term + if c.kind = .extend then 1 else 0))

/-- How tokens are specialized: external functions first, then tables. -/
def specializers (a : Assembly) : List Specializer :=
  let d := a.blueprint.draft
  let decls := a.blueprint.decl.externalSpecializers
  (decls.zip d.specializedBy).map (fun (decl, base) =>
    .external (a.grammar.id base) decl.ref (decl.kind == .extend)) ++
    d.specializations.map (specializationTable a.grammar)

/-- What the records of the states are made from. -/
def setup (a : Assembly) (skipAddresses : List Nat) (forced : Array (Option Forced)) :
    Records.Setup where
  grammar := a.grammar
  skips := a.skips
  origins := a.blueprint.draft.origins
  order := Records.tokenizerOrder a.blueprint.decl a.groups.length
  skipAddresses
  fromTop := Records.reachedFromTop a.grammar a.automaton
  forced

/-- The tokens of each dialect as a list of numbers. -/
def dialectLists (a : Assembly) : List (List Nat) :=
  let dialects := a.blueprint.decl.dialectNames
  (List.range dialects.length).map fun i =>
    (a.blueprint.draft.tokensOfDialect i).map a.grammar.id ++ [Code.listEnd]

/-- The top rules with their entry states. -/
def topRules (a : Assembly) : List TopEntry :=
  a.grammar.terms.tops.filterMap fun top =>
    (Records.entryState? a.automaton top).map fun state =>
      ⟨((a.grammar.terms.info top).nodeName).getD "", state, a.grammar.id top⟩

/-- The numbers of the named symbols that are still there. -/
def terms (a : Assembly) : NameMap Nat :=
  a.blueprint.draft.namedTerms.filterMap fun (name, t) =>
    (a.grammar.numbering.id? t).map fun id => (name, id)

/-- All tables. -/
def tables (a : Assembly) : Except BuildError ParserTables := do
  let g := a.grammar
  let decl := a.blueprint.decl
  let d := a.blueprint.draft
  let skipLists := a.skips.entries.map (Records.skipActions g a.automaton)
  let (skipAddresses, words) := Records.storeAll {} skipLists
  let setup := a.setup skipAddresses (← forcedReductions g a.automaton)
  let (states, words) := Records.recordsFrom setup words 0 a.automaton.toList
  let (dialects, words) := Records.storeAll words a.dialectLists
  let (tokenPrecedence, words) := words.store (a.precedence.map g.id ++ [Code.listEnd])
  let nodeProps ← Nodes.propTables g decl.knownProps
  let goto ← gotoTable g a.automaton
  let stateData ← words.finish
  return {
    states
    stateData
    goto
    nodeNames := Nodes.nodeNames g
    nodeProps
    skippedNodes := Nodes.skippedNodes g d.rules d.skipTerms
    maxTerm := g.numbering.maxTerm
    repeatNodeCount := g.numbering.nodeCount - g.numbering.minRepeat
    tokenData := a.tokenData
    tokenizers := setup.order.map (Records.tokenizerRef decl)
    topRules := a.topRules
    dialects := decl.dialectNames.zip dialects
    dynamicPrecedences := d.dynamicPrecedences.map fun (t, value) => (g.id t, value)
    specialized := a.specializers
    tokenPrecedence
    termNames := g.numbering.names g.terms
    terms := a.terms
    context := decl.context.map ExternalDecl.ref
    propSources := decl.externalPropSources.map ExternalDecl.ref }

end Assembly

end GrammarCompiler
