/-
GrammarCompiler.Compile — from a grammar text to a parser.

  §1 Stages  — the stages of a build, each with its notes in the journal.
  §2 Results — tables, and modules made from them. The journal is there also
               when a build fails.
-/
import GrammarCompiler.Automaton.Collapse
import GrammarCompiler.Automaton.Full
import GrammarCompiler.Automaton.Identical
import GrammarCompiler.Grammar.Inline
import GrammarCompiler.Grammar.Merge
import GrammarCompiler.Module.Parser
import GrammarCompiler.Table.Assemble
import GrammarCompiler.Tokenizer.Layout
import GrammarCompiler.Tokenizer.Minimize

namespace GrammarCompiler

open Text

namespace Compile

/-! ## §1 Stages -/

/-- A stage of a build. It can fail, and what it noted stays. -/
abbrev Stage := EStateM BuildError Journal

/-- Notes an event. -/
def note (e : Event) : Stage Unit :=
  modify fun j => j.note e

/-- The result of a stage that notes nothing. -/
def done (result : Except BuildError α) : Stage α :=
  match result with
  | .ok a => pure a
  | .error e => throw e

/-- Inlines and merges rules. -/
def simplify (d : Draft) : Stage (List Rule) := do
  let preserve := d.skipTerms ++ d.terms.tops
  let inlined := Inlining.ofRules d.terms preserve d.rules.length d.rules
  inlined.passes.zipIdx.forM fun (count, pass) => note (.inlining count pass)
  let (rules, _) := Merging.merge d.terms inlined.ruleCount inlined.rules
  note (.simplified d.rules.length rules.length)
  return rules

/-- Finds the first sets of a grammar. -/
def firstTable (g : Grammar) : Stage FirstTable := do
  let table := FirstTable.ofGrammar g
  (g.terms.all.filter fun t => !(g.rulesFor t).isEmpty).forM fun t =>
    note (.firstSet (g.name t) (FirstTable.shown g (table.first t)))
  return table

/-- Builds the tokenizer. -/
def tokenizer (d : Draft) : Stage Dfa := do
  let dfa ← done (d.tokens.compile Draft.tokenStart d.terms)
  let dfa := dfa.minimize
  note (.tokenizer dfa.size)
  return dfa

/-- Puts states together. -/
def shrink (g : Grammar) (states : Automaton) : Stage Automaton := do
  let (collapsed, counts) := collapse g states
  counts.zipIdx.forM fun (count, pass) => note (.collapsePass (pass + 1) count)
  let states := mergeIdentical g collapsed
  note (.collapsed states.size)
  states.toList.zipIdx.forM fun (s, id) => note (.state (s.shown g id))
  if 0xffff < states.size then throw (.capacity (.states states.size))
  return states

/-- Builds the automaton and the tokenizer. -/
def assembly (b : Blueprint) : Stage Assembly := do
  let d := b.draft
  let rules ← simplify d
  let numbering ← done (Numbering.ofRules d.terms rules)
  let g : Grammar := { terms := d.terms, numbering, rules }
  let skips := Skipping.ofTerms g (← firstTable g) d.skipTerms
  let g := skips.prune g
  let table ← firstTable g
  let full ← done (fullAutomaton g table (g.terms.tops ++ skips.withStates) d.noSkip)
  note (.searched full.size)
  note (.fullAutomaton full.size)
  let dfa ← tokenizer d
  let groups ← done
    (TokenGroups.ofAutomaton g d.origins skips b.ranks b.conflicts dfa full)
  note (.tokenGroups groups.groups.length)
  let precedence ← done (TokenRank.order g.name b.ranks groups.soft)
  let masks := TokenGroups.masks g groups.groups
  let tokenData ← done
    (dfa.toWords g.id (fun id => masks[id]?.getD 0) (precedence.map g.id))
  let automaton ← shrink g groups.states
  return { blueprint := b, grammar := g, skips, groups := groups.groups, precedence, tokenData,
           automaton }

/-- Builds the tables. -/
def tables (b : Blueprint) : Stage ParserTables := do
  let tables ← done (← assembly b).tables
  note (.tables tables.states.length tables.stateData.length tables.goto.length
    tables.tokenData.length)
  return tables

end Compile

/-! ## §2 Results -/

/-- The tables for a grammar. -/
def compileTables (source : Source) : Except BuildError ParserTables × Journal :=
  match Blueprint.ofSource source with
  | (.error e, journal) => (.error e, journal)
  | (.ok b, journal) =>
    match (Compile.tables b).run journal with
    | .ok tables journal => (.ok tables, journal)
    | .error e journal => (.error e, journal)

/-- The texts of generated modules. -/
structure ModuleTexts where
  parser : String
  terms : String

/-- The modules for a grammar. -/
def compileModules (source : Source) (options : ModuleOptions) :
    Except BuildError ModuleTexts × Journal :=
  let (tables, journal) := compileTables source
  (do
    let tables ← tables
    let script ← tables.parserScript options
    return { parser := script.text options.style, terms := tables.termsText options.style },
   journal)

end GrammarCompiler
