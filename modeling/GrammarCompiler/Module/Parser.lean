/-
GrammarCompiler.Module.Parser — tables as a module that exports a parser.

  §1 References — names from other modules, which are imported, unless a hook
                  tells what to write instead.
  §2 Fields     — the parts of the tables as text.
  §3 Modules    — the parser, and the numbers of the named symbols.
-/
import GrammarCompiler.Module.Script
import GrammarCompiler.Printable
import GrammarCompiler.Table.Basic

namespace GrammarCompiler

open Text

/-! ## §1 References -/

/-- What to write for a name and the module that it is declared to come
from. -/
abbrev Hook := String → String → String

/-- Hooks for the different kinds of external names. -/
structure Hooks where
  tokenizer : Option Hook := none
  propSource : Option Hook := none
  specializer : Option Hook := none
  prop : Option Hook := none
  context : Option Hook := none

/-- How to write modules. -/
structure ModuleOptions where
  style : ModuleStyle := .es
  termNames : Bool := false
  exportName : String := "parser"
  hooks : Hooks := {}

namespace ParserModule

/-- A text whose references are collected. -/
abbrev Writer := StateM Imports

/-- What to write for an external name. -/
def reference (hook : Option Hook) (r : ExternalRef) : Writer String := do
  match hook with
  | some hook => return hook r.name r.source
  | none =>
    modify fun imports => imports.add r.name r.source
    return r.name

/-! ## §2 Fields -/

/-- The fields of an object in braces. -/
def object (separator : String) (entries : List (String × String)) : String :=
  braces (separator.intercalate (entries.map fun (key, value) => s!"{key}:{value}"))

/-- The nodes that have a value: their number if there are several, the nodes,
and the value. -/
def propValue (entry : String × List Nat) : List String :=
  let (value, ids) := entry
  (if 1 < ids.length then [s!"-{ids.length}"] else []) ++ ids.map toString ++
    [scriptQuoted value]

/-- The values of a prop. -/
def propTable (hooks : Hooks) (t : PropTable) : Writer String := do
  let name ← match t.prop.module with
    | none => pure (scriptQuoted t.prop.name)
    | some source => reference hooks.prop ⟨t.prop.name, source⟩
  return brackets (name :: t.values.flatMap propValue) ","

/-- A tokenizer. -/
def tokenizer (hooks : Hooks) : TokenizerRef → Writer String
  | .group id => return toString id
  | .external r => reference hooks.tokenizer r

/-- The name of the constant that holds the table of a specialized token.
Characters that do not fit become underscores. -/
def tableName (token : String) : String :=
  "spec_" ++ String.ofList (token.toList.map fun c =>
    if c.isAlphanum || c == '_' then c else '_')

/-- A specializer. -/
def specializer (hooks : Hooks) : Specializer → Writer String
  | .table term name _ =>
    return braces s!"term: {term}, get: (value) => {tableName name}[value] || -1"
  | .external term r extend => do
    let name ← reference hooks.specializer r
    let flag := if extend then 1 else 0
    return braces (s!"term: {term}, get: (value, stack) => ({name}(value, stack) << 1) | {flag}" ++
      s!", external: {name}" ++ (if extend then ", extend: true" else ""))

/-- The constant for the table of a specialized token. -/
def tableConstant? : Specializer → Option (String × String)
  | .table _ name values =>
    let entries := values.map fun (value, code) => s!"{objectKey value}:{code}"
    some (tableName name, braces ("__proto__:null," ++ ", ".intercalate entries))
  | .external _ _ _ => none

/-- A field that is left out if there is nothing to say. -/
def fieldUnless (missing : Bool) (name value : String) : List (String × String) :=
  if missing then [] else [(name, value)]

/-- Lists of numbers as text, in the order of the fields. -/
structure Encoded where
  states : String
  stateData : String
  goto : String
  tokenData : String

/-- Encodes the lists of numbers. Those of states have 32 bits. -/
def encode (t : ParserTables) : Except BuildError Encoded := do
  let states ← Printable.encodeArray (t.states.flatMap StateRecord.toList) 0xffffffff
  let stateData ← Printable.encodeArray t.stateData 0xffff
  let goto ← Printable.encodeArray t.goto 0xffff
  let tokenData ← Printable.encodeArray t.tokenData 0xffff
  return { states, stateData, goto, tokenData }

/-- The fields of the parser. -/
def fields (options : ModuleOptions) (t : ParserTables) (e : Encoded) :
    Writer (List (String × String)) := do
  let hooks := options.hooks
  let context ← match t.context with
    | none => pure []
    | some r => pure [("context", ← reference hooks.context r)]
  let nodeProps ← t.nodeProps.mapM (propTable hooks)
  let propSources ← t.propSources.mapM (reference hooks.propSource)
  let tokenizers ← t.tokenizers.mapM (tokenizer hooks)
  let specialized ← t.specialized.mapM (specializer hooks)
  let topRules := t.topRules.map fun r => (scriptQuoted r.name, s!"[{r.state},{r.term}]")
  let dialects := t.dialects.map fun (name, address) => (objectKey name, toString address)
  let precedences := t.dynamicPrecedences.map fun (term, value) =>
    (s!"\"{term}\"", toString value)
  let termNames := t.termNames.map fun (id, name) => (toString id, scriptQuoted name)
  return [("version", "14"), ("states", e.states), ("stateData", e.stateData),
      ("goto", e.goto), ("nodeNames", scriptQuoted (" ".intercalate t.nodeNames)),
      ("maxTerm", toString t.maxTerm)] ++
    context ++
    fieldUnless nodeProps.isEmpty "nodeProps"
      ("[\n    " ++ ",\n    ".intercalate nodeProps ++ "\n  ]") ++
    fieldUnless propSources.isEmpty "propSources" (brackets propSources ",") ++
    fieldUnless t.skippedNodes.isEmpty "skippedNodes"
      (brackets (t.skippedNodes.map toString) ",") ++
    [("repeatNodeCount", toString t.repeatNodeCount), ("tokenData", e.tokenData),
      ("tokenizers", brackets tokenizers ", "), ("topRules", object "," topRules)] ++
    fieldUnless dialects.isEmpty "dialects" (object ", " dialects) ++
    fieldUnless precedences.isEmpty "dynamicPrecedences" (object "," precedences) ++
    fieldUnless specialized.isEmpty "specialized" (brackets specialized ",") ++
    [("tokenPrec", toString t.tokenPrecedence)] ++
    fieldUnless (!options.termNames) "termNames" (object "," termNames)

end ParserModule

/-! ## §3 Modules -/

/-- The module that exports a parser. -/
def ParserTables.parserScript (t : ParserTables) (options : ModuleOptions) :
    Except BuildError Script := do
  let encoded ← ParserModule.encode t
  let base : Imports := Imports.add [] "LRParser" "@lezer/lr"
  let (fields, imports) := (ParserModule.fields options t encoded).run base
  return {
    imports
    constants := t.specialized.filterMap ParserModule.tableConstant?
    exportName := options.exportName
    maker := "LRParser.deserialize"
    fields }

/-- The text of the module that exports the numbers of the named symbols, as
far as their names are identifiers. -/
def ParserTables.termsText (t : ParserTables) (style : ModuleStyle) : String :=
  let terms := t.terms.filter fun entry => isIdentifier entry.1
  let body := match style with
    | .es =>
      if terms.isEmpty then ""
      else
        let entries := terms.map fun (name, id) => s!"  {name} = {id}"
        "export const\n" ++ ",\n".intercalate entries ++ "\n"
    | .cjs => String.join (terms.map fun (name, id) => s!"exports.{name} = {id}\n")
  scriptHeader ++ "\n" ++ body

end GrammarCompiler
