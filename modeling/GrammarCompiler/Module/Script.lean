/-
GrammarCompiler.Module.Script — modules of JavaScript text.

A `Script` is a module that imports names, declares some constants, and
exports one value that is made from the fields of an object.

  §1 Names   — what can stand without quotes.
  §2 Imports — names grouped by the module they come from.
  §3 Scripts — modules and their text.
-/
import GrammarCompiler.Text.Quoted

namespace GrammarCompiler

open Text

/-! ## §1 Names -/

/-- Whether a character can begin an identifier. Only ASCII is considered. -/
def isIdentifierStart (c : Char) : Bool :=
  c.isAlpha || c == '_' || c == '$'

/-- Whether a name is an identifier. -/
def isIdentifier (name : String) : Bool :=
  match name.toList with
  | [] => false
  | c :: rest =>
    isIdentifierStart c && rest.all fun c => isIdentifierStart c || c.isDigit

/-- The key of an object: quoted unless it is an identifier. -/
def objectKey (name : String) : String :=
  if isIdentifier name then name else scriptQuoted name

/-- A text in braces. -/
def braces (text : String) : String :=
  "\x7b" ++ text ++ "\x7d"

/-- A list in brackets. -/
def brackets (items : List String) (separator : String) : String :=
  "[" ++ separator.intercalate items ++ "]"

/-! ## §2 Imports -/

/-- How modules import and export: by statements, or by functions. -/
inductive ModuleStyle where
  | es
  | cjs
deriving DecidableEq

/-- Names to import, by the module they come from. -/
abbrev Imports := List (String × List String)

namespace Imports

/-- Adds a name, unless it is imported from the same module already. -/
def add (imports : Imports) (name source : String) : Imports :=
  if imports.any fun i => i.1 == source then
    imports.map fun i =>
      if i.1 == source && !i.2.contains name then (i.1, i.2 ++ [name]) else i
  else imports ++ [(source, [name])]

/-- A line for each module. -/
def lines (style : ModuleStyle) (imports : Imports) : List String :=
  imports.map fun (source, names) =>
    let names := braces (", ".intercalate names)
    match style with
    | .es => s!"import {names} from {scriptQuoted source}"
    | .cjs => s!"const {names} = require({scriptQuoted source})"

end Imports

/-! ## §3 Scripts -/

/-- The first line of every module. -/
def scriptHeader : String :=
  "// This file was generated by lrgen. You probably shouldn't edit it."

/-- A module: imports, constants with their values, and the exported value,
which the function `maker` makes from an object with the given fields. -/
structure Script where
  imports : Imports
  constants : List (String × String)
  exportName : String
  maker : String
  fields : List (String × String)
deriving DecidableEq

namespace Script

/-- The text that begins the definition of an exported value. -/
def exportStart (style : ModuleStyle) (name : String) : String :=
  match style with
  | .es => s!"export const {name} = "
  | .cjs => s!"exports.{name} = "

/-- The text of a module. -/
def text (style : ModuleStyle) (s : Script) : String :=
  let constants := s.constants.map fun (name, value) => s!"const {name} = {value}"
  let fields := s.fields.map fun (name, value) => s!"  {name}: {value}"
  let lines := scriptHeader :: s.imports.lines style ++ constants ++
    [s!"{exportStart style s.exportName}{s.maker}(\x7b", ",\n".intercalate fields, "\x7d)"]
  String.join (lines.map fun line => line ++ "\n")

end Script

end GrammarCompiler
