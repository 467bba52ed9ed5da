/-
GrammarCompiler.Draft.Node — what properties say about a symbol.

  §1 Values     — the text of a property, where arguments may stand.
  §2 Node info  — the built-in properties, which give a symbol its node name,
                  dialect and so on, and the named ones, which end up on the
                  node.
  §3 Checks     — combinations that make no sense.
-/
import GrammarCompiler.Draft.Basic
import GrammarCompiler.Text.Letters

namespace GrammarCompiler

open Text

/-! ## §1 Values -/

/-- The text that an expression stands for in a property: the name of a rule
without arguments, or the text of a literal. -/
def Expr.plainText? : Expr → Option String
  | .name _ id [] => some id
  | .literal _ value => some value
  | _ => none

/-- The parameters that properties can refer to, with their arguments. -/
structure PropScope where
  params : List Ident := []
  args : List Expr := []

namespace PropScope

/-- The text of a piece of a value. -/
def partText (scope : PropScope) : PropPart → Except FaultAt String
  | .text _ value => .ok value
  | .parameter start name =>
    match scope.params.findIdx? fun p => p.name == name with
    | none => .error (.propParameterUnknown name, some start)
    | some i =>
      match scope.args[i]? with
      | none => .error (.propArgumentMissing name, some start)
      | some arg =>
        match arg.plainText? with
        | some text => .ok text
        | none => .error (.propArgumentComplex arg.shown, some start)

/-- The text of a value. -/
def text (scope : PropScope) (value : List PropPart) : Except FaultAt String := do
  return String.join (← value.mapM scope.partText)

end PropScope

/-- A prop of nodes: its name in the module that it comes from, or in the
runtime if there is none. -/
structure PropSource where
  name : String
  module : Option String
deriving DecidableEq

/-- The props that a grammar can use, by their names in the grammar. -/
def GrammarDecl.knownProps (decl : GrammarDecl) : NameMap PropSource :=
  let builtin := ["closedBy", "openedBy", "group", "isolate"].foldl
    (fun known name => NameMap.insert name ⟨name, none⟩ known) []
  decl.externalProps.foldl
    (fun known p => NameMap.insert p.id.name ⟨p.externalId.name, some p.source⟩ known) builtin

/-- An integer between -10 and 10, with or without a sign. -/
def dynamicPrecedence? (text : String) : Option Int :=
  let (negative, digits) := match text.toList with
    | '-' :: digits => (true, digits)
    | '+' :: digits => (false, digits)
    | digits => (false, digits)
  if digits.isEmpty || !digits.all Char.isDigit then none
  else
    let value := digits.foldl (fun n c => n * 10 + (c.toNat - '0'.toNat)) 0
    if 10 < value then none
    else some (if negative then -(value : Int) else value)

/-! ## §2 Node info -/

/-- What a declaration with properties declares. -/
inductive NodePlace where
  | token
  | literal
  | topRule
  | rule
  | inlineRule
deriving DecidableEq

namespace NodePlace

/-- Whether names that would otherwise be hidden produce nodes. -/
def showsAll : NodePlace → Bool
  | literal | topRule => true
  | _ => false

/-- Whether a declaration can be restricted to a dialect. -/
def takesDialect : NodePlace → Bool
  | token | literal => true
  | _ => false

/-- Whether a declaration can have a dynamic precedence or define a group. -/
def takesPrecedence : NodePlace → Bool
  | rule | inlineRule => true
  | _ => false

/-- Whether a declaration can be marked for inlining. -/
def takesInline : NodePlace → Bool
  | rule => true
  | _ => false

end NodePlace

/-- What properties say about a symbol. -/
structure NodeInfo where
  name : Option String := none
  props : NameMap String := []
  dialect : Option Nat := none
  dynamicPrecedence : Int := 0
  inlined : Bool := false
  group : Option String := none
  exported : Option String := none

namespace NodeInfo

/-- The node name that a declared name gives. -/
def defaultName (place : NodePlace) (name : Option String) : Option String :=
  name.filter fun n => (place.showsAll || !isHiddenName n) && !n.toList.contains ' '

/-- The value of a property that may be left out in favour of the declared
name. -/
def valueOr (declared : Option String) (scope : PropScope) (prop : NodeProp) :
    Except FaultAt (Option String) :=
  if prop.value.isEmpty then .ok declared else some <$> scope.text prop.value

/-- The dialect that a property names. -/
def dialectOf (dialects : List String) (prop : NodeProp) : Except FaultAt Nat :=
  match prop.value with
  | [.text start value] =>
    match dialects.findIdx? (· == value) with
    | some id => .ok id
    | none => .error (.unknownDialect value, some start)
  | _ => .error (.dialectNotText, some prop.start)

/-- The precedence that a property gives. -/
def precedenceOf (prop : NodeProp) : Except FaultAt Int :=
  match prop.value with
  | [.text _ value] =>
    match dynamicPrecedence? value with
    | some value => .ok value
    | none => .error (.dynamicPrecedenceValue, some prop.start)
  | _ => .error (.dynamicPrecedenceValue, some prop.start)

/-- Takes in a built-in property. -/
def addBuiltin (decl : GrammarDecl) (place : NodePlace) (declared : Option String)
    (scope : PropScope) (info : NodeInfo) (prop : NodeProp) : Except FaultAt NodeInfo :=
  match prop.name with
  | "name" => do
    let name ← scope.text prop.value
    if name.toList.contains ' ' then
      throw (.nodeNameWithSpace name, some prop.start)
    return { info with name := some name }
  | "dialect" => do
    if !place.takesDialect then throw (.dialectOnRule, some prop.start)
    return { info with dialect := some (← dialectOf decl.dialectNames prop) }
  | "dynamicPrecedence" => do
    if !place.takesPrecedence then throw (.dynamicPrecedenceOnToken, some prop.start)
    return { info with dynamicPrecedence := ← precedenceOf prop }
  | "inline" => do
    if !prop.value.isEmpty then throw (.inlineWithValue, some prop.start)
    if !place.takesInline then throw (.inlineOnToken, some prop.start)
    return { info with inlined := true }
  | "isGroup" => do
    if !place.takesPrecedence then throw (.groupOnToken, some prop.start)
    return { info with group := ← valueOr declared scope prop }
  | "export" => do
    return { info with exported := ← valueOr declared scope prop }
  | name => .error (.unknownBuiltinProp name, some prop.start)

/-- Takes in a property. -/
def addProp (decl : GrammarDecl) (place : NodePlace) (declared : Option String)
    (scope : PropScope) (info : NodeInfo) (prop : NodeProp) : Except FaultAt NodeInfo :=
  if prop.builtin then addBuiltin decl place declared scope info prop
  else if !decl.knownProps.has prop.name then
    let builtin := ["name", "dialect", "dynamicPrecedence", "export", "isGroup"]
    .error (.unknownProp prop.name (builtin.contains prop.name), some prop.start)
  else do
    let value ← scope.text prop.value
    return { info with props := info.props.insert prop.name value }

/-- What a list of properties says. -/
def ofProps (decl : GrammarDecl) (place : NodePlace) (declared : Option String)
    (scope : PropScope) (props : List NodeProp) : Except FaultAt NodeInfo :=
  props.foldlM (addProp decl place declared scope) { name := defaultName place declared }

/-! ## §3 Checks -/

/-- Refuses combinations that make no sense. What is inlined has no node. -/
def checked (props : List NodeProp) (info : NodeInfo) : Except FaultAt NodeInfo :=
  let start := props.head?.map NodeProp.start
  if !info.props.isEmpty && info.name.isNone then .error (.propsWithoutName, start)
  else if info.inlined &&
      (!info.props.isEmpty || info.dialect.isSome || info.dynamicPrecedence != 0) then
    .error (.inlineWithProps, start)
  else .ok (if info.inlined then { info with name := none } else info)

/-- What a list of properties says, checked. -/
def ofDeclaration (decl : GrammarDecl) (place : NodePlace) (declared : Option String)
    (scope : PropScope) (props : List NodeProp) : Except FaultAt NodeInfo := do
  checked props (← ofProps decl place declared scope props)

end NodeInfo

end GrammarCompiler
