/-
GrammarCompiler.Draft.Delimiter — brackets around nodes.

When delimiters are detected, a node that starts with an opening bracket and
ends with the matching closing one tells both tokens about each other.
-/
import GrammarCompiler.Draft.Token

namespace GrammarCompiler.Build

/-- The token that an expression stands for, and its text, if it is a literal,
a rule that consists of one, or a reference to such a rule. At most `depth`
references are followed. -/
def delimiterToken : (depth : Nat) → Expr → Build (Option (Term × String))
  | _, .literal _ value => do return some (← literalToken value, value)
  | depth + 1, .name start name [] => do
    let decl := (← read).decl
    match decl.rules.find? fun r => r.id.name == name with
    | some rule => delimiterToken depth rule.body
    | none =>
      let rule := decl.tokenRules.find? fun r => r.id.name == name
      match rule.bind fun r => r.body.literal? with
      | none => return none
      | some value => return (← token? start name []).map fun term => (term, value)
  | _, _ => return none

/-- The brackets that match. -/
def brackets : List (Char × Char) :=
  [('(', ')'), ('[', ']'), ('\x7b', '\x7d'), ('<', '>')]

/-- Whether a text contains the first character and not the second. -/
def hasOnly (text : String) (c other : Char) : Bool :=
  text.toList.contains c && !text.toList.contains other

/-- Whether a token shows up in trees by a name. -/
def hasNodeName (term : Term) : Build Bool := do
  return ((← get).terms.info term).nodeName.isSome

/-- The opening and the closing token of a sequence that is enclosed in
brackets. -/
def delimiters? : Expr → Build (Option (Term × Term))
  | .sequence _ (first :: second :: rest) _ => do
    let final := (second :: rest).getLast?.getD second
    let some (closing, closingText) ← delimiterToken 8 final | return none
    if !(← hasNodeName closing) then return none
    let some (openChar, closeChar) :=
      brackets.find? fun (o, c) => hasOnly closingText c o | return none
    let some (opening, openingText) ← delimiterToken 8 first | return none
    if (← hasNodeName opening) && hasOnly openingText openChar closeChar then
      return some (opening, closing)
    return none
  | _ => return none

/-- Adds a word to a prop of a symbol, unless it is there. -/
def addPropWord (term : Term) (prop word : String) : Build Unit :=
  modifyTerm term fun t =>
    match t.props.get? prop with
    | none => { t with props := t.props.insert prop word }
    | some value =>
      if (value.splitOn " ").contains word then t
      else { t with props := t.props.insert prop (value ++ " " ++ word) }

/-- Marks the delimiters of a node, if it has any. -/
def markDelimiters (info : NodeInfo) (body : Expr) : Build Unit := do
  if (← read).decl.detectDelimiters && (info.name.isSome || !info.props.isEmpty) then
    if let some (opening, closing) ← delimiters? body then
      let terms := (← get).terms
      let nodeName (t : Term) := (terms.info t).nodeName.getD ""
      addPropWord opening "closedBy" (nodeName closing)
      addPropWord closing "openedBy" (nodeName opening)

/-- What the properties of a rule say. Also marks its delimiters. -/
def ruleInfo (place : NodePlace) (rule : RuleDecl) (args : List Expr) : Build NodeInfo := do
  let scope : PropScope := ⟨rule.params, args⟩
  let info ← check (NodeInfo.ofProps (← read).decl place (some rule.id.name) scope rule.props)
  markDelimiters info rule.body
  check (NodeInfo.checked rule.props info)

end GrammarCompiler.Build
