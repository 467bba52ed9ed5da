/-
GrammarCompiler.Draft.Token — the tokens that rules refer to.

A token is built into the automaton when it is first referred to, and ends in
a state of its own.

  §1 Building — the automaton as a part of the draft.
  §2 Tokens   — for token rules and for literals.
-/
import GrammarCompiler.Draft.Node
import GrammarCompiler.Tokenizer.Build

namespace GrammarCompiler.Build

open Text

/-! ## §1 Building -/

/-- Does something to the automaton, and marks the rules it used. -/
def onTokens (action : TokenBuild.Action Unit) : Build Unit := do
  let ((), progress) ← check (action.run ⟨(← get).tokens, []⟩)
  modify fun d => { d with tokens := progress.automaton }
  progress.used.forM markUsed

/-- Creates the state where a token ends. -/
def tokenEnd (term : Term) : Build Nat :=
  modifyGet fun d =>
    let (state, tokens) := d.tokens.addAccepting term
    (state, { d with tokens })

/-- Remembers a token. -/
def rememberToken (key : TokenKey) (term : Term) : Build Unit :=
  modify fun d => { d with tokenInstances := d.tokenInstances ++ [⟨key, term⟩] }

/-- Creates a terminal. -/
def newTerminal (name : String) (info : NodeInfo) : Build Term := do
  let term ← newTerm { name, kind := .terminal, nodeName := info.name, props := info.props }
  restrictToDialect info.dialect term
  return term

/-- Gives a symbol the name that it is exported by, or else its node name. A
symbol that is exported without being a node is kept. -/
def exportNode (info : NodeInfo) (term : Term) : Build Unit := do
  match info.exported.or info.name with
  | none => pure ()
  | some name =>
    if info.name.isNone then modifyTerm term fun t => { t with preserved := true }
    nameTerm name term

/-! ## §2 Tokens -/

/-- A number of steps that is enough to build the reference `e`. -/
def tokenFuel (e : Expr) : Build Nat := do
  return TokenBuild.fuelFor (← read).decl.tokenRules e

/-- The token that a reference stands for, if there is a token rule by that
name. -/
def token? (start : Nat) (name : String) (args : List Expr) : Build (Option Term) := do
  let key := TokenKey.rule name args
  if let some term := (← get).tokenFor? key then return some term
  let decl := (← read).decl
  let some rule := decl.tokenRules.find? fun r => r.id.name == name | return none
  let params := if rule.params.length = args.length then rule.params else []
  let info ← check (NodeInfo.ofDeclaration decl .token (some name) ⟨params, args⟩ rule.props)
  let shown := (Expr.name start name args).shown
  let term ← newTerminal shown info
  if rule.params.isEmpty then exportNode info term
  let target ← tokenEnd term
  let fuel ← tokenFuel (.name start name args)
  onTokens (TokenBuild.addRule (TokenBuild.addExpr decl.tokenRules fuel) [] [] rule start args
    Draft.tokenStart target)
  rememberToken key term
  return some term

/-- The token of a literal. -/
def literalToken (value : String) : Build Term := do
  let key := TokenKey.literal value
  if let some term := (← get).tokenFor? key then return term
  let decl := (← read).decl
  let listed := ((decl.tokens.map TokensDecl.literals).getD []).find? fun l => l.literal == value
  let info ← match listed with
    | some l => check (NodeInfo.ofDeclaration decl .literal (some value) {} l.props)
    | none => pure {}
  let term ← newTerminal (quoted value) info
  if let some name := info.exported then nameTerm name term
  let target ← tokenEnd term
  onTokens (TokenBuild.addLiteral value Draft.tokenStart target)
  rememberToken key term
  return term

end GrammarCompiler.Build
