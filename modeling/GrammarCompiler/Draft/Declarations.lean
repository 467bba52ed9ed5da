/-
GrammarCompiler.Draft.Declarations — working through all declarations.

  §1 Externals  — tokens that external tokenizers and specializers produce.
  §2 Skipping   — the symbols for what is skipped.
  §3 Rules      — everything that the top rules refer to.
  §4 Tokens     — declared precedences and conflicts of tokens.
  §5 Grammars   — all of it, in order.
-/
import GrammarCompiler.Declaration.Parser
import GrammarCompiler.Draft.Groups
import GrammarCompiler.Draft.Rules
import GrammarCompiler.Tokenizer.Precedence

namespace GrammarCompiler

open Text

namespace Build

/-! ## §1 Externals -/

/-- Creates the terminal for an external token. -/
def declareExternal (token : ExternalToken) : Build (String × Term) := do
  declareName token.id
  let decl := (← read).decl
  let info ← check
    (NodeInfo.ofDeclaration decl .token (some token.id.name) {} token.props)
  let term ← newTerminal token.id.name info
  nameTerm token.id.name term
  return (token.id.name, term)

/-- Creates the terminals of an external tokenizer. -/
def declareTokenizer (entry : ExternalTokensDecl × Nat) : Build Unit := do
  let tokens ← entry.1.tokens.mapM fun token => do
    let (name, term) ← declareExternal token
    setOrigin term (.external entry.2)
    return (name, term)
  modify fun d => { d with externalTokens := d.externalTokens ++ [⟨tokens⟩] }

/-- Creates the terminals of an external specializer. -/
def declareSpecializer (decl : ExternalSpecializerDecl) : Build Unit := do
  let tokens ← decl.tokens.mapM declareExternal
  modify fun d => { d with externalSpecializers := d.externalSpecializers ++ [⟨tokens⟩] }

/-- Creates the terminals of all external declarations. -/
def declareExternals : Build Unit := do
  let decl := (← read).decl
  decl.externalTokens.zipIdx.forM declareTokenizer
  decl.externalSpecializers.forM declareSpecializer

/-- Finds the token that an external specializer is for. -/
def resolveSpecializer (noSkip : Term) (entry : ExternalSpecializerDecl × ExternalGroup) :
    Build Unit := do
  let (decl, group) := entry
  let phrases ← normalize noSkip decl.token
  let some base := singleTerminal? (← get).terms phrases
    | raise (.externalNotToken decl.kind.name) (some decl.token.start)
  modify fun d => { d with specializedBy := d.specializedBy ++ [base] }
  group.tokens.forM fun (_, term) => setOrigin term (.specializes base)

/-! ## §2 Skipping -/

/-- Creates the symbol for something to skip. -/
def newSkip (name : String) : Build Term :=
  newTerm { name, kind := .nonterminal }

/-- The symbols for what is skipped in each scope, in front of those that are
known. Scopes that skip the same share one. -/
def scopeSkips (main : Option Expr) (mainSkip noSkip : Term) :
    (known : List (Expr × Term)) → List ScopedSkip → Build (List Term)
  | _, [] => return []
  | known, s :: rest => do
    let skip ←
      match known.find? fun k => k.1.same s.expr with
      | some (_, skip) => pure skip
      | none =>
        if main.any fun e => e.same s.expr then pure mainSkip
        else if s.expr.isEmpty then pure noSkip
        else newSkip "%skip"
    return skip :: (← scopeSkips main mainSkip noSkip (known ++ [(s.expr, skip)]) rest)

/-- Builds the rules for what is skipped in a scope, unless that is done. -/
def buildScopeSkip (noSkip : Term) (entry : ScopedSkip × Term) : Build Unit := do
  let (s, skip) := entry
  if !(← get).skipTerms.contains skip then
    modify fun d => { d with skipTerms := d.skipTerms ++ [skip] }
    if skip != noSkip then addRules skip noSkip (← normalize noSkip s.expr)

/-! ## §3 Rules -/

/-- Builds a top rule. -/
def buildTop (entry : ScopedRule) : Build Unit := do
  let ⟨skip, rule⟩ := entry
  declareName rule.id
  markUsed rule.id.name
  let info ← ruleInfo .topRule { rule with params := [] } []
  let term ← modifyGet fun d =>
    let (term, terms) := d.terms.add {
      name := "@top", kind := .top, nodeName := info.name, props := info.props }
    (term, { d with terms })
  if let some name := info.name then nameTerm name term
  addRules term skip (← normalize skip rule.body)

/-- Whether a rule is exported. -/
def isExported (rule : RuleDecl) : Bool :=
  rule.props.any fun p => p.builtin && p.name == "export"

/-- Whether a rule consists of no elements. -/
def hasNoElements (rule : RuleDecl) : Bool :=
  match rule.body with
  | .sequence _ [] _ => true
  | _ => false

/-- Builds a rule that is exported but not used. -/
def buildExported (entry : ScopedRule) : Build Unit := do
  let ⟨skip, rule⟩ := entry
  let unused := (← get).names.any fun n => n.name == rule.id.name && n.unusedAt.isSome
  if unused && isExported rule && rule.params.isEmpty then
    let _ ← buildRule normalize rule [] skip false
    if hasNoElements rule then markUsed rule.id.name

/-- Builds what is skipped, the top rules in the order of the text, and all
that they refer to. -/
def buildRules : Build Unit := do
  let decl := (← read).decl
  let noSkip ← newSkip "%noskip"
  let mainSkip ← if decl.mainSkip.isSome then newSkip "%mainskip" else pure noSkip
  let skips ← scopeSkips decl.mainSkip mainSkip noSkip [] decl.scopedSkips
  let scopes := decl.scopedSkips.zip skips
  let inMain (rule : RuleDecl) : ScopedRule := ⟨mainSkip, rule⟩
  let rules := decl.rules.map inMain ++
    scopes.flatMap fun (s, skip) => s.rules.map fun rule => ⟨skip, rule⟩
  let tops := decl.topRules.map inMain ++
    scopes.flatMap fun (s, skip) => s.topRules.map fun rule => ⟨skip, rule⟩
  rules.forM fun s => declareName s.rule.id
  modify fun d => { d with
    noSkip
    scope := rules
    skipTerms := if mainSkip = noSkip then [mainSkip] else [noSkip, mainSkip] }
  if let some main := decl.mainSkip then
    addRules mainSkip noSkip (← normalize noSkip main)
  scopes.forM (buildScopeSkip noSkip)
  if tops.isEmpty then raise .missingTop none
  (tops.mergeSort fun a b => a.rule.id.start ≤ b.rule.id.start).forM buildTop
  (decl.externalSpecializers.zip (← get).externalSpecializers).forM (resolveSpecializer noSkip)
  rules.forM buildExported

/-- Warns about names that are not used. -/
def warnUnused : Build Unit := do
  (← get).names.forM fun n =>
    match n.unusedAt with
    | none => pure ()
    | some start => warn (.unusedRule n.name) (some start)

/-! ## §4 Tokens -/

/-- The tokens that an item of a precedence declaration is about. The name of
a rule stands for the rule with any arguments. -/
def rankedTokens (d : Draft) (item : Expr) : List Term :=
  match item with
  | .name _ name [] =>
    (d.tokenInstances.filter fun i => i.key.hasRule name).map TokenInstance.term
  | _ => ((TokenKey.ofExpr? item).bind d.tokenFor?).toList

/-- Reads a precedence declaration: each token comes after all before it. -/
def readPrecedence (ranks : List TokenRank) (decl : TokenPrecedence) :
    Build (List TokenRank) := do
  let d ← get
  let step (state : List TokenRank × List Term) (item : Expr) := do
    let (ranks, before) := state
    let level := rankedTokens d item
    if level.isEmpty then warn (.precedenceOfUnknown item.shown) (some item.start)
    return (level.foldl (fun ranks t => TokenRank.add ranks t before) ranks, before ++ level)
  return (← decl.items.foldlM step (ranks, [])).1

/-- The token that an item of a conflict declaration is about. -/
def conflictToken (e : Expr) : Build (Option Term) := do
  let found := (TokenKey.ofExpr? e).bind (← get).tokenFor?
  if found.isNone then warn (.conflictOfUnknown e.shown) (some e.start)
  return found

/-- Reads a conflict declaration. -/
def readConflict (decl : TokenConflictDecl) : Build (Option (Term × Term)) := do
  let first ← conflictToken decl.first
  let second ← conflictToken decl.second
  return first.bind fun a => second.map fun b => (a, b)

end Build

/-! ## §5 Grammars -/

/-- A grammar whose declarations have been worked through. `ranks` and
`conflicts` are what is declared about the precedence of tokens and about
tokens that must stay apart. -/
structure Blueprint where
  decl : GrammarDecl
  draft : Draft
  ranks : List TokenRank
  conflicts : List (Term × Term)

namespace Build

/-- Works through all declarations. -/
def blueprint : Build Blueprint := do
  let decl := (← read).decl
  decl.tokenRules.forM fun rule => declareName rule.id
  declareExternals
  buildRules
  warnUnused
  let ranks ← ((decl.tokens.map TokensDecl.precedences).getD []).foldlM readPrecedence []
  let conflicts ← ((decl.tokens.map TokensDecl.conflicts).getD []).mapM readConflict
  defineGroups
  modify fun d => { d with
    journal := d.journal.note (.flattened d.rules.length d.terms.size) }
  return { decl, draft := ← get, ranks, conflicts := conflicts.filterMap id }

end Build

/-- Reads a grammar and works through its declarations. The journal is kept
also when that fails. -/
def Blueprint.ofSource (source : Source) : Except BuildError Blueprint × Journal :=
  match GrammarDecl.parse source with
  | .error e => (.error e, {})
  | .ok decl =>
    match (Build.blueprint.run ⟨source, decl⟩).run {} with
    | .ok b d => (.ok b, d.journal)
    | .error e d => (.error e, d.journal)

end GrammarCompiler
