/-
GrammarCompiler.Draft.Rules — expressions as phrases, and rules for symbols.

An expression becomes the list of phrases it can stand for. Names, repeats and
rules in place get symbols of their own, which are remembered before their
rules are built, so that rules can refer to themselves.

The steps below take an argument `again`: it normalizes the expressions inside
the one at hand. `normalize` ties the knot, with a bound on how deep it goes.

  §1 Symbols     — for rules, names and repeats.
  §2 Expressions — the phrases of an expression.
-/
import GrammarCompiler.Draft.Delimiter
import GrammarCompiler.Draft.Sequence
import GrammarCompiler.Draft.Specialize
import GrammarCompiler.Draft.Substitute

namespace GrammarCompiler.Build

/-- Finds the phrases of an expression where `skip` is skipped. -/
abbrev Normalizer := (skip : Term) → Expr → Build (List Phrase)

/-! ## §1 Symbols -/

/-- The number of phrases that a rule can have before it gets a warning. -/
def phraseLimit : Expr → Nat
  | .choice _ alternatives => 100 * alternatives.length
  | _ => 100

/-- The name of a rule with arguments. -/
def instanceName (rule : RuleDecl) (args : List Expr) : String :=
  if args.isEmpty then rule.id.name
  else rule.id.name ++ "<" ++ ",".intercalate (args.map Expr.shown) ++ ">"

/-- Keeps and names the symbol of a rule, if it is a node or exported. -/
def registerRule (rule : RuleDecl) (inPlace : Bool) (info : NodeInfo) (term : Term) :
    Build Unit := do
  if info.inlined then modifyTerm term fun t => { t with inlined := true }
  if info.dynamicPrecedence != 0 then
    modify fun d => { d with
      dynamicPrecedences := d.dynamicPrecedences ++ [(term, info.dynamicPrecedence)] }
    modifyTerm term fun t => { t with preserved := true }
  let isNode := ((← get).terms.info term).isNode
  if (isNode || info.exported.isSome) && rule.params.isEmpty then
    if info.name.isNone then modifyTerm term fun t => { t with preserved := true }
    if !inPlace then nameTerm (info.exported.getD rule.id.name) term

/-- Builds a rule with arguments. Rules in place are built anew each time. -/
def buildRule (again : Normalizer) (rule : RuleDecl) (args : List Expr) (skip : Term)
    (inPlace : Bool) : Build Term := do
  let body ← check (rule.bodyWith args)
  let info ← ruleInfo (if inPlace then .inlineRule else .rule) rule args
  let start := some rule.id.start
  if info.exported.isSome && !rule.params.isEmpty then warn .exportedParameters start
  if info.exported.isSome && inPlace then warn .exportedInline start
  let term ← newTerm {
    name := instanceName rule args, kind := .nonterminal,
    nodeName := info.name, props := info.props }
  registerRule rule inPlace info term
  if !inPlace then
    modify fun d => { d with
      ruleInstances := d.ruleInstances ++ [⟨rule.id.name, args, term⟩] }
  let phrases ← again skip body
  if phraseLimit body < phrases.length then
    warn (.manyChoices rule.id.name phrases.length) start
  addRules term skip phrases
  if let some group := info.group then
    modify fun d => { d with groups := d.groups ++ [⟨term, group, rule.id⟩] }
  return term

/-- The external token with a name. -/
def externalToken? (d : Draft) (name : String) : Option Term :=
  (d.externalTokens ++ d.externalSpecializers).findSome? fun e => e.tokens.lookup name

/-- The symbol that a reference stands for. -/
def resolve (again : Normalizer) (start : Nat) (name : String) (args : List Expr) :
    Build Term := do
  let known := (← get).ruleInstances.find? fun i => i.name == name && Expr.allSame i.args args
  if let some i := known then return i.term
  if let some term ← token? start name args then return term
  let d ← get
  if let some term := externalToken? d name then
    markUsed name
    return term
  match d.scope.find? fun s => s.rule.id.name == name with
  | none => raise (.undefinedRule name) (some start)
  | some ⟨skip, rule⟩ =>
    if rule.params.length != args.length then raise (.ruleArity name) (some start)
    markUsed name
    buildRule again rule args skip false

/-- The symbol for one or more of an expression: a single one, or two shorter
repeats. -/
def repeatTerm (again : Normalizer) (skip : Term) (body : Expr) : Build Term := do
  let known := (← get).repeatInstances.find? fun i => i.skip == skip && i.body.same body
  if let some i := known then return i.term
  let name := (Expr.repeated body.start body .plus).shown
  let term ← newTerm { name, kind := .repeating }
  modify fun d => { d with repeatInstances := d.repeatInstances ++ [⟨body, skip, term⟩] }
  let phrases ← again skip body
  addRules term skip (phrases ++ [⟨[term, term], [.none, .none, .none]⟩])
  return term

/-! ## §2 Expressions -/

/-- The phrases of an expression. -/
def normalizeWith (again : Normalizer) (skip : Term) (e : Expr) : Build (List Phrase) := do
  match e with
  | .repeated _ body .optional => return .empty :: (← again skip body)
  | .repeated _ body .plus => return [.single (← repeatTerm again skip body)]
  | .repeated _ body .star => return [.empty, .single (← repeatTerm again skip body)]
  | .choice _ alternatives => return (← alternatives.mapM (again skip)).flatten
  | .sequence _ elements markers =>
    let phrases ← elements.mapM (again skip)
    let items := ((← read).decl.precedences.map PrecedenceDecl.items).getD []
    let gaps ← check (markers.mapM (GapMarks.ofMarkers items))
    return sequencePhrases phrases gaps .empty .none
  | .literal _ value => return [.single (← literalToken value)]
  | .name start name args => return [.single (← resolve again start name args)]
  | .specialize start kind props token content =>
    let info ← check (NodeInfo.ofDeclaration (← read).decl .token none {} props)
    let phrases ← again skip token
    return [.single (← specializeToken start kind info token content phrases)]
  | .inlineRule start id props body =>
    let rule : RuleDecl := { id := ⟨start, id⟩, props, params := [], body }
    return [.single (← buildRule again rule [] skip true)]
  | .charClass _ .eof => return [.single .eof]
  | .set start _ _ | .any start | .charClass start _ =>
    raise (.notInRule e.shown) (some start)

/-- The phrases of an expression, going at most `fuel` levels deep. -/
def normalizeTo : (fuel : Nat) → Normalizer
  | 0, _, e => raise .unfinished (some e.start)
  | fuel + 1, skip, e => normalizeWith (normalizeTo fuel) skip e

/-- The phrases of an expression where `skip` is skipped. Without parameters
every rule and every repeat is entered once, so the depth is bounded by the
length of the text. -/
def normalize : Normalizer := fun skip e => do
  let depth := (← read).source.text.length + 64
  normalizeTo (depth * depth) skip e

end GrammarCompiler.Build
