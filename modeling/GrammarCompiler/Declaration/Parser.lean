/-
GrammarCompiler.Declaration.Parser — declarations from tokens.

A reader takes tokens from the front and answers what it found. Moving on to
a place where the text is no token raises the fault of that place; nothing is
ever read twice.

  §1 Readers      — looking at a token, and taking one that has to be there.
  §2 Lists        — what stands between brackets. Every round takes a token,
                    except that the first item of a list can be empty, so the
                    number of tokens left bounds the rounds.
  §3 Rules        — names, properties and parameters.
  §4 Expressions  — from repeats up to choices. Each level of nesting takes a
                    token, so the number of tokens bounds the depth and the
                    lengths of all lists on the way.
  §5 Declarations — one by one, and a whole grammar.
-/
import GrammarCompiler.Declaration.Basic
import GrammarCompiler.Declaration.Lexer

namespace GrammarCompiler

open Text

/-- A reader of tokens. -/
abbrev Reader := StateT Tokens (Except SyntaxError)

namespace Reader

/-! ## §1 Readers -/

/-- Gives up with a fault at an offset. -/
def fail (fault : SyntaxFault) (offset : Nat) : Reader α :=
  throw ⟨fault, offset⟩

/-- Where the next token starts. -/
def offset : Reader Nat := do
  match ← get with
  | .cons start _ _ => return start
  | .done start => return start
  | .broken _ offset => return offset

/-- The next token, if there is one. -/
def peek : Reader (Option Token) := do
  match ← get with
  | .cons _ token _ => return some token
  | _ => return none

/-- Continues with other tokens, unless the text is broken there. -/
def continueAt : Tokens → Reader Unit
  | .broken fault offset => fail fault offset
  | tokens => set tokens

/-- Takes the next token. -/
def advance : Reader Unit := do
  match ← get with
  | .cons _ _ rest => continueAt rest
  | _ => return ()

/-- Gives up because of the next token. -/
def unexpected : Reader α := do
  match ← peek with
  | some token => fail (.unexpectedToken token.describe) (← offset)
  | none => fail (.unexpectedToken "end of file") (← offset)

/-- Whether a token comes next. -/
def nextIs (token : Token) : Reader Bool := do
  return (← peek) == some token

/-- Takes a token if it comes next. -/
def eat (token : Token) : Reader Bool := do
  if ← nextIs token then
    advance
    return true
  else return false

/-- Takes a token that has to come next. -/
def expect (token : Token) : Reader Unit := do
  unless ← eat token do unexpected

/-- Takes a name. -/
def ident : Reader Ident := do
  match ← get with
  | .cons start (.name text) rest =>
    continueAt rest
    return ⟨start, text⟩
  | _ => unexpected

/-- Takes a string. -/
def string : Reader String := do
  match ← get with
  | .cons _ (.string value) rest =>
    continueAt rest
    return value
  | _ => unexpected

/-! ## §2 Lists -/

/-- Items up to a closing token, which is taken, with commas between
them. -/
def itemsFrom (close : Token) (item : Reader α) :
    (fuel : Nat) → (first : Bool) → Reader (List α)
  | 0, _ => do fail .nestingTooDeep (← offset)
  | fuel + 1, first => do
    if ← eat close then return []
    unless first do expect (.punct ',')
    let x ← item
    let xs ← itemsFrom close item fuel false
    return x :: xs

/-- Items with commas between them, up to a closing token. -/
def items (close : Token) (item : Reader α) : Reader (List α) := do
  itemsFrom close item ((← get).length + 2) true

/-- Updates a value item by item, up to a closing token, which is taken. -/
def foldUntil (close : Token) (step : β → Reader β) : (fuel : Nat) → β → Reader β
  | 0, _ => do fail .nestingTooDeep (← offset)
  | fuel + 1, value => do
    if ← eat close then return value
    foldUntil close step fuel (← step value)

/-- Updates a value item by item, up to the closing brace. -/
def block (value : β) (step : β → Reader β) : Reader β := do
  foldUntil (.punct '}') step ((← get).length + 1) value

/-! ## §3 Rules -/

/-- The pieces of a property value, as long as there are any. -/
def propParts : (fuel : Nat) → Reader (List PropPart)
  | 0 => do fail .nestingTooDeep (← offset)
  | fuel + 1 => do
    let start ← offset
    match ← peek with
    | some (.name text) =>
      advance
      return .text start text :: (← propParts fuel)
    | some (.string value) =>
      advance
      return .text start value :: (← propParts fuel)
    | some (.punct '.') =>
      advance
      return .text start "." :: (← propParts fuel)
    | some (.punct '{') =>
      advance
      let id ← ident
      expect (.punct '}')
      return .parameter start id.name :: (← propParts fuel)
    | _ => return []

/-- The value of a property, if an equals sign announces one. -/
def propValue : Reader (List PropPart) := do
  if ← eat (.punct '=') then propParts ((← get).length + 1) else return []

/-- A property. -/
def prop : Reader NodeProp := do
  let start ← offset
  match ← peek with
  | some (.atName name) =>
    advance
    return ⟨start, true, name, ← propValue⟩
  | some (.name name) =>
    advance
    return ⟨start, false, name, ← propValue⟩
  | _ => unexpected

/-- Properties in brackets, if there are any. -/
def props : Reader (List NodeProp) := do
  if ← eat (.punct '[') then items (.punct ']') prop else return []

/-- The parameters of a rule, if there are any. -/
def params : Reader (List Ident) := do
  if ← eat (.punct '<') then items (.punct '>') ident else return []

/-- What follows the name of a rule. -/
def ruleAfter (expr : Reader Expr) (id : Ident) : Reader RuleDecl := do
  let props ← props
  let params ← params
  expect (.punct '{')
  let body ← expr
  expect (.punct '}')
  return ⟨id, props, params, body⟩

/-! ## §4 Expressions -/

/-- Arguments, if there are any. -/
def args (expr : Reader Expr) : Reader (List Expr) := do
  if ← eat (.punct '<') then items (.punct '>') expr else return []

/-- A specialization, from behind its keyword on. -/
def specialization (expr : Reader Expr) (start : Nat) (kind : SpecializeKind) :
    Reader Expr := do
  let props ← props
  expect (.punct '<')
  let token ← expr
  unless ← eat (.punct ',') do fail (.missingSpecialization kind.name) (← offset)
  let content ← expr
  expect (.punct '>')
  return .specialize start kind props token content

/-- An expression that starts with a name: the any-character expression, an
inline rule, or a reference. -/
def named (expr : Reader Expr) : Reader Expr := do
  let id ← ident
  if id.name = "_" then return .any id.start
  match ← peek with
  | some (.punct '[') | some (.punct '{') =>
    let rule ← ruleAfter expr id
    unless rule.params.isEmpty do fail .inlineParameters id.start
    return .inlineRule id.start id.name rule.props rule.body
  | _ => return .name id.start id.name (← args expr)

/-- An expression without a repeat sign behind it. -/
def primary (expr : Reader Expr) : Reader Expr := do
  let start ← offset
  match ← peek with
  | some (.punct '(') =>
    advance
    if ← eat (.punct ')') then return Expr.empty start
    let inner ← expr
    expect (.punct ')')
    return inner
  | some (.string value) =>
    advance
    return .literal start value
  | some (.set ranges inverted) =>
    advance
    return .set start ranges inverted
  | some (.atName "specialize") =>
    advance
    specialization expr start .specialize
  | some (.atName "extend") =>
    advance
    specialization expr start .extend
  | some (.atName name) =>
    match CharClass.ofName? name with
    | some cls =>
      advance
      return .charClass start cls
    | none => fail (.unknownClass name) start
  | some (.name _) => named expr
  | _ => unexpected

/-- The repetition that a token is the sign of. -/
def repeatKind? : Option Token → Option RepeatKind
  | some (.punct '*') => some .star
  | some (.punct '+') => some .plus
  | some (.punct '?') => some .optional
  | _ => none

/-- Wraps an expression in the repeats whose signs follow it. -/
def repeatsFrom (start : Nat) : (fuel : Nat) → Expr → Reader Expr
  | 0, _ => do fail .nestingTooDeep (← offset)
  | fuel + 1, body => do
    match repeatKind? (← peek) with
    | some kind =>
      advance
      repeatsFrom start fuel (.repeated start body kind)
    | none => return body

/-- An expression with repeat signs behind it. -/
def suffixed (expr : Reader Expr) (fuel : Nat) : Reader Expr := do
  let start ← offset
  let body ← primary expr
  repeatsFrom start fuel body

/-- The markers of a gap. -/
def gap : (fuel : Nat) → Reader (List Marker)
  | 0 => do fail .nestingTooDeep (← offset)
  | fuel + 1 => do
    let start ← offset
    match ← peek with
    | some (.punct '~') =>
      advance
      let id ← ident
      return ⟨start, .ambiguity, id⟩ :: (← gap fuel)
    | some (.punct '!') =>
      advance
      let id ← ident
      return ⟨start, .precedence, id⟩ :: (← gap fuel)
    | _ => return []

/-- Whether a token, or the end of the text, ends a sequence. -/
def endsSequence : Option Token → Bool
  | none => true
  | some (.punct c) => ['}', ')', '|', ']', ',', '>'].contains c
  | some _ => false

/-- The elements of a sequence and the markers around them. -/
def elements (expr : Reader Expr) : (fuel : Nat) → Reader (List Expr × List (List Marker))
  | 0 => do fail .nestingTooDeep (← offset)
  | fuel + 1 => do
    let markers ← gap (fuel + 1)
    if endsSequence (← peek) then return ([], [markers])
    let first ← suffixed expr (fuel + 1)
    let (rest, gaps) ← elements expr fuel
    return (first :: rest, markers :: gaps)

/-- A sequence. A single element without markers stands for itself. -/
def sequence (expr : Reader Expr) (fuel : Nat) : Reader Expr := do
  let start ← offset
  let (parts, gaps) ← elements expr fuel
  match parts with
  | [only] =>
    if gaps.all (·.isEmpty) then return only else return .sequence start parts gaps
  | _ => return .sequence start parts gaps

/-- The alternatives of a choice. -/
def alternatives (expr : Reader Expr) : (fuel : Nat) → Reader (List Expr)
  | 0 => do fail .nestingTooDeep (← offset)
  | fuel + 1 => do
    let first ← sequence expr (fuel + 1)
    if ← eat (.punct '|') then return first :: (← alternatives expr fuel)
    else return [first]

/-- A choice. A single alternative stands for itself. -/
def choice (expr : Reader Expr) (fuel : Nat) : Reader Expr := do
  let start ← offset
  match ← alternatives expr fuel with
  | [only] => return only
  | several => return .choice start several

/-- An expression that is nested less than `fuel` deep, with less than `fuel`
items in each of its lists. -/
def exprWithin : (fuel : Nat) → Reader Expr
  | 0 => do fail .nestingTooDeep (← offset)
  | fuel + 1 => choice (exprWithin fuel) (fuel + 1)

/-- An expression. Every level of nesting and every item takes a token. -/
def expr : Reader Expr := do
  exprWithin ((← get).length + 1)

/-! ## §5 Declarations -/

/-- A rule. -/
def rule : Reader RuleDecl := do
  ruleAfter expr (← ident)

/-- An item of the precedence list. -/
def precedenceItem : Reader PrecedenceItem := do
  let id ← ident
  if ← eat (.atName "left") then return ⟨id, some .left⟩
  if ← eat (.atName "right") then return ⟨id, some .right⟩
  if ← eat (.atName "cut") then return ⟨id, some .cut⟩
  return ⟨id, none⟩

/-- The precedence list behind its keyword. -/
def precedence (start : Nat) : Reader PrecedenceDecl := do
  expect (.punct '{')
  let items ← items (.punct '}') precedenceItem
  return ⟨start, items⟩

/-- The name or the literal of a token. -/
def tokenName : Reader Expr := do
  let start ← offset
  match ← peek with
  | some (.string value) =>
    advance
    return .literal start value
  | some (.name _) =>
    let id ← ident
    return .name start id.name (← args expr)
  | _ => unexpected

/-- Names and literals of tokens in braces. -/
def tokenNames : Reader (List Expr) := do
  expect (.punct '{')
  items (.punct '}') tokenName

/-- An item of the block of tokens. -/
def tokensItem (decl : TokensDecl) : Reader TokensDecl := do
  let start ← offset
  match ← peek with
  | some (.atName "precedence") =>
    advance
    let items ← tokenNames
    return { decl with precedences := decl.precedences ++ [⟨start, items⟩] }
  | some (.atName "conflict") =>
    advance
    match ← tokenNames with
    | [first, second] =>
      return { decl with conflicts := decl.conflicts ++ [⟨start, first, second⟩] }
    | _ => fail .conflictArity start
  | some (.string literal) =>
    advance
    let props ← props
    return { decl with literals := decl.literals ++ [⟨start, literal, props⟩] }
  | _ => return { decl with rules := decl.rules ++ [← rule] }

/-- The block of tokens behind its keyword. -/
def tokensBlock (start : Nat) : Reader TokensDecl := do
  expect (.punct '{')
  block { start } tokensItem

/-- The source of something imported. -/
def fromSource : Reader String := do
  expect (.name "from")
  string

/-- A token of an external tokenizer or specializer. -/
def externalToken : Reader ExternalToken := do
  let id ← ident
  return ⟨id, ← props⟩

/-- The tokens of an external tokenizer or specializer. -/
def externalTokens : Reader (List ExternalToken) := do
  expect (.punct '{')
  items (.punct '}') externalToken

/-- An external declaration, from behind its keyword on. -/
def external (start : Nat) (g : GrammarDecl) : Reader GrammarDecl := do
  let kind ← ident
  match kind.name with
  | "tokens" =>
    let id ← ident
    let source ← fromSource
    let tokens ← externalTokens
    return { g with
      externalTokens := g.externalTokens ++ [⟨⟨start, id, source⟩, tokens⟩] }
  | "prop" =>
    let externalId ← ident
    let id ← if ← eat (.name "as") then ident else pure externalId
    let source ← fromSource
    return { g with
      externalProps := g.externalProps ++ [⟨⟨start, id, source⟩, externalId⟩] }
  | "propSource" =>
    let id ← ident
    let source ← fromSource
    return { g with
      externalPropSources := g.externalPropSources ++ [⟨start, id, source⟩] }
  | "extend" => specializer g .extend
  | "specialize" => specializer g .specialize
  | _ => fail (.unknownExternal kind.name) kind.start
where
  /-- An external specializer, from behind its kind on. -/
  specializer (g : GrammarDecl) (kind : SpecializeKind) : Reader GrammarDecl := do
    expect (.punct '{')
    let token ← expr
    expect (.punct '}')
    let id ← ident
    let source ← fromSource
    let tokens ← externalTokens
    return { g with
      externalSpecializers :=
        g.externalSpecializers ++ [⟨⟨start, id, source⟩, kind, token, tokens⟩] }

/-- A rule with a skip expression of its own. -/
def scopeItem (scope : ScopedSkip) : Reader ScopedSkip := do
  if ← eat (.atName "top") then
    return { scope with topRules := scope.topRules ++ [← rule] }
  else return { scope with rules := scope.rules ++ [← rule] }

/-- Skipping, from behind its keyword on: for the whole grammar, or for the
rules in the block that follows. -/
def skip (start : Nat) (g : GrammarDecl) : Reader GrammarDecl := do
  expect (.punct '{')
  let skipped ← expr
  expect (.punct '}')
  if ← eat (.punct '{') then
    let scope ← block ⟨skipped, [], []⟩ scopeItem
    return { g with scopedSkips := g.scopedSkips ++ [scope] }
  else
    if g.mainSkip.isSome then fail .repeatedSkip start
    return { g with mainSkip := some skipped }

/-- A declaration. -/
def declaration (g : GrammarDecl) : Reader GrammarDecl := do
  let start ← offset
  match ← peek with
  | some (.atName "top") =>
    advance
    return { g with topRules := g.topRules ++ [← rule] }
  | some (.atName "tokens") =>
    advance
    if g.tokens.isSome then fail .repeatedTokens start
    return { g with tokens := some (← tokensBlock start) }
  | some (.atName "context") =>
    advance
    if g.context.isSome then fail .repeatedContext start
    let id ← ident
    let source ← fromSource
    return { g with context := some ⟨start, id, source⟩ }
  | some (.atName "external") =>
    advance
    external start g
  | some (.atName "precedence") =>
    advance
    if g.precedences.isSome then fail .repeatedPrecedence start
    return { g with precedences := some (← precedence start) }
  | some (.atName "dialects") =>
    advance
    if g.dialects.isSome then fail .repeatedDialects start
    expect (.punct '{')
    return { g with dialects := some (← items (.punct '}') ident) }
  | some (.atName "detectDelim") =>
    advance
    return { g with detectDelimiters := true }
  | some (.atName "skip") =>
    advance
    skip start g
  | _ => return { g with rules := g.rules ++ [← rule] }

/-- Declarations up to the end of the text. -/
def declarations : (fuel : Nat) → GrammarDecl → Reader GrammarDecl
  | 0, _ => do fail .nestingTooDeep (← offset)
  | fuel + 1, g => do
    match ← peek with
    | none => return g
    | some _ => declarations fuel (← declaration g)

/-- A whole grammar. -/
def grammar : Reader GrammarDecl := do
  continueAt (← get)
  declarations ((← get).length + 1) {}

end Reader

/-- The declarations of a grammar text. -/
def GrammarDecl.parse (source : Source) : Except BuildError GrammarDecl :=
  match Reader.grammar (Lexer.tokens source.text) with
  | .ok (g, _) => .ok g
  | .error e => .error (.text e.fault (source.location e.offset))

end GrammarCompiler
