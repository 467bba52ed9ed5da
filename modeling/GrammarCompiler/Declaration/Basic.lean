/-
GrammarCompiler.Declaration.Basic — the declarations of a grammar.

A `GrammarDecl` is what a grammar text says, in the order in which it says
it, before anything is looked up or checked.
-/
import GrammarCompiler.Declaration.Expr

namespace GrammarCompiler

/-! ## §1 Rules -/

/-- A rule: its name, properties, parameters and body. -/
structure RuleDecl where
  id : Ident
  props : List NodeProp
  params : List Ident
  body : Expr
deriving Repr, Inhabited

/-- Rules with a skip expression of their own. -/
structure ScopedSkip where
  expr : Expr
  topRules : List RuleDecl
  rules : List RuleDecl
deriving Repr

/-! ## §2 Precedences -/

/-- What an item of a precedence list does besides ranking: it makes
operators associate, or cuts off alternatives. -/
inductive Associativity where
  | left
  | right
  | cut
deriving DecidableEq, Repr

/-- An item of a precedence list. -/
structure PrecedenceItem where
  id : Ident
  assoc : Option Associativity
deriving DecidableEq, Repr

/-- A precedence list. Earlier items bind tighter. -/
structure PrecedenceDecl where
  start : Nat
  items : List PrecedenceItem
deriving Repr

/-! ## §3 Tokens -/

/-- An order of tokens that match the same text; earlier ones win. -/
structure TokenPrecedence where
  start : Nat
  items : List Expr
deriving Repr

/-- Two tokens that must never be read in the same place. -/
structure TokenConflictDecl where
  start : Nat
  first : Expr
  second : Expr
deriving Repr

/-- A literal that is listed among the tokens. -/
structure LiteralDecl where
  start : Nat
  literal : String
  props : List NodeProp
deriving Repr

/-- The block of token rules. -/
structure TokensDecl where
  start : Nat
  rules : List RuleDecl := []
  precedences : List TokenPrecedence := []
  conflicts : List TokenConflictDecl := []
  literals : List LiteralDecl := []
deriving Repr

/-! ## §4 Declarations of external things -/

/-- A name that is imported from a module. -/
structure ExternalDecl where
  start : Nat
  id : Ident
  source : String
deriving Repr

/-- A token that an external tokenizer or specializer produces. -/
structure ExternalToken where
  id : Ident
  props : List NodeProp
deriving Repr

/-- An external tokenizer with its tokens. -/
structure ExternalTokensDecl extends ExternalDecl where
  tokens : List ExternalToken
deriving Repr

/-- An external specializer of a token. -/
structure ExternalSpecializerDecl extends ExternalDecl where
  kind : SpecializeKind
  token : Expr
  tokens : List ExternalToken
deriving Repr

/-- An external property: `id` is its name in the grammar. -/
structure ExternalPropDecl extends ExternalDecl where
  externalId : Ident
deriving Repr

/-! ## §5 Grammars -/

/-- All declarations of a grammar. -/
structure GrammarDecl where
  rules : List RuleDecl := []
  topRules : List RuleDecl := []
  tokens : Option TokensDecl := none
  context : Option ExternalDecl := none
  externalTokens : List ExternalTokensDecl := []
  externalSpecializers : List ExternalSpecializerDecl := []
  externalPropSources : List ExternalDecl := []
  externalProps : List ExternalPropDecl := []
  precedences : Option PrecedenceDecl := none
  mainSkip : Option Expr := none
  scopedSkips : List ScopedSkip := []
  dialects : Option (List Ident) := none
  detectDelimiters : Bool := false
deriving Repr

/-- The names of the declared dialects. -/
def GrammarDecl.dialectNames (g : GrammarDecl) : List String :=
  (g.dialects.getD []).map Ident.name

/-- The token rules. -/
def GrammarDecl.tokenRules (g : GrammarDecl) : List RuleDecl :=
  (g.tokens.map TokensDecl.rules).getD []

end GrammarCompiler
