/-
GrammarCompiler.Draft.Basic — a grammar while its declarations are worked
through.

A `Draft` collects what declarations turn into: symbols, rules over symbols,
and an automaton for the tokens. What a declaration refers to is built when it
is first needed, and remembered.

  §1 Records    — what is remembered of rules, tokens and names.
  §2 Drafts     — everything collected so far.
  §3 Building   — actions on a draft. They can fail, and what they noted in
                  the journal stays.
-/
import GrammarCompiler.Declaration.Basic
import GrammarCompiler.Declaration.Printer
import GrammarCompiler.Fault
import GrammarCompiler.Grammar.Rule
import GrammarCompiler.Journal
import GrammarCompiler.Tokenizer.Nfa
import GrammarCompiler.Tokenizer.Origin

namespace GrammarCompiler

open Text

/-! ## §1 Records -/

/-- A declared name. `unusedAt` is where it was declared, until it is used. -/
structure DeclaredName where
  name : String
  unusedAt : Option Nat
deriving DecidableEq

/-- The symbol of a rule with given arguments. -/
structure RuleInstance where
  name : String
  args : List Expr
  term : Term

/-- The symbol of a repeated expression. Repeats are shared where the same
things are skipped. -/
structure RepeatInstance where
  body : Expr
  skip : Term
  term : Term

/-- What a token is read by: a token rule with arguments, or a literal. -/
inductive TokenKey where
  | rule (name : String) (args : List Expr)
  | literal (value : String)

namespace TokenKey

/-- Whether a token is read by the same thing. -/
def same : TokenKey → TokenKey → Bool
  | rule name args, rule name' args' => name == name' && Expr.allSame args args'
  | literal value, literal value' => value == value'
  | _, _ => false

/-- The token that an expression names, if it is a name or a literal. -/
def ofExpr? : Expr → Option TokenKey
  | .name _ name args => some (rule name args)
  | .literal _ value => some (literal value)
  | _ => none

/-- Whether a token is read by a rule with a given name. -/
def hasRule (name : String) : TokenKey → Bool
  | rule name' _ => name == name'
  | literal _ => false

end TokenKey

/-- The symbol of a token. -/
structure TokenInstance where
  key : TokenKey
  term : Term

/-- One case of a specialized token: the text, and the token it makes. -/
structure Specialization where
  value : String
  term : Term
  kind : SpecializeKind
  dialect : Option Nat
  nodeName : Option String
deriving DecidableEq

/-- The cases of a specialized token, in the order in which they were
declared. -/
structure SpecializationTable where
  base : Term
  cases : List Specialization

/-- Tokens by name, as an external declaration lists them. -/
structure ExternalGroup where
  tokens : List (String × Term)

/-- A rule whose symbol defines a group of nodes. -/
structure GroupDef where
  term : Term
  group : String
  rule : Ident

/-- A rule that is declared where `skip` is skipped. -/
structure ScopedRule where
  skip : Term
  rule : RuleDecl

/-! ## §2 Drafts -/

/-- Everything collected so far. -/
structure Draft where
  terms : TermTable := TermTable.initial
  rules : List Rule := []
  names : List DeclaredName := []
  scope : List ScopedRule := []
  ruleInstances : List RuleInstance := []
  repeatInstances : List RepeatInstance := []
  tokenInstances : List TokenInstance := []
  tokens : Nfa := ⟨#[{}]⟩
  namedTerms : NameMap Term := []
  dynamicPrecedences : List (Term × Int) := []
  dialectTokens : List (Nat × Term) := []
  externalTokens : List ExternalGroup := []
  externalSpecializers : List ExternalGroup := []
  specializedBy : List Term := []
  specializations : List SpecializationTable := []
  origins : TokenOrigins := []
  groups : List GroupDef := []
  skipTerms : List Term := []
  noSkip : Term := Term.eof
  journal : Journal := {}

namespace Draft

/-- The state of the token automaton where all tokens start. -/
def tokenStart : Nat := 0

/-- The symbol of a token that has been built. -/
def tokenFor? (d : Draft) (key : TokenKey) : Option Term :=
  (d.tokenInstances.find? fun i => i.key.same key).map TokenInstance.term

/-- The tokens that belong to a dialect, in the order in which they were
built. -/
def tokensOfDialect (d : Draft) (dialect : Nat) : List Term :=
  (d.dialectTokens.filter fun entry => entry.1 == dialect).map Prod.snd

end Draft

/-! ## §3 Building -/

/-- A grammar text and its declarations. -/
structure Declared where
  source : Source
  decl : GrammarDecl

/-- What is wrong with a declaration, and where it is written. -/
abbrev FaultAt := GrammarFault × Option Nat

/-- An action on a draft. -/
abbrev Build := ReaderT Declared (EStateM BuildError Draft)

namespace Build

/-- Fails with a fault at a place in the text. -/
def raise (fault : GrammarFault) (start : Option Nat) : Build α := do
  let location := start.map (← read).source.location
  throw (.grammar fault location)

/-- The result of a check, or its fault. -/
def check (result : Except FaultAt α) : Build α :=
  match result with
  | .ok a => pure a
  | .error (fault, start) => raise fault start

/-- Notes a warning about a place in the text. -/
def warn (warning : Warning) (start : Option Nat) : Build Unit := do
  let location := start.map (← read).source.location
  let event := Event.warning (located warning.message location)
  modify fun d => { d with journal := d.journal.note event }

/-- Declares a name, which must not have been declared before. -/
def declareName (id : Ident) : Build Unit := do
  if (← get).names.any fun n => n.name == id.name then
    raise (.duplicateRule id.name) (some id.start)
  modify fun d => { d with names := d.names ++ [⟨id.name, some id.start⟩] }

/-- Notes that a name is used. -/
def markUsed (name : String) : Build Unit :=
  modify fun d => { d with
    names := d.names.map fun n => if n.name == name then { n with unusedAt := none } else n }

/-- Creates a symbol. Its name is changed if it is taken. -/
def newTerm (info : TermInfo) : Build Term :=
  modifyGet fun d =>
    let (term, terms) := d.terms.add { info with name := d.terms.freshName info.name }
    (term, { d with terms })

/-- Changes what is known about a symbol. -/
def modifyTerm (term : Term) (f : TermInfo → TermInfo) : Build Unit :=
  modify fun d => { d with terms := d.terms.modify term f }

/-- Gives a symbol a name in the list of terms. -/
def nameTerm (name : String) (term : Term) : Build Unit :=
  modify fun d => { d with namedTerms := d.namedTerms.insert name term }

/-- Tells where a token comes from. -/
def setOrigin (term : Term) (origin : TokenOrigin) : Build Unit :=
  modify fun d => { d with origins := (term, origin) :: d.origins }

/-- Restricts a token to a dialect, if one is given. -/
def restrictToDialect (dialect : Option Nat) (term : Term) : Build Unit :=
  match dialect with
  | none => pure ()
  | some id => modify fun d => { d with dialectTokens := d.dialectTokens ++ [(id, term)] }

/-- Adds a rule for each of several phrases. -/
def addRules (name skip : Term) (phrases : List Phrase) : Build Unit :=
  modify fun d =>
    let next := d.rules.length
    { d with
      rules := d.rules ++ phrases.zipIdx.map fun (body, i) =>
        { toPhrase := body, id := next + i, name, skip } }

end Build

end GrammarCompiler
