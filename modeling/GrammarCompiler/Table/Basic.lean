/-
GrammarCompiler.Table.Basic — everything a parser needs to run.

Symbols and states are numbers here, and what states do is packed into lists
of numbers that refer to one another by address.
-/
import GrammarCompiler.Draft.Node

namespace GrammarCompiler

/-! ## §1 Parts -/

/-- A name that is imported from a module. -/
structure ExternalRef where
  name : String
  source : String
deriving DecidableEq

/-- A name that a declaration imports. -/
def ExternalDecl.ref (d : ExternalDecl) : ExternalRef :=
  ⟨d.id.name, d.source⟩

/-- A tokenizer: a group of the main one, or an external one. -/
inductive TokenizerRef where
  | group (id : Nat)
  | external (ref : ExternalRef)
deriving DecidableEq

/-- The values of a prop, each with the nodes that have it. -/
structure PropTable where
  prop : PropSource
  values : List (String × List Nat)
deriving DecidableEq

/-- How a token is specialized: by a table of texts, or by a function. A text
comes with twice the number of the token that it makes, plus one if that comes
in addition. -/
inductive Specializer where
  | table (term : Nat) (name : String) (values : List (String × Nat))
  | external (term : Nat) (ref : ExternalRef) (extend : Bool)
deriving DecidableEq

/-- A state: flags, the address of its actions, the address of what is
skipped, the tokenizers it uses as bits, and the words for its default and
its forced reduction. -/
structure StateRecord where
  flags : Nat
  actions : Nat
  skip : Nat
  tokenizers : Nat
  defaultReduction : Nat
  forcedReduction : Nat
deriving DecidableEq

/-- A record as a list of numbers. -/
def StateRecord.toList (r : StateRecord) : List Nat :=
  [r.flags, r.actions, r.skip, r.tokenizers, r.defaultReduction, r.forcedReduction]

/-- A top rule: its name, its state and its number. -/
structure TopEntry where
  name : String
  state : Nat
  term : Nat
deriving DecidableEq

/-! ## §2 Tables -/

/-- Everything a parser needs to run. -/
structure ParserTables where
  states : List StateRecord
  stateData : List Nat
  goto : List Nat
  nodeNames : List String
  nodeProps : List PropTable
  skippedNodes : List Nat
  maxTerm : Nat
  repeatNodeCount : Nat
  tokenData : List Nat
  tokenizers : List TokenizerRef
  topRules : List TopEntry
  dialects : List (String × Nat)
  dynamicPrecedences : List (Nat × Int)
  specialized : List Specializer
  tokenPrecedence : Nat
  termNames : List (Nat × String)
  terms : NameMap Nat
  context : Option ExternalRef
  propSources : List ExternalRef
deriving DecidableEq

/-- The number of the end of the input. It comes right after the nodes. -/
def ParserTables.eofTerm (t : ParserTables) : Nat :=
  t.nodeNames.length + t.repeatNodeCount

end GrammarCompiler
