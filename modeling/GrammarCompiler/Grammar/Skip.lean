/-
GrammarCompiler.Grammar.Skip — what may be skipped between tokens.

A token that is to be skipped on its own needs no states: the tables say that
it is skipped. Anything else that may be skipped is read by states of its own.

  §1 Entries  — how the rules of a symbol are skipped.
  §2 Skipping — all symbols for things to skip, and the rules that remain.
-/
import GrammarCompiler.Grammar.First

namespace GrammarCompiler

/-! ## §1 Entries -/

/-- How a symbol is skipped: `direct` are the tokens that are skipped on their
own, `starts` those that anything skipped can begin with. -/
structure SkipEntry where
  term : Term
  direct : List Term
  hasStates : Bool
  starts : List Term
deriving DecidableEq, Inhabited

namespace SkipEntry

/-- Whether a rule is a single token that no other rule begins with. -/
def isDirect (g : Grammar) (rules : List Rule) (r : Rule) : Bool :=
  match r.parts with
  | [t] => g.isTerminal t && (rules.countP fun other => other.parts.head? == some t) == 1
  | _ => false

/-- The tokens that a rule can begin with, going by its first part. -/
def startsOf (g : Grammar) (table : FirstTable) (r : Rule) : List Term :=
  match r.parts with
  | [] => []
  | part :: _ =>
    if g.isTerminal part then [part] else (table.first part).terminals.toList

/-- How a symbol is skipped. -/
def ofTerm (g : Grammar) (table : FirstTable) (term : Term) : SkipEntry :=
  let rules := g.rulesFor term
  { term
    direct := (rules.filter (isDirect g rules)).flatMap fun r => r.parts
    hasStates := rules.any fun r => !r.parts.isEmpty && !isDirect g rules r
    starts := (rules.flatMap (startsOf g table)).foldl Term.addNew [] }

end SkipEntry

/-! ## §2 Skipping -/

/-- How everything is skipped. -/
structure Skipping where
  entries : List SkipEntry
deriving DecidableEq

namespace Skipping

/-- How the symbols of a list are skipped. -/
def ofTerms (g : Grammar) (table : FirstTable) (terms : List Term) : Skipping :=
  ⟨terms.map (SkipEntry.ofTerm g table)⟩

/-- How a symbol is skipped. -/
def entry (s : Skipping) (term : Term) : SkipEntry :=
  (s.entries.find? fun e => e.term == term).getD (s.entries.headD default)

/-- The place of a symbol in the list. -/
def index (s : Skipping) (term : Term) : Nat :=
  (s.entries.findIdx? fun e => e.term == term).getD 0

/-- The tokens that something skipped can begin with. -/
def starts (s : Skipping) (term : Term) : List Term :=
  (s.entry term).starts

/-- The symbols with states of their own. -/
def withStates (s : Skipping) : List Term :=
  (s.entries.filter SkipEntry.hasStates).map SkipEntry.term

/-- Whether a rule needs no states: it is for something that is skipped, and
is empty or a token skipped on its own. -/
def needsNoStates (s : Skipping) (g : Grammar) (r : Rule) : Bool :=
  (s.entries.any fun e => e.term == r.name) &&
    (r.parts.isEmpty || SkipEntry.isDirect g (g.rulesFor r.name) r)

/-- The grammar without the rules that need no states. -/
def prune (s : Skipping) (g : Grammar) : Grammar :=
  { g with rules := g.rules.filter fun r => !s.needsNoStates g r }

end Skipping

end GrammarCompiler
