/-
GrammarCompiler.Tokenizer.Precedence — which tokens win over others.

Declarations put some tokens before others. Where two tokens of such
declarations overlap softly, the longer match goes first. All of this together
is brought into one order.

  §1 Relations — which tokens a token comes after.
  §2 Order     — a list in which every token comes after those.
-/
import GrammarCompiler.Fault
import GrammarCompiler.Tokenizer.Overlap

namespace GrammarCompiler

/-! ## §1 Relations -/

/-- A token and tokens that come before it. -/
structure TokenRank where
  term : Term
  after : List Term
deriving DecidableEq

namespace TokenRank

/-- Adds tokens to those that come before a token. -/
def addAfter (r : TokenRank) (after : List Term) : TokenRank :=
  ⟨r.term, after.foldl Term.addNew r.after⟩

/-- Puts tokens before a token. -/
def add (ranks : List TokenRank) (term : Term) (after : List Term) : List TokenRank :=
  if ranks.any fun r => r.term == term then
    ranks.map fun r => if r.term == term then r.addAfter after else r
  else ranks ++ [⟨term, after⟩]

/-- Whether `before` was put before a token. -/
def precedes (ranks : List TokenRank) (before term : Term) : Bool :=
  ranks.any fun r => r.term == term && r.after.contains before

/-- Puts the longer match of a soft overlap before the shorter one, if there
are relations for both. -/
def addOverlap (ranks : List TokenRank) (o : Overlap) : List TokenRank :=
  if (ranks.any fun r => r.term == o.first) && ranks.any fun r => r.term == o.second then
    let (longer, shorter) := if o.soft < 0 then (o.second, o.first) else (o.first, o.second)
    add (add ranks shorter [longer]) longer []
  else ranks

/-! ## §2 Order -/

/-- Takes an element out of a list. The last one takes its place. -/
def takeOut (ranks : List TokenRank) (i : Nat) : List TokenRank :=
  match ranks.getLast? with
  | none => []
  | some last => (ranks.set i last).dropLast

/-- Places tokens one by one, each when all that come before it are placed. -/
def place (names : Term → String) :
    (count : Nat) → (ranks : List TokenRank) → (placed : List Term) →
    Except BuildError (List Term)
  | 0, _, placed => .ok placed
  | count + 1, ranks, placed =>
    match ranks.findIdx? fun r => r.after.all placed.contains with
    | some i =>
      let term := (ranks[i]?.map TokenRank.term).getD .error
      place names count (takeOut ranks i) (Term.addNew placed term)
    | none =>
      .error (.grammar (.cyclicTokenPrecedence (ranks.map fun r => names r.term)) none)

/-- The tokens that relations are about, those that win first. -/
def order (names : Term → String) (ranks : List TokenRank) (soft : List Overlap) :
    Except BuildError (List Term) :=
  let ranks := soft.foldl addOverlap ranks
  place names ranks.length ranks []

end TokenRank

end GrammarCompiler
