/-
GrammarCompiler.Tokenizer.Groups — which tokens are read together.

Tokens that conflict must not be looked for in the same state. Every state
that reads tokens belongs to a group, and the tokens with conflicts belong to
groups such that no group holds two that conflict. States take the first group
that fits, or make a new one.

  §1 Tokens    — what a state reads by the main tokenizer.
  §2 Conflicts — overlaps that no declared order settles, and declared ones.
  §3 Groups    — going through the states.
-/
import GrammarCompiler.Automaton.State
import GrammarCompiler.Grammar.Skip
import GrammarCompiler.Tokenizer.Origin
import GrammarCompiler.Tokenizer.Precedence

namespace GrammarCompiler

open Text

/-- The groups of tokens, and an automaton whose states know their groups.
`hard` are the conflicts that the groups keep apart; `soft` are the overlaps
that are left to precedence. -/
structure TokenGroups where
  states : Automaton
  groups : List (List Term)
  hard : List Overlap
  soft : List Overlap

namespace TokenGroups

/-! ## §1 Tokens -/

/-- The tokens that have an action in a state, and those that something
skipped there can begin with. -/
def usable (skips : Skipping) (s : State) : List Term :=
  s.terms ++ skips.starts s.skip

/-- The tokens that the main tokenizer has to read in a state. -/
def wanted (origins : TokenOrigins) (skips : Skipping) (s : State) : List Term :=
  ((usable skips s).filterMap origins.mainToken?).foldl Term.addNew []

/-- For each token, the set of states where it is usable, as bits. -/
def usage (skips : Skipping) (size : Nat) (states : Automaton) : Array Nat :=
  states.toList.zipIdx.foldl (fun usage (s, i) =>
    (usable skips s).foldl (fun usage t =>
      usage.modify t.index fun bits => bits ||| 1 <<< i) usage) (Array.replicate size 0)

/-- Whether two tokens are usable in the same state. -/
def together (usage : Array Nat) (a b : Term) : Bool :=
  usage[a.index]?.getD 0 &&& usage[b.index]?.getD 0 != 0

/-! ## §2 Conflicts -/

/-- The overlaps that matter: not those of tokens with a declared order, but
all declared conflicts. -/
def conflicts (ranks : List TokenRank) (declared : List (Term × Term))
    (overlaps : List Overlap) : List Overlap :=
  let unsettled := overlaps.filter fun o =>
    !TokenRank.precedes ranks o.second o.first && !TokenRank.precedes ranks o.first o.second
  declared.foldl (fun found (a, b) =>
    if found.any fun o => o.involves a b then found
    else found ++ [{ first := a, second := b, soft := 0 }]) unsettled

/-- The other token of a conflict. -/
def partner? (o : Overlap) (t : Term) : Option Term :=
  if o.first == t then some o.second
  else if o.second == t then some o.first
  else none

/-- Texts that show a conflict. -/
def sample (o : Overlap) : String :=
  if o.text.isEmpty then ""
  else
    match o.longerText with
    | some longer => s!" (example: {quoted o.text} vs {quoted longer})"
    | none => s!" (example: {quoted o.text})"

/-- Describes a conflict in a state. -/
def description (g : Grammar) (s : State) (o : Overlap) (token other : Term) : String :=
  let trail := (s.items.head?.map fun i => i.trail g 60).getD ""
  s!"Overlapping tokens {g.name token} and {g.name other} used in same context{sample o}" ++
    s!"\nAfter: {trail}"

/-! ## §3 Groups -/

/-- The groups so far, and the conflicts that were found within states, by
their place in the list of conflicts. -/
structure Progress where
  states : Array State := #[]
  groups : List (List Term) := []
  reported : List Nat := []
  descriptions : List String := []

/-- A conflict of a token that a state reads, with its place in the list. -/
structure Threat where
  token : Term
  other : Term
  conflict : Overlap
  index : Nat

/-- The conflicts of the tokens that a state reads. -/
def threats (hard : List Overlap) (wanted : List Term) : List Threat :=
  wanted.flatMap fun token =>
    hard.zipIdx.filterMap fun (conflict, index) =>
      (partner? conflict token).map fun other => { token, other, conflict, index }

/-- Reports a conflict between tokens that a state reads, once. -/
def report (g : Grammar) (s : State) (wanted : List Term) (p : Progress) (t : Threat) :
    Progress :=
  if wanted.contains t.other && !p.reported.contains t.index then
    { p with
      reported := t.index :: p.reported
      descriptions := p.descriptions ++ [description g s t.conflict t.token t.other] }
  else p

/-- Puts tokens into the first group that holds none of `apart`, or into a new
one. Returns the place of the group. -/
def place (groups : List (List Term)) (tokens apart : List Term) : Nat × List (List Term) :=
  match groups.findIdx? fun group => !apart.any group.contains with
  | some i => (i, groups.modify i fun group => tokens.foldl Term.addNew group)
  | none => (groups.length, groups ++ [tokens.foldl Term.addNew []])

/-- Finds the group of a state. States with a default reduction read no
tokens. -/
def assign (g : Grammar) (origins : TokenOrigins) (skips : Skipping)
    (hard : List Overlap) (p : Progress) (s : State) : Except BuildError Progress :=
  let unchanged := { p with states := p.states.push s }
  if s.defaultReduce.isSome then .ok unchanged
  else
    match (skips.starts s.skip).find? s.terms.contains with
    | some token => .error (.grammar (.tokenInSkip (g.name token)) none)
    | none =>
      let wanted := wanted origins skips s
      if wanted.isEmpty then .ok unchanged
      else
        let threats := threats hard wanted
        let p := threats.foldl (report g s wanted) p
        let (group, groups) := place p.groups (threats.map Threat.token) (threats.map Threat.other)
        .ok { p with states := p.states.push { s with group := some group }, groups }

/-- Splits conflicts into soft and hard ones and finds the groups of all
states. There can be sixteen groups. -/
def ofConflicts (g : Grammar) (origins : TokenOrigins) (skips : Skipping)
    (conflicts : List Overlap) (states : Automaton) : Except BuildError TokenGroups := do
  let (soft, hard) := conflicts.partition fun o => o.soft != 0
  let p ← states.foldlM (assign g origins skips hard) {}
  if !p.descriptions.isEmpty then throw (.tokenConflicts p.descriptions)
  if 16 < p.groups.length then throw (.capacity (.tokenGroups p.groups.length))
  return { states := p.states, groups := p.groups, hard, soft }

/-- The groups for a tokenizer and an automaton. -/
def ofAutomaton (g : Grammar) (origins : TokenOrigins) (skips : Skipping)
    (ranks : List TokenRank) (declared : List (Term × Term)) (tokenizer : Dfa)
    (states : Automaton) : Except BuildError TokenGroups :=
  let usage := usage skips g.terms.size states
  let overlaps := tokenizer.overlaps g.id (together usage)
  ofConflicts g origins skips (conflicts ranks declared overlaps) states

/-- The groups of each token as bits, by its number. -/
def masks (g : Grammar) (groups : List (List Term)) : Array Nat :=
  groups.zipIdx.foldl (fun masks (tokens, group) =>
    tokens.foldl (fun masks t => masks.modify (g.id t) fun bits => bits ||| 1 <<< group) masks)
    (Array.replicate (g.numbering.maxTerm + 1) 0)

end TokenGroups

end GrammarCompiler
