/-
GrammarCompiler.Grammar.Inline — replacing symbols by their rules.

Symbols that are marked for it, and small anonymous ones with a single rule,
are replaced by their rules wherever they occur. This goes on pass by pass
until nothing is left to replace: every pass takes the rules of at least one
symbol away, so there are at most as many passes as rules.

  §1 Choice    — which symbols are replaced in a pass.
  §2 Splicing  — the phrases that come out of a rule: one for every way to
                 choose a rule for each replaced part.
  §3 Passes    — replacing until nothing changes.
-/
import GrammarCompiler.Grammar.Rule

namespace GrammarCompiler

/-- The symbols to replace, each with its rules. -/
abbrev Replacements := List (Term × List Rule)

namespace Replacements

/-- Whether a symbol is replaced. -/
def has (r : Replacements) (t : Term) : Bool :=
  r.any fun entry => entry.1 == t

/-! ## §1 Choice -/

/-- The symbols marked for inlining whose rules do not contain them. -/
def marked (terms : TermTable) (rules : List Rule) : Replacements :=
  rules.foldl (fun chosen r =>
    if !(terms.info r.name).inlined || has chosen r.name then chosen
    else
      let group := rules.filter fun other => other.name == r.name
      if group.any fun other => other.parts.contains r.name then chosen
      else chosen ++ [(r.name, group)]) []

/-- Whether a rule is the only one of an anonymous symbol, is short, and can
take the symbol's place everywhere. A rule of several parts must not be taken
to where other things are skipped. Its parts stay for this pass. -/
def isSmall (terms : TermTable) (preserve : List Term) (rules : List Rule)
    (chosen : Replacements) (r : Rule) : Bool :=
  !(terms.info r.name).isDistinct && !r.parts.contains r.name && r.parts.length < 3 &&
    !preserve.contains r.name &&
    (r.parts.length == 1 ||
      rules.all fun other => other.skip == r.skip || !other.parts.contains r.name) &&
    !(r.parts.any chosen.has) &&
    (rules.countP fun other => other.name == r.name) == 1

/-- Adds the small anonymous symbols, looking at one rule after another. -/
def withSmall (terms : TermTable) (preserve : List Term) (rules : List Rule)
    (chosen : Replacements) : Replacements :=
  rules.foldl (fun chosen r =>
    if isSmall terms preserve rules chosen r then chosen ++ [(r.name, [r])] else chosen)
    chosen

/-- The symbols to replace in a pass. Marked symbols count in the first. -/
def choose (terms : TermTable) (preserve : List Term) (first : Bool) (rules : List Rule) :
    Replacements :=
  withSmall terms preserve rules (if first then marked terms rules else [])

/-! ## §2 Splicing -/

/-- The phrases for `parts`, each behind `done`. The marks of a gap that a
replacement borders on, or fills without parts, are joined. -/
def expandFrom (chosen : Replacements) : Phrase → List Term → List Marks → List Phrase
  | done, [], _ => [done]
  | done, part :: parts, gaps =>
    let after := gaps.headD Marks.none
    match chosen.lookup part with
    | none => expandFrom chosen ((done.append (.single part)).markEnd after) parts gaps.tail
    | some rules =>
      rules.flatMap fun inner =>
        expandFrom chosen ((done.append inner.toPhrase).markEnd after) parts gaps.tail

/-- The phrases that a rule becomes. -/
def expand (chosen : Replacements) (r : Rule) : List Phrase :=
  expandFrom chosen ⟨[], [r.marks.headD Marks.none]⟩ r.parts r.marks.tail

/-- The rules that a rule becomes, when `next` rules have been created: none
if its symbol is replaced, itself if none of its parts is. -/
def apply (chosen : Replacements) (next : Nat) (r : Rule) : List Rule :=
  if chosen.has r.name then []
  else if r.parts.any chosen.has then
    (chosen.expand r).zipIdx.map fun (body, i) =>
      { toPhrase := body, id := next + i, name := r.name, skip := r.skip }
  else [r]

/-- The number of rules that a rule creates. -/
def created (chosen : Replacements) (r : Rule) : Nat :=
  if !chosen.has r.name && r.parts.any chosen.has then (chosen.expand r).length else 0

/-- The rules that a list of rules becomes. -/
def applyAll (chosen : Replacements) : (next : Nat) → List Rule → List Rule × Nat
  | next, [] => ([], next)
  | next, r :: rules =>
    let (rest, last) := applyAll chosen (next + chosen.created r) rules
    (chosen.apply next r ++ rest, last)

end Replacements

/-! ## §3 Passes -/

/-- Rules after inlining: the number of rules created so far, and how many
symbols each pass replaced. -/
structure Inlining where
  rules : List Rule
  ruleCount : Nat
  passes : List Nat
deriving Repr

namespace Inlining

/-- Replaces symbols until there is nothing to replace. -/
def run (terms : TermTable) (preserve : List Term) :
    (fuel : Nat) → (first : Bool) → (ruleCount : Nat) → List Rule → Inlining
  | 0, _, ruleCount, rules => ⟨rules, ruleCount, []⟩
  | fuel + 1, first, ruleCount, rules =>
    let chosen := Replacements.choose terms preserve first rules
    if chosen.isEmpty then ⟨rules, ruleCount, []⟩
    else
      let (next, nextCount) := chosen.applyAll ruleCount rules
      let result := Inlining.run terms preserve fuel false nextCount next
      { result with passes := chosen.length :: result.passes }

/-- Inlines rules. The symbols of `preserve` stay. -/
def ofRules (terms : TermTable) (preserve : List Term) (ruleCount : Nat)
    (rules : List Rule) : Inlining :=
  Inlining.run terms preserve (rules.length + 1) true ruleCount rules

end Inlining

end GrammarCompiler
