/-
GrammarCompiler.Grammar.Merge — anonymous symbols with the same rules.

The rules of a symbol stand next to each other. When two anonymous symbols
have rules that differ only in the name, the later symbol takes the place of
the earlier one; of several later ones the last does.
-/
import GrammarCompiler.Grammar.Rule

namespace GrammarCompiler.Merging

/-! ## §1 Groups -/

/-- The rules cut into stretches for one symbol each. -/
def groups (rules : List Rule) : List (List Rule) :=
  rules.splitBy fun a b => a.name == b.name

/-- The symbol that a stretch of rules is for. -/
def groupName (group : List Rule) : Option Term :=
  group.head?.map Rule.name

/-- Whether a stretch of rules is for a symbol that may be merged. -/
def isMergeable (terms : TermTable) (group : List Rule) : Bool :=
  match groupName group with
  | some name => !(terms.info name).isDistinct
  | none => false

/-- Whether two stretches of rules differ only in the names. -/
def sameBodies (a b : List Rule) : Bool :=
  a.length == b.length && (a.zip b).all fun (x, y) => x.compareBody y == .eq

/-! ## §2 Merging -/

/-- For each symbol that is merged, the one that takes its place. -/
def targets (terms : TermTable) : List (List Rule) → List (Term × Term)
  | [] => []
  | group :: later =>
    let others := later.filter fun other =>
      isMergeable terms group && isMergeable terms other && sameBodies group other
    match groupName group, others.getLast?.bind groupName with
    | some name, some target => (name, target) :: targets terms later
    | _, _ => targets terms later

/-- The symbol in place of a symbol. -/
def replace (targets : List (Term × Term)) (t : Term) : Term :=
  (targets.lookup t).getD t

/-- Drops the rules of merged symbols and changes the parts of the others.
Rules that change are created anew. -/
def applyAll (targets : List (Term × Term)) : (ruleCount : Nat) → List Rule → List Rule × Nat
  | ruleCount, [] => ([], ruleCount)
  | ruleCount, r :: rules =>
    if (targets.lookup r.name).isSome then applyAll targets ruleCount rules
    else if r.parts.any fun p => (targets.lookup p).isSome then
      let (rest, last) := applyAll targets (ruleCount + 1) rules
      ({ r with parts := r.parts.map (replace targets), id := ruleCount } :: rest, last)
    else
      let (rest, last) := applyAll targets ruleCount rules
      (r :: rest, last)

/-- Merges symbols with the same rules. -/
def merge (terms : TermTable) (ruleCount : Nat) (rules : List Rule) : List Rule × Nat :=
  applyAll (targets terms (groups rules)) ruleCount rules

end GrammarCompiler.Merging
