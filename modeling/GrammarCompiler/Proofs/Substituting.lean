/-
GrammarCompiler.Proofs.Substituting — tokens with arguments mean substitution.

Where a rule of the same name is open that has arguments which print alike, a
reference is taken for one to it. If this never happens, building the token of a
reference ends, and the token is read by what the reference stands for when
arguments are put in place of parameters. It can happen in grammars in which no
rule refers to itself, since arguments print alike that mean different things in
different scopes.

  §1 Checks — clear places and meanings can be found out.
  §2 Tokens — references that are clear.
  §3 Scopes — a reference that is not, though no rule refers to itself.
-/
import GrammarCompiler.Proofs.Expanding
import GrammarCompiler.Proofs.Lexing
import Mathlib

namespace GrammarCompiler

namespace TokenBuild

/-! ## §1 Checks -/

variable {rules : List RuleDecl} {p : Place} {e : Expr}

/-- Whether a place is clear, if no more than `depth` places come one after another. -/
def Place.clearWithin (rules : List RuleDecl) : (depth : Nat) → Place → Bool
  | 0, _ => false
  | depth + 1, p => p.opened.all (fun r => !p.repeats r) &&
      (p.nexts rules).all (clearWithin rules depth)

theorem Place.isClear_of_clearWithin {depth : Nat} (h : p.clearWithin rules depth = true) :
    p.IsClear rules := by
  induction depth generalizing p with
  | zero => cases h
  | succ depth ih =>
    rw [clearWithin, Bool.and_eq_true, List.all_eq_true, List.all_eq_true] at h
    obtain ⟨hhere, hnexts⟩ := h
    intro q hq r hr
    rcases Relation.ReflTransGen.cases_head hq with rfl | ⟨next, hnext, hq⟩
    · simpa using hhere r hr
    · exact ih (hnexts next hnext) q hq r hr

/-- Whether the body of a rule that is referred to can be put together, and passes a test. -/
def passesBody (rules : List RuleDecl) (test : Expr → Bool) : Expr → Bool
  | .name _ name args => (rules.find? fun r => r.id.name == name).all fun rule =>
      match rule.bodyWith args with
      | .ok body => test body
      | .error _ => rule.params.length != args.length
  | _ => true

/-- Whether an expression has a meaning, if it is expanded to no more than `depth`. -/
def meansWithin (rules : List RuleDecl) : (depth : Nat) → Expr → Bool
  | 0, _ => false
  | depth + 1, e => (parts e).all (meansWithin rules depth) &&
      passesBody rules (meansWithin rules depth) e

theorem hasMeaning_of_meansWithin {depth : Nat} (h : meansWithin rules depth e = true) :
    HasMeaning rules e := by
  induction depth generalizing e with
  | zero => cases h
  | succ depth ih =>
    rw [meansWithin, Bool.and_eq_true, List.all_eq_true] at h
    obtain ⟨hparts, hhere⟩ := h
    intro start name args rule hmeets hr harity
    cases hmeets with
    | refl =>
      rw [passesBody, hr, Option.all_some] at hhere
      split at hhere
      next body hb => exact ⟨body, hb⟩
      next => simp [harity] at hhere
    | part hpart hmeets => exact ih (hparts _ hpart) hmeets hr harity
    | body hr' hb hmeets =>
      rw [passesBody, hr', Option.all_some, hb] at hhere
      exact ih hhere hmeets hr harity

/-- Whether an expression is a reference or a literal, so that it has no set of its own. -/
def isWord : Expr → Bool
  | .name .. | .literal .. => true
  | _ => false

theorem isCanonical_of_isWord (h : isWord e = true) : e.IsCanonical := by
  cases e with
  | name => exact .name ..
  | literal => exact .literal ..
  | _ => cases h

/-- Where a reference stands makes no difference. -/
theorem Place.IsClear.move {name : String} {args : List Expr}
    (h : (⟨[], [], .name 0 name args⟩ : Place).IsClear rules) (start : Nat) :
    (⟨[], [], .name start name args⟩ : Place).IsClear rules := by
  intro q hq r hr
  rcases Relation.ReflTransGen.cases_head hq with rfl | ⟨next, hnext, hq⟩
  · cases hr
  · exact h q (.head hnext hq) r hr

end TokenBuild

/-! ## §2 Tokens -/

open TokenBuild (Place HasMeaning Ends nestedAll addRule addExpr fuelFor IsRegular)
open Draft (tokenStart)

/-- Tokens with arguments mean substitution. If on the way through its rules no reference prints
like one that is open, building the token of a reference does not fail for a recursion. Its token
ends in a state of its own, and exactly the texts of what the reference stands for, with arguments
in place of parameters, are read on the way there. -/
theorem GrammarDecl.path_iff_spells_reference {source : Text.Source} {decl : GrammarDecl}
    (hparse : GrammarDecl.parse source = .ok decl) {name : String} {args : List Expr}
    {rule : RuleDecl} (hrule : decl.tokenRules.find? (fun r => r.id.name == name) = some rule)
    (hsets : ∀ e ∈ nestedAll args, e.IsCanonical)
    (hmeaning : HasMeaning decl.tokenRules (.name 0 name args))
    (hclear : (⟨[], [], .name 0 name args⟩ : Place).IsClear decl.tokenRules) :
    (∀ start s t, Ends (addRule
      (addExpr decl.tokenRules (fuelFor decl.tokenRules (.name start name args))) [] [] rule start
      args s t)) ∧
    ∀ b journal, Blueprint.ofSource source = (.ok b, journal) →
      ∀ i ∈ b.draft.tokenInstances, i.key = .rule name args →
        ∃ q, b.draft.tokens.EndsAt i.term q ∧ ∀ word, b.draft.tokens.Path tokenStart word q ↔
          Spells decl.tokenRules (.name 0 name args) word := by
  refine ⟨fun start s t => TokenBuild.ends_reference hrule (hclear.move start) s t, ?_⟩
  intro b journal h i hi hkey
  obtain rfl := Except.ok.inj (hparse.symm.trans (Blueprint.parse_of_ofSource h))
  exact Blueprint.path_iff_reference h ⟨hclear.isFair, hmeaning, hsets⟩ hi hkey

/-- Two rules whose parameters have the same name, each given to the other. -/
def sameParameters : Text.Source :=
  ⟨"", "@top T \x7b g<f<\"c\">> \x7d @tokens \x7b f<x> \x7b x \"a\" \x7d g<x> \x7b f<x \"b\"> \x7d \x7d"⟩

/-- The token of a rule that is given another one with a parameter of the same name. -/
theorem GrammarDecl.path_iff_spells_reference_sameParameters :
    ∃ b journal args rule, Blueprint.ofSource sameParameters = (.ok b, journal) ∧
      b.decl.tokenRules.find? (fun r => r.id.name == "g") = some rule ∧
      (∀ e ∈ nestedAll args, e.IsCanonical) ∧
      HasMeaning b.decl.tokenRules (.name 0 "g" args) ∧
      (⟨[], [], .name 0 "g" args⟩ : Place).IsClear b.decl.tokenRules ∧
      (∀ start s t, Ends (addRule
        (addExpr b.decl.tokenRules (fuelFor b.decl.tokenRules (.name start "g" args))) [] [] rule
        start args s t)) ∧
      ∃ i ∈ b.draft.tokenInstances, i.key = .rule "g" args ∧
        ∃ q, b.draft.tokens.EndsAt i.term q ∧ ∀ word, b.draft.tokens.Path tokenStart word q ↔
          Spells b.decl.tokenRules (.name 0 "g" args) word := by
  have hcheck : (Blueprint.ofSource sameParameters).1.toOption.any (fun b =>
      (b.decl.tokenRules.find? fun r => r.id.name == "g").isSome &&
        b.draft.tokenInstances.any fun i => i.key.hasRule "g" &&
          (TokenBuild.nested i.key.expr).all TokenBuild.isWord &&
          TokenBuild.meansWithin b.decl.tokenRules 8 i.key.expr &&
          Place.clearWithin b.decl.tokenRules 12 ⟨[], [], i.key.expr⟩) = true := by
    decide +kernel
  obtain ⟨b, journal, h, hcheck⟩ := exists_ok_fst_of_any hcheck
  simp only [Bool.and_eq_true, Option.isSome_iff_exists, List.any_eq_true] at hcheck
  obtain ⟨⟨rule, hrule⟩, i, hi, ⟨⟨hname, hwords⟩, hmeaning⟩, hclear⟩ := hcheck
  obtain ⟨args, hkey⟩ := TokenKey.exists_args_of_hasRule hname
  rw [hkey] at hwords hmeaning hclear
  have hsets : ∀ e ∈ nestedAll args, e.IsCanonical := fun e he =>
    TokenBuild.isCanonical_of_isWord (List.all_eq_true.mp hwords e (List.mem_cons_of_mem _ he))
  have hmeaning := TokenBuild.hasMeaning_of_meansWithin hmeaning
  have hclear := Place.isClear_of_clearWithin hclear
  obtain ⟨hends, hreads⟩ :=
    path_iff_spells_reference (Blueprint.parse_of_ofSource h) hrule hsets hmeaning hclear
  exact ⟨b, journal, args, rule, h, hrule, hsets, hmeaning, hclear, hends, i, hi, hkey,
    hreads b journal h i hi hkey⟩

/-! ## §3 Scopes -/

/-- Whether the name of another rule stands in the body of a rule, and is no parameter. -/
def RuleDecl.refersTo (rule other : RuleDecl) : Bool :=
  rule.params.all (fun param => param.name != other.id.name) &&
    (TokenBuild.nested rule.body).any fun e => match e with
      | .name _ name _ => name == other.id.name
      | _ => false

/-- One of some rules refers to another one of them. -/
def RefersIn (rules : List RuleDecl) (rule other : RuleDecl) : Prop :=
  rule ∈ rules ∧ other ∈ rules ∧ rule.refersTo other = true

/-- If rules only refer to such as come first in some order, none refers to itself, not even by
way of others. -/
theorem not_transGen_refersIn {rules : List RuleDecl} (rank : RuleDecl → Nat)
    (hrank : ∀ rule ∈ rules, ∀ other ∈ rules, rule.refersTo other = true →
      rank other < rank rule) (rule : RuleDecl) :
    ¬Relation.TransGen (RefersIn rules) rule rule := by
  have hlt {rule other : RuleDecl} (h : Relation.TransGen (RefersIn rules) rule other) :
      rank other < rank rule := by
    induction h with
    | single h => exact hrank _ h.1 _ h.2.1 h.2.2
    | tail _ h ih => exact Nat.lt_trans (hrank _ h.1 _ h.2.1 h.2.2) ih
  exact fun h => Nat.lt_irrefl _ (hlt h)

/-- A rule that is given itself with another argument. The first time that it refers to `f`, its
parameter stands for the reference within, and the second time for the text. -/
def givenItself : Text.Source :=
  ⟨"", "@top T \x7b g<g<\"b\">> \x7d @tokens \x7b f<y> \x7b y \"a\" \x7d g<x> \x7b f<x> \x7d \x7d"⟩

/-- No rule refers to itself, and the reference has a meaning, but its token fails for a
recursion. -/
theorem GrammarDecl.tokenRecursion_givenItself :
    ∃ decl args rule place, GrammarDecl.parse givenItself = .ok decl ∧
      (∀ r, ¬Relation.TransGen (RefersIn decl.tokenRules) r r) ∧
      decl.tokenRules.find? (fun r => r.id.name == "g") = some rule ∧
      rule.params.length = args.length ∧ HasMeaning decl.tokenRules (.name 0 "g" args) ∧
      (Blueprint.ofSource givenItself).1 = .error (.grammar (.tokenRecursion ["f", "g"]) place) := by
  let args : List Expr := [.name 11 "g" [.literal 13 "b"]]
  let rank (rule : RuleDecl) : Nat := if rule.id.name == "f" then 0 else 1
  have hcheck : (GrammarDecl.parse givenItself).toOption.any (fun decl =>
      (decl.tokenRules.all fun r => decl.tokenRules.all fun r' =>
        !r.refersTo r' || decide (rank r' < rank r)) &&
      ((decl.tokenRules.find? fun r => r.id.name == "g").any fun rule =>
        rule.params.length == args.length) &&
      TokenBuild.meansWithin decl.tokenRules 8 (.name 0 "g" args)) = true := by
    decide +kernel
  have hfails : (match (Blueprint.ofSource givenItself).1 with
      | .error (.grammar (.tokenRecursion names) _) => names == ["f", "g"]
      | _ => false) = true := by
    decide +kernel
  obtain ⟨decl, hparse, hcheck⟩ := exists_ok_of_any hcheck
  rw [Bool.and_eq_true, Bool.and_eq_true, List.all_eq_true, Option.any_eq_true] at hcheck
  obtain ⟨⟨hrank, rule, hrule, harity⟩, hmeaning⟩ := hcheck
  have hacyclic := not_transGen_refersIn rank fun r hr r' hr' hrefers => by
    have hstep := List.all_eq_true.mp (hrank r hr) r' hr'
    rw [hrefers] at hstep
    exact of_decide_eq_true hstep
  split at hfails
  next names place heq =>
    obtain rfl : names = ["f", "g"] := by simpa using hfails
    exact ⟨decl, args, rule, place, hparse, hacyclic, hrule, beq_iff_eq.mp harity,
      TokenBuild.hasMeaning_of_meansWithin hmeaning, heq⟩
  next => cases hfails

end GrammarCompiler
