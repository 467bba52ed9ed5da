/-
GrammarCompiler.Proofs.Counting — how many characters any characters are.

Any character is one code unit or a surrogate pair, and the single code units are
not without surrogates. So a character above the basic plane can be read as one or
as two, and several of them in a sequence do not count characters: they read a text
if it has no more characters than they are, and no fewer code units.

  §1 Units  — code units that begin a character.
  §2 Texts  — what several of any character describe.
  §3 Tokens — token rules that are made of them.
-/
import GrammarCompiler.Proofs.Substituting
import Mathlib

namespace GrammarCompiler

open Text

/-! ## §1 Units -/

/-- The number of code units that do not end a surrogate pair. -/
def firsts (word : List Nat) : Nat :=
  word.countP fun unit => !isLowSurrogate unit

theorem firsts_append (word rest : List Nat) : firsts (word ++ rest) = firsts word + firsts rest :=
  List.countP_append

theorem units_cons (c : Char) (s : List Char) : units (c :: s) = unitsOf c.toNat ++ units s :=
  List.flatMap_cons

theorem isLowSurrogate_of_isHighSurrogate {unit : Nat} (h : isHighSurrogate unit = true) :
    isLowSurrogate unit = false := by
  rw [isHighSurrogate_iff] at h
  rw [← Bool.not_eq_true, isLowSurrogate_iff]
  omega

/-- The code units of a character are one that is no surrogate, or a surrogate pair. -/
theorem unitsOf_char (c : Char) :
    (∃ unit, unitsOf c.toNat = [unit] ∧ unit < 0x10000 ∧ isLowSurrogate unit = false) ∨
      ∃ high low, unitsOf c.toNat = [high, low] ∧ isHighSurrogate high = true ∧
        isLowSurrogate low = true := by
  have hvalid := Nfa.exists_char_iff.mp ⟨c, rfl⟩
  rw [unitsOf]
  split
  next hbasic =>
    refine .inl ⟨_, rfl, hbasic, ?_⟩
    rw [← Bool.not_eq_true, isLowSurrogate_iff]
    omega
  next hastral =>
    refine .inr ⟨_, _, rfl, isHighSurrogate_iff.mpr ?_, isLowSurrogate_iff.mpr ?_⟩
    · simp only [surrogates]
      omega
    · simp only [surrogates]
      omega

/-- Each character has one code unit that does not end a pair. -/
theorem firsts_units (s : List Char) : firsts (units s) = s.length := by
  induction s with
  | nil => rfl
  | cons c s ih =>
    have hfirst : firsts (unitsOf c.toNat) = 1 := by
      rcases unitsOf_char c with ⟨unit, heq, -, hunit⟩ | ⟨high, low, heq, hhigh, hlow⟩
      · simp [heq, firsts, hunit]
      · simp [heq, firsts, hlow, isLowSurrogate_of_isHighSurrogate hhigh]
    rw [units_cons, firsts_append, hfirst, ih, List.length_cons, Nat.add_comm]

theorem length_le_length_units (s : List Char) : s.length ≤ (units s).length :=
  firsts_units s ▸ List.countP_le_length

/-! ## §2 Texts -/

variable {rules : List RuleDecl} {start : Nat} {elements : List Expr}
  {markers : List (List Marker)} {word : List Nat}

/-- An expression for any character, or several in a sequence. -/
inductive Expr.IsAnys : Nat → Expr → Prop
  | one (start : Nat) : IsAnys 1 (.any start)
  | many (start : Nat) {elements : List Expr} (markers : List (List Marker))
      (h : ∀ e ∈ elements, ∃ place, e = .any place) :
      IsAnys elements.length (.sequence start elements markers)

/-- Whether an expression is for any character. -/
def Expr.isAny : Expr → Bool
  | .any _ => true
  | _ => false

/-- How many of any character an expression is made of, if it is made of nothing else. -/
def Expr.anys? : Expr → Option Nat
  | .any _ => some 1
  | .sequence _ elements _ => if elements.all isAny then some elements.length else none
  | _ => none

theorem Expr.isAnys_of_anys? {n : Nat} {e : Expr} (h : e.anys? = some n) : e.IsAnys n := by
  cases e with
  | any place =>
    cases h
    exact .one place
  | sequence start elements markers =>
    rw [anys?] at h
    split at h
    next hall =>
      cases h
      refine .many start markers fun e he => ?_
      have hany := List.all_eq_true.mp hall e he
      cases e with
      | any place => exact ⟨place, rfl⟩
      | _ => cases hany
    next => cases h
  | _ => cases h

/-- Each of them is at least one code unit, and no more than one that does not end a pair. -/
theorem Spells.anys_le (h : Spells rules (.sequence start elements markers) word)
    (hanys : ∀ e ∈ elements, ∃ place, e = .any place) :
    firsts word ≤ elements.length ∧ elements.length ≤ word.length := by
  induction elements generalizing word with
  | nil =>
    cases h
    exact ⟨Nat.le_refl 0, Nat.le_refl 0⟩
  | cons e elements ih =>
    obtain ⟨⟨place, rfl⟩, hothers⟩ := List.forall_mem_cons.mp hanys
    cases h with
    | @cons _ _ _ _ first rest hfirst hlater =>
      obtain ⟨hle, hge⟩ := ih hlater hothers
      have hone : firsts first ≤ 1 ∧ 1 ≤ first.length := by
        cases hfirst with
        | anyUnit => exact ⟨List.countP_le_length, Nat.le_refl 1⟩
        | anyPair _ hhigh hlow =>
          simp [firsts, hlow, isLowSurrogate_of_isHighSurrogate hhigh]
      rw [firsts_append, List.length_append, List.length_cons]
      omega

/-- Characters are read one by one, until there are as many code units left as there are to be
read. -/
theorem spells_anys {s : List Char} (hanys : ∀ e ∈ elements, ∃ place, e = .any place)
    (hle : s.length ≤ elements.length) (hge : elements.length ≤ (units s).length) :
    Spells rules (.sequence start elements markers) (units s) := by
  have hunit {unit : Nat} {e : Expr} (he : ∃ place, e = .any place) (h : unit < 0x10000) :
      Spells rules e [unit] := by
    obtain ⟨place, rfl⟩ := he
    exact .anyUnit place h
  induction s generalizing elements with
  | nil =>
    obtain rfl := List.length_eq_zero_iff.mp (Nat.le_zero.mp hge)
    exact .nil start markers
  | cons c s ih =>
    obtain ⟨e, elements, rfl⟩ := List.exists_cons_of_ne_nil (List.ne_nil_of_length_pos
      (Nat.lt_of_lt_of_le (Nat.succ_pos _) hle))
    obtain ⟨he, hothers⟩ := List.forall_mem_cons.mp hanys
    rw [units_cons] at hge ⊢
    simp only [List.length_append, List.length_cons] at hge hle
    rcases unitsOf_char c with ⟨unit, heq, hlt, -⟩ | ⟨high, low, heq, hhigh, hlow⟩
    · rw [heq] at hge ⊢
      rw [List.length_singleton] at hge
      exact .cons start markers (hunit he hlt) (ih hothers (by omega) (by omega))
    · rw [heq] at hge ⊢
      simp only [List.length_cons, List.length_nil] at hge
      by_cases hpair : elements.length ≤ (units s).length
      · have hread : Spells rules e [high, low] := by
          obtain ⟨place, rfl⟩ := he
          exact .anyPair place hhigh hlow
        exact .cons start markers hread (ih hothers (by omega) hpair)
      · -- There are as many to be read as code units, so the pair has to be taken apart.
        obtain ⟨e', elements, rfl⟩ := List.exists_cons_of_ne_nil (List.ne_nil_of_length_pos
          (Nat.lt_of_le_of_lt (Nat.zero_le _) (Nat.lt_of_not_le hpair)))
        obtain ⟨he', hothers⟩ := List.forall_mem_cons.mp hothers
        rw [List.length_cons] at hge hle hpair
        rw [isHighSurrogate_iff] at hhigh
        rw [isLowSurrogate_iff] at hlow
        have hfirst : Spells rules e [high] := hunit he (by omega)
        have hsecond : Spells rules e' [low] := hunit he' (by omega)
        have hunits := length_le_length_units s
        change Spells rules _ ([high] ++ ([low] ++ units s))
        exact .cons start markers hfirst
          (.cons start markers hsecond (ih hothers (by omega) (by omega)))

/-- Several of any character describe the texts with no more characters and no fewer code
units. -/
theorem Expr.IsAnys.spells_iff {n : Nat} {e : Expr} (h : e.IsAnys n) (s : List Char) :
    Spells rules e (units s) ↔ s.length ≤ n ∧ n ≤ (units s).length := by
  cases h with
  | one place =>
    have hanys : ∀ e ∈ [Expr.any place], ∃ place, e = .any place :=
      List.forall_mem_singleton.mpr ⟨place, rfl⟩
    have hsingle (word : List Nat) :
        Spells rules (.any place) word ↔ Spells rules (.sequence 0 [.any place] []) word := by
      refine ⟨fun h => List.append_nil word ▸ .cons 0 [] h (.nil 0 []), fun h => ?_⟩
      cases h with
      | cons _ _ h hrest =>
        cases hrest
        rwa [List.append_nil]
    rw [hsingle]
    exact ⟨fun h => firsts_units s ▸ h.anys_le hanys, fun h => spells_anys hanys h.1 h.2⟩
  | many place markers hanys =>
    exact ⟨fun h => firsts_units s ▸ h.anys_le hanys, fun h => spells_anys hanys h.1 h.2⟩

/-! ## §3 Tokens -/

open TokenBuild (Place HasMeaning Meets IsRegular nestedAll)
open Draft (tokenStart)

namespace Expr.IsAnys

variable {n : Nat} {e e' : Expr}

theorem ne_name (h : e.IsAnys n) {name : String} {args : List Expr} :
    e ≠ .name start name args := by
  cases h <;> exact nofun

theorem of_part (h : e.IsAnys n) (he' : e' ∈ TokenBuild.parts e) : e'.IsAnys 1 := by
  cases h with
  | one => cases he'
  | many start markers hanys =>
    obtain ⟨place, rfl⟩ := hanys e' he'
    exact .one place

/-- Nothing takes the place of parameters. -/
theorem inExpr_eq (h : e.IsAnys n) (params : List Ident) (args : List Expr) :
    Substitute.inExpr params args e = .ok e := by
  cases h with
  | one => rw [Substitute.inExpr]
  | @many start elements markers hanys =>
    have helements : Substitute.inExprs params args elements = .ok elements := by
      induction elements with
      | nil => rw [Substitute.inExprs]
      | cons e elements ih =>
        obtain ⟨⟨place, rfl⟩, hothers⟩ := List.forall_mem_cons.mp hanys
        rw [Substitute.inExprs, ih hothers, Substitute.inExpr]
        rfl
    rw [Substitute.inExpr, helements]
    rfl

theorem bodyWith_eq {rule : RuleDecl} (h : rule.body.IsAnys n) (args : List Expr) :
    rule.bodyWith args = .ok rule.body := by
  rw [RuleDecl.bodyWith]
  split
  · rfl
  · exact h.inExpr_eq rule.params args

/-- No references are met. -/
theorem of_meets (h : Meets rules e e') (hanys : e.IsAnys n) : ∃ m, e'.IsAnys m := by
  induction h generalizing n with
  | refl => exact ⟨n, hanys⟩
  | part hpart _ ih => exact ih (hanys.of_part hpart)
  | body => exact absurd rfl hanys.ne_name

theorem of_leads {p q : Place} (h : p.Leads rules q) (hanys : p.expr.IsAnys n) :
    ∃ m, q.expr.IsAnys m := by
  induction h with
  | refl => exact ⟨n, hanys⟩
  | @tail p q _ hq ih =>
    obtain ⟨m, hanys⟩ := ih
    obtain ⟨opened, scope, e⟩ := p
    cases e with
    | name => exact absurd rfl hanys.ne_name
    | _ =>
      obtain ⟨part, hpart, rfl⟩ := List.mem_map.mp hq
      exact ⟨1, hanys.of_part hpart⟩

end Expr.IsAnys

section

variable {name : String} {args : List Expr} {rule : RuleDecl} {n : Nat}
  (hrule : rules.find? (fun r => r.id.name == name) = some rule) (hanys : rule.body.IsAnys n)
include hrule hanys

/-- A reference to a rule for any characters is regular. -/
theorem isRegular_of_isAnys (hsets : ∀ e ∈ nestedAll args, e.IsCanonical) :
    IsRegular rules name args where
  fair := by
    refine Place.IsClear.isFair fun q hq r hr => ?_
    rcases Relation.ReflTransGen.cases_head hq with rfl | ⟨next, hnext, hq⟩
    · cases hr
    · have hbody : next.expr = rule.body := by
        simp only [Place.nexts, List.find?_nil, hrule] at hnext
        split at hnext
        · rw [List.mem_singleton.mp hnext]
        · cases hnext
      obtain ⟨m, hq⟩ := Expr.IsAnys.of_leads hq (hbody ▸ hanys)
      obtain ⟨opened, scope, e⟩ := q
      cases e with
      | name => exact absurd rfl hq.ne_name
      | _ => rfl
  meaning := by
    intro start' name' args' rule' hmeets hr' _
    cases hmeets with
    | refl =>
      obtain rfl := Option.some.inj (hrule.symm.trans hr')
      exact ⟨rule.body, hanys.bodyWith_eq args⟩
    | part hpart => cases hpart
    | body hr hb hmeets =>
      obtain rfl := Option.some.inj (hrule.symm.trans hr)
      obtain rfl := Except.ok.inj (hb.symm.trans (hanys.bodyWith_eq args))
      obtain ⟨m, hname⟩ := Expr.IsAnys.of_meets hmeets hanys
      exact absurd rfl hname.ne_name
  sets := hsets

/-- A reference describes what the body of its rule does. -/
theorem spells_reference_iff_of_isAnys (s : List Char) :
    Spells rules (.name 0 name args) (units s) ↔ s.length ≤ n ∧ n ≤ (units s).length := by
  rw [← hanys.spells_iff s]
  refine ⟨fun h => ?_, fun h => .reference 0 hrule (hanys.bodyWith_eq args) h⟩
  generalize units s = word at h
  cases h with
  | reference _ hr hb h =>
    obtain rfl := Option.some.inj (hrule.symm.trans hr)
    obtain rfl := Except.ok.inj (hb.symm.trans (hanys.bodyWith_eq args))
    exact h

end

/-- The token of a rule for `n` times any character reads a text if it has no more than `n`
characters and no fewer than `n` code units. So it counts characters where none of them is above
the basic plane. -/
theorem Blueprint.reads_anys {source : Source} {b : Blueprint} {journal : Journal}
    (h : Blueprint.ofSource source = (.ok b, journal)) {name : String} {args : List Expr}
    {rule : RuleDecl} {n : Nat}
    (hrule : b.decl.tokenRules.find? (fun r => r.id.name == name) = some rule)
    (hanys : rule.body.IsAnys n) (hsets : ∀ e ∈ nestedAll args, e.IsCanonical) :
    ∀ i ∈ b.draft.tokenInstances, i.key = .rule name args →
      ∃ q, b.draft.tokens.EndsAt i.term q ∧ ∀ s : List Char,
        b.draft.tokens.Path tokenStart (units s) q ↔ s.length ≤ n ∧ n ≤ (units s).length := by
  intro i hi hkey
  obtain ⟨q, hends, hreads⟩ :=
    path_iff_reference h (isRegular_of_isAnys hrule hanys hsets) hi hkey
  refine ⟨q, hends, fun s => ?_⟩
  rw [hreads, spells_reference_iff_of_isAnys hrule hanys]

/-- Two of any character. -/
def twoAnys : Source :=
  ⟨"", "@top T \x7b Two \x7d @tokens \x7b Two \x7b _ _ \x7d \x7d"⟩

/-- The only token is that of a rule for two of any character. -/
theorem Blueprint.exists_twoAnys :
    ∃ b journal rule, ofSource twoAnys = (.ok b, journal) ∧
      b.decl.tokenRules.find? (fun r => r.id.name == "Two") = some rule ∧ rule.body.IsAnys 2 ∧
      ∃ i ∈ b.draft.tokenInstances, i.key = .rule "Two" [] := by
  have hcheck : (ofSource twoAnys).1.toOption.any (fun b =>
      ((b.decl.tokenRules.find? fun r => r.id.name == "Two").any fun rule =>
        rule.body.anys? == some 2) &&
      b.draft.tokenInstances.any fun i => i.key.same (.rule "Two" [])) = true := by
    decide +kernel
  obtain ⟨b, journal, h, hcheck⟩ := exists_ok_fst_of_any hcheck
  simp only [Bool.and_eq_true, Option.any_eq_true, List.any_eq_true, beq_iff_eq] at hcheck
  obtain ⟨⟨rule, hrule, hbody⟩, i, hi, hkey⟩ := hcheck
  refine ⟨b, journal, rule, h, hrule, Expr.isAnys_of_anys? hbody, i, hi, ?_⟩
  cases hcases : i.key with
  | rule name args =>
    rw [hcases] at hkey
    obtain ⟨rfl, rfl⟩ : name = "Two" ∧ args = [] := by
      simpa [TokenKey.same, Expr.allSame] using hkey
    rfl
  | literal =>
    rw [hcases] at hkey
    cases hkey

/-- The token of two of any character. -/
theorem Blueprint.reads_anys_twoAnys :
    ∃ b journal rule, ofSource twoAnys = (.ok b, journal) ∧
      b.decl.tokenRules.find? (fun r => r.id.name == "Two") = some rule ∧ rule.body.IsAnys 2 ∧
      (∀ e ∈ nestedAll [], e.IsCanonical) ∧
      ∃ i ∈ b.draft.tokenInstances, i.key = .rule "Two" [] ∧
        ∃ q, b.draft.tokens.EndsAt i.term q ∧ ∀ s : List Char,
          b.draft.tokens.Path tokenStart (units s) q ↔ s.length ≤ 2 ∧ 2 ≤ (units s).length := by
  obtain ⟨b, journal, rule, h, hrule, hanys, i, hi, hkey⟩ := exists_twoAnys
  have hsets : ∀ e ∈ nestedAll [], e.IsCanonical := List.forall_mem_nil _
  exact ⟨b, journal, rule, h, hrule, hanys, hsets, i, hi, hkey,
    reads_anys h hrule hanys hsets i hi hkey⟩

/-- Two of any character read a single one above the basic plane. -/
theorem Blueprint.reads_astral_twoAnys :
    ∃ b journal rule, ofSource twoAnys = (.ok b, journal) ∧
      b.decl.tokenRules.find? (fun r => r.id.name == "Two") = some rule ∧ rule.body.IsAnys 2 ∧
      ∃ i ∈ b.draft.tokenInstances, i.key = .rule "Two" [] ∧
        ∃ q, b.draft.tokens.EndsAt i.term q ∧ b.draft.tokens.Path tokenStart (units ['😀']) q ∧
          ['😀'].length ≠ 2 := by
  obtain ⟨b, journal, rule, h, hrule, hanys, i, hi, hkey⟩ := exists_twoAnys
  obtain ⟨q, hends, hreads⟩ :=
    path_iff_reference h (isRegular_of_isAnys hrule hanys (List.forall_mem_nil _)) hi hkey
  refine ⟨b, journal, rule, h, hrule, hanys, i, hi, hkey, q, hends, (hreads _).mpr ?_, by decide⟩
  exact (spells_reference_iff_of_isAnys hrule hanys _).mpr (by decide)

end GrammarCompiler
