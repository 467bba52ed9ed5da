/-
GrammarCompiler.Proofs.Merging — what merging does to languages.

A symbol is merged into a later one that has the same rules, and the last of
several such symbols stays. As the rules of each symbol stand together, each
symbol is compared with all later ones, and what it is merged into stays itself.
So parts can be replaced without changing what is derived. But merging does not
ask what a symbol is needed for: what is skipped loses its rules as well, when a
later symbol has the same.

  §1 Comparison — rules that differ only in the names.
  §2 Stretches  — the rules of each symbol, in the order of symbols.
  §3 Targets    — which symbol takes the place of which.
  §4 Languages  — what is derived before and afterwards.
  §5 Grammars   — what merging does to the rules of a grammar text.
-/
import GrammarCompiler.Proofs.Simplifying
import GrammarCompiler.Proofs.Stages
import Mathlib.Data.List.SplitBy

namespace GrammarCompiler

/-! ## §1 Comparison -/

theorem Term.compare_eq (a b : Term) : compare a b = compare a.index b.index := by
  cases a
  cases b
  simp [compare, instOrdTerm.ord]

instance : Std.LawfulEqOrd Term where
  compare_self {a} := (a.compare_eq a).trans Std.ReflOrd.compare_self
  eq_of_compare {a b} h := by
    rw [a.compare_eq b] at h
    exact Term.eq_of_index_eq (Std.LawfulEqOrd.eq_of_compare h)

/-- Lists of one length without a difference are equal. -/
theorem eq_of_firstDifference {α : Type} {compare : α → α → Ordering}
    (heq : ∀ a b, compare a b = .eq → a = b) {as bs : List α} (hlength : as.length = bs.length)
    (h : firstDifference compare as bs = .eq) : as = bs := by
  induction as generalizing bs with
  | nil => exact (List.length_eq_zero_iff.mp hlength.symm).symm
  | cons a as ih =>
    cases bs with
    | nil => cases hlength
    | cons b bs =>
      rw [firstDifference, Ordering.then_eq_eq] at h
      rw [heq a b h.1, ih (Nat.succ.inj hlength) h.2]

theorem firstDifference_self {α : Type} {compare : α → α → Ordering}
    (hself : ∀ a, compare a a = .eq) (as : List α) : firstDifference compare as as = .eq := by
  induction as with
  | nil => rfl
  | cons a as ih => rw [firstDifference, hself, ih, Ordering.then_eq_eq]; exact ⟨rfl, rfl⟩

theorem compareByLength_eq_iff {α : Type} {compare : α → α → Ordering}
    (heq : ∀ a b, compare a b = .eq ↔ a = b) {as bs : List α} :
    compareByLength compare as bs = .eq ↔ as = bs := by
  rw [compareByLength, Ordering.then_eq_eq]
  constructor
  · rintro ⟨hlength, h⟩
    exact eq_of_firstDifference (fun a b => (heq a b).mp) (Std.compare_eq_iff_eq.mp hlength) h
  · rintro rfl
    exact ⟨Std.compare_eq_iff_eq.mpr rfl, firstDifference_self (fun a => (heq a a).mpr rfl) as⟩

theorem Marks.compare_eq_iff {a b : Marks} : Marks.compare a b = .eq ↔ a = b := by
  rw [Marks.compare, Ordering.then_eq_eq, Ordering.then_eq_eq,
    compareByLength_eq_iff fun _ _ => Std.compare_eq_iff_eq, Std.compare_eq_iff_eq,
    Std.compare_eq_iff_eq]
  cases a
  cases b
  simp

/-- Rules that compare as equal differ in nothing but the name and the order of creation. -/
theorem Rule.compareBody_eq_iff {a b : Rule} :
    a.compareBody b = .eq ↔ a.toPhrase = b.toPhrase ∧ a.skip = b.skip := by
  rw [compareBody, Ordering.then_eq_eq, Ordering.then_eq_eq, Ordering.then_eq_eq,
    compareByLength_eq_iff fun _ _ => Marks.compare_eq_iff, Std.compare_eq_iff_eq,
    Std.compare_eq_iff_eq]
  constructor
  · rintro ⟨hlength, hskip, hparts, hmarks⟩
    have hparts := eq_of_firstDifference (fun _ _ => Std.compare_eq_iff_eq.mp) hlength hparts
    exact ⟨by rw [Phrase.mk.injEq]; exact ⟨hparts, hmarks⟩, hskip⟩
  · rintro ⟨hphrase, hskip⟩
    rw [hphrase]
    exact ⟨rfl, hskip, firstDifference_self (fun _ => Std.compare_eq_iff_eq.mpr rfl) _, rfl⟩

namespace Merging

variable {terms : TermTable} {rules : List Rule} {t u : Term}

theorem sameBodies_iff {a b : List Rule} : sameBodies a b = true ↔
    a.map (fun r => (r.toPhrase, r.skip)) = b.map fun r => (r.toPhrase, r.skip) := by
  induction a generalizing b with
  | nil => cases b <;> simp [sameBodies]
  | cons x a ih =>
    cases b with
    | nil => simp [sameBodies]
    | cons y b =>
      have hcons : sameBodies (x :: a) (y :: b) = (x.compareBody y == .eq && sameBodies a b) := by
        simp only [sameBodies, List.length_cons, List.zip_cons_cons, List.all_cons]
        have hlength : (a.length + 1 == b.length + 1) = (a.length == b.length) := by simp
        rw [hlength, Bool.and_left_comm]
      rw [hcons, Bool.and_eq_true, beq_iff_eq, Rule.compareBody_eq_iff, ih, List.map_cons,
        List.map_cons, List.cons.injEq, Prod.mk.injEq]

/-! ## §2 Stretches -/

/-- Stretches of rules: each is for one symbol, and no two are for the same. -/
structure Grouped (groups : List (List Rule)) : Prop where
  ne_nil : ∀ g ∈ groups, g ≠ []
  name : ∀ g ∈ groups, ∀ r ∈ g, groupName g = some r.name
  nodup : (groups.map groupName).Nodup

/-- Rules that stand in stretches are cut into these. -/
theorem grouped_groups (h : InStretches rules) : Grouped (groups rules) := by
  induction h with
  | nil => exact ⟨nofun, nofun, .nil⟩
  | @append rules stretch t before named new ih =>
    cases stretch with
    | nil => rwa [List.append_nil]
    | cons r stretch =>
      have hname : groupName (r :: stretch) = some t := congrArg some (named r (.head _))
      have happend : groups (rules ++ r :: stretch) = groups rules ++ [r :: stretch] := by
        rw [groups, groups, List.splitBy_append_cons, List.splitBy_of_isChain (List.cons_ne_nil _ _)]
        · refine List.isChain_iff_pairwise.mpr (List.pairwise_of_forall_mem_list fun x hx y hy => ?_)
          exact beq_iff_eq.mpr ((named x hx).trans (named y hy).symm)
        · intro x hx
          rw [named r (.head _)]
          exact beq_eq_false_iff_ne.mpr (new x (List.mem_of_getLast? hx))
      rw [happend]
      refine ⟨fun g hg => ?_, fun g hg x hx => ?_, ?_⟩
      · rcases List.mem_append.mp hg with hg | hg
        · exact ih.ne_nil g hg
        · exact List.mem_singleton.mp hg ▸ List.cons_ne_nil _ _
      · rcases List.mem_append.mp hg with hg | hg
        · exact ih.name g hg x hx
        · obtain rfl := List.mem_singleton.mp hg
          rw [hname, named x hx]
      · rw [List.map_append]
        refine ih.nodup.append (List.nodup_singleton _) fun name hold hnew => ?_
        obtain ⟨g, hg, rfl⟩ := List.mem_map.mp hold
        obtain ⟨x, hx⟩ := List.exists_mem_of_ne_nil g (ih.ne_nil g hg)
        have hrule : x ∈ rules := by
          rw [← List.flatten_splitBy (fun a b => a.name == b.name) rules]
          exact List.mem_flatten.mpr ⟨g, hg, hx⟩
        have heq := (ih.name g hg x hx).symm.trans ((List.mem_singleton.mp hnew).trans hname)
        exact new x hrule (Option.some.inj heq)

section

variable {groups : List (List Rule)}

namespace Grouped

variable (h : Grouped groups)
include h

theorem eq_of_groupName_eq {g o : List Rule} (hg : g ∈ groups) (ho : o ∈ groups)
    (heq : groupName g = groupName o) : g = o :=
  List.inj_on_of_nodup_map h.nodup hg ho heq

/-- The symbol that a stretch is for. -/
theorem exists_name {g : List Rule} (hg : g ∈ groups) : ∃ t, groupName g = some t :=
  have ⟨r, hr⟩ := List.exists_mem_of_ne_nil g (h.ne_nil g hg)
  ⟨r.name, h.name g hg r hr⟩

theorem mem_iff {g : List Rule} (hg : g ∈ groups) (ht : groupName g = some t) {r : Rule} :
    r ∈ g ↔ r ∈ groups.flatten ∧ r.name = t := by
  constructor
  · intro hr
    exact ⟨List.mem_flatten.mpr ⟨g, hg, hr⟩, Option.some.inj ((h.name g hg r hr).symm.trans ht)⟩
  · rintro ⟨hr, rfl⟩
    obtain ⟨o, ho, hr⟩ := List.mem_flatten.mp hr
    exact h.eq_of_groupName_eq ho hg ((h.name o ho r hr).trans ht.symm) ▸ hr

/-- A stretch stands in one place only. -/
theorem notMem {before later : List (List Rule)} {g : List Rule}
    (hsplit : groups = before ++ g :: later) : g ∉ before ∧ g ∉ later := by
  have hnodup := List.Nodup.of_map _ h.nodup
  rw [hsplit, List.nodup_middle, List.nodup_cons, List.mem_append, not_or] at hnodup
  exact hnodup.1

/-- A stretch has all rules of its symbol. -/
theorem filter_eq {g : List Rule} (hg : g ∈ groups) (ht : groupName g = some t) :
    groups.flatten.filter (fun r => r.name == t) = g := by
  obtain ⟨before, after, hsplit⟩ := List.append_of_mem hg
  have hother {o : List Rule} (ho : o ∈ before ∨ o ∈ after) :
      o.filter (fun r => r.name == t) = [] := by
    refine List.filter_eq_nil_iff.mpr fun r hr heq => ?_
    have hmem : o ∈ groups := by
      rw [hsplit]
      exact List.mem_append.mpr (ho.imp_right (.tail _))
    obtain rfl := h.eq_of_groupName_eq hmem hg
      ((h.name o hmem r hr).trans ((congrArg some (beq_iff_eq.mp heq)).trans ht.symm))
    exact ho.elim (h.notMem hsplit).1 (h.notMem hsplit).2
  rw [hsplit, List.flatten_append, List.flatten_cons, List.filter_append, List.filter_append,
    List.filter_flatten, List.filter_flatten,
    List.flatten_eq_nil_iff.mpr (List.forall_mem_map.mpr fun o ho => hother (.inl ho)),
    List.flatten_eq_nil_iff.mpr (List.forall_mem_map.mpr fun o ho => hother (.inr ho)),
    List.nil_append, List.append_nil, List.filter_eq_self]
  exact fun r hr => beq_iff_eq.mpr ((h.mem_iff hg ht).mp hr).2

end Grouped

/-! ## §3 Targets -/

/-- Whether the symbol of one stretch can take the place of that of another. -/
def canMerge (terms : TermTable) (group other : List Rule) : Bool :=
  isMergeable terms group && isMergeable terms other && sameBodies group other

theorem canMerge_trans {a b c : List Rule} (h : canMerge terms a b = true)
    (h' : canMerge terms b c = true) : canMerge terms a c = true := by
  simp only [canMerge, Bool.and_eq_true, sameBodies_iff] at h h' ⊢
  exact ⟨⟨h.1.1, h'.1.2⟩, h.2.trans h'.2⟩

/-- A symbol that is merged gives way to the last one with the same rules. -/
theorem exists_of_mem_targets (h : (t, u) ∈ targets terms groups) :
    ∃ before g middle o after, groups = before ++ g :: (middle ++ o :: after) ∧
      groupName g = some t ∧ groupName o = some u ∧ canMerge terms g o = true ∧
      ∀ x ∈ after, canMerge terms g x = false := by
  induction groups with
  | nil => cases h
  | cons group later ih =>
    have hlater (h : (t, u) ∈ targets terms later) : ∃ before g middle o after,
        group :: later = before ++ g :: (middle ++ o :: after) ∧
        groupName g = some t ∧ groupName o = some u ∧ canMerge terms g o = true ∧
        ∀ x ∈ after, canMerge terms g x = false := by
      obtain ⟨before, g, middle, o, after, heq, hrest⟩ := ih h
      exact ⟨group :: before, g, middle, o, after, by rw [heq, List.cons_append], hrest⟩
    rw [targets] at h
    split at h
    next name target hname htarget =>
      rcases List.mem_cons.mp h with h | h
      · cases h
        obtain ⟨o, ho, hfirst⟩ := Option.bind_eq_some_iff.mp htarget
        rw [List.getLast?_eq_head?_reverse, ← List.filter_reverse, List.head?_filter,
          List.find?_eq_some_iff_append] at ho
        obtain ⟨hmerge, after, middle, hsplit, hafter⟩ := ho
        refine ⟨[], group, middle.reverse, o, after.reverse, ?_, hname, hfirst, hmerge,
          fun x hx => ?_⟩
        · rw [← List.reverse_reverse later, hsplit]
          simp
        · exact Bool.not_eq_true' _ ▸ hafter x (List.mem_reverse.mp hx)
      · exact hlater h
    next => exact hlater h

/-- Every symbol that could give way to a later one is merged. -/
theorem exists_mem_targets (h : Grouped groups) {before later : List (List Rule)}
    {g o : List Rule} (hsplit : groups = before ++ g :: later) (ho : o ∈ later)
    (hmerge : canMerge terms g o = true) (ht : groupName g = some t) :
    ∃ u, (t, u) ∈ targets terms groups := by
  induction before generalizing groups with
  | nil =>
    rw [hsplit, List.nil_append, targets]
    have hmem : o ∈ later.filter (canMerge terms g) := List.mem_filter.mpr ⟨ho, hmerge⟩
    have hlast := List.getLast?_eq_some_getLast (List.ne_nil_of_mem hmem)
    generalize List.getLast _ _ = last at hlast
    obtain ⟨u, hu⟩ := h.exists_name (g := last) (hsplit ▸ .tail _
      (List.mem_filter.mp (List.mem_of_getLast? hlast)).1)
    refine ⟨u, ?_⟩
    have hlast : (later.filter fun other => isMergeable terms g && isMergeable terms other &&
      sameBodies g other).getLast? = some last := hlast
    simp only [ht, hlast, Option.bind_some, hu]
    exact .head _
  | cons group before ih =>
    subst hsplit
    have hrest : Grouped (before ++ g :: later) :=
      ⟨fun x hx => h.ne_nil x (.tail _ hx), fun x hx => h.name x (.tail _ hx),
        (List.nodup_cons.mp h.nodup).2⟩
    obtain ⟨u, hu⟩ := ih hrest rfl
    refine ⟨u, ?_⟩
    rw [List.cons_append, targets]
    split
    · exact .tail _ hu
    · exact hu

theorem mem_of_lookup {targets : List (Term × Term)} (h : targets.lookup t = some u) :
    (t, u) ∈ targets := by
  obtain ⟨before, after, rfl, _⟩ := List.lookup_eq_some_iff.mp h
  exact List.mem_append_right _ (.head _)

theorem lookup_eq_none {targets : List (Term × Term)} (h : ∀ u, (t, u) ∉ targets) :
    targets.lookup t = none := by
  cases hl : targets.lookup t with
  | none => rfl
  | some u => exact absurd (mem_of_lookup hl) (h u)

/-- What a symbol is merged into stays itself. -/
theorem lookup_target (h : Grouped groups) (htarget : (t, u) ∈ targets terms groups) :
    (targets terms groups).lookup u = none := by
  refine lookup_eq_none fun v hv => ?_
  obtain ⟨before, g, middle, o, after, heq, hg, ho, hmerge, hlast⟩ := exists_of_mem_targets htarget
  obtain ⟨before', o', middle', p, after', heq', ho', hp, hmerge', _⟩ := exists_of_mem_targets hv
  have hmem : o ∈ groups := by simp [heq]
  have hmem' : o' ∈ groups := by simp [heq']
  obtain rfl := h.eq_of_groupName_eq hmem' hmem (ho'.trans ho.symm)
  have hassoc : groups = (before ++ g :: middle) ++ o' :: after := by simp [heq]
  obtain ⟨hbefore, hafter⟩ := h.notMem hassoc
  obtain ⟨_, _, rfl⟩ := (List.append_cons_inj_of_notMem hbefore hafter).mp (hassoc.symm.trans heq')
  have hclash := hlast p (by simp)
  rw [canMerge_trans hmerge hmerge'] at hclash
  cases hclash

end

/-- `GivesWay terms rules t u`: the symbol `t` can give way to `u`. Both are anonymous, and the
rules of `u` stand behind those of `t` and are the same but for the name. -/
structure GivesWay (terms : TermTable) (rules : List Rule) (t u : Term) : Prop where
  anonymous : (terms.info t).isDistinct = false
  anonymous' : (terms.info u).isDistinct = false
  behind : ∃ front back, rules = front ++ back ∧ (∃ r ∈ front, r.name = t) ∧
    ∀ r ∈ front, r.name ≠ u
  same : (rules.filter fun r => r.name == t).map (fun r => (r.toPhrase, r.skip)) =
    (rules.filter fun r => r.name == u).map fun r => (r.toPhrase, r.skip)

theorem isMergeable_iff {g : List Rule} (ht : groupName g = some t) :
    isMergeable terms g = true ↔ (terms.info t).isDistinct = false := by
  rw [isMergeable, ht, Bool.not_eq_true']

/-- What a symbol is merged into has the same rules, further behind. -/
theorem givesWay_of_mem_targets (h : InStretches rules)
    (htarget : (t, u) ∈ targets terms (groups rules)) : GivesWay terms rules t u := by
  have hgrouped := grouped_groups h
  have hflatten : (groups rules).flatten = rules := List.flatten_splitBy _ rules
  obtain ⟨before, g, middle, o, after, heq, hg, ho, hmerge, _⟩ := exists_of_mem_targets htarget
  have hmem : g ∈ groups rules := by simp [heq]
  have hmem' : o ∈ groups rules := by simp [heq]
  simp only [canMerge, Bool.and_eq_true, sameBodies_iff, isMergeable_iff hg,
    isMergeable_iff ho] at hmerge
  have hassoc : groups rules = (before ++ g :: middle) ++ o :: after := by simp [heq]
  refine ⟨hmerge.1.1, hmerge.1.2,
    ⟨(before ++ g :: middle).flatten, (o :: after).flatten, ?_, ?_, fun r hr hname => ?_⟩, ?_⟩
  · rw [← List.flatten_append, ← hassoc, hflatten]
  · obtain ⟨r, hr⟩ := List.exists_mem_of_ne_nil g (hgrouped.ne_nil g hmem)
    exact ⟨r, List.mem_flatten.mpr ⟨g, by simp, hr⟩, ((hgrouped.mem_iff hmem hg).mp hr).2⟩
  · obtain ⟨x, hx, hr⟩ := List.mem_flatten.mp hr
    have hx' : x ∈ groups rules := hassoc ▸ List.mem_append_left _ hx
    obtain rfl := hgrouped.eq_of_groupName_eq hx' hmem'
      ((hgrouped.name x hx' r hr).trans ((congrArg some hname).trans ho.symm))
    exact (hgrouped.notMem hassoc).1 hx
  · rw [← hflatten, hgrouped.filter_eq hmem hg, hgrouped.filter_eq hmem' ho]
    exact hmerge.2

/-- A symbol is merged if the rules of another one stand further behind and are the same. -/
theorem GivesWay.exists_mem_targets (h : InStretches rules) (hgives : GivesWay terms rules t u) :
    ∃ v, (t, v) ∈ targets terms (groups rules) := by
  have hgrouped := grouped_groups h
  have hflatten : (groups rules).flatten = rules := List.flatten_splitBy _ rules
  have hgroup {r : Rule} (hr : r ∈ rules) :
      ∃ g ∈ groups rules, r ∈ g ∧ groupName g = some r.name := by
    obtain ⟨g, hg, hrg⟩ := List.mem_flatten.mp (hflatten.symm ▸ hr)
    exact ⟨g, hg, hrg, hgrouped.name g hg r hrg⟩
  obtain ⟨front, back, heq, ⟨r, hr, rfl⟩, hfront⟩ := hgives.behind
  have hmemr : r ∈ rules := heq ▸ List.mem_append_left _ hr
  obtain ⟨g, hg, hrg, hgname⟩ := hgroup hmemr
  -- The other symbol has rules as well, since they are the same.
  have hphrase : (r.toPhrase, r.skip) ∈
      (rules.filter fun s => s.name == u).map fun s => (s.toPhrase, s.skip) := by
    rw [← hgives.same]
    exact List.mem_map_of_mem (List.mem_filter.mpr ⟨hmemr, beq_self_eq_true _⟩)
  obtain ⟨s, hfilter, _⟩ := List.mem_map.mp hphrase
  obtain ⟨hs, hsname⟩ := List.mem_filter.mp hfilter
  obtain rfl : s.name = u := beq_iff_eq.mp hsname
  obtain ⟨o, ho, hso, honame⟩ := hgroup hs
  obtain ⟨before, later, hsplit⟩ := List.append_of_mem hg
  have hparts : front ++ back = before.flatten ++ (g :: later).flatten := by
    rw [← heq, ← List.flatten_append, ← hsplit, hflatten]
  have hbefore : o ∉ before := by
    intro ho
    rcases List.append_eq_append_iff.mp hparts with ⟨rest, hrest, _⟩ | ⟨rest, hrest, _⟩
    · obtain ⟨x, hx, hrx⟩ := List.mem_flatten.mp (hrest ▸ List.mem_append_left _ hr)
      have hx' : x ∈ groups rules := hsplit ▸ List.mem_append_left _ hx
      obtain rfl := hgrouped.eq_of_groupName_eq hx' hg
        ((hgrouped.name x hx' r hrx).trans hgname.symm)
      exact (hgrouped.notMem hsplit).1 hx
    · refine hfront s ?_ rfl
      exact hrest ▸ List.mem_append_left _ (List.mem_flatten.mpr ⟨o, ho, hso⟩)
  have hlater : o ∈ later := by
    rw [hsplit, List.mem_append, List.mem_cons] at ho
    refine (ho.resolve_left hbefore).resolve_left fun hog => hfront r hr ?_
    rw [hog, hgname] at honame
    exact Option.some.inj honame
  refine exists_mem_targets hgrouped hsplit hlater ?_ hgname
  have hsame := hgives.same
  rw [← hflatten, hgrouped.filter_eq hg hgname, hgrouped.filter_eq ho honame] at hsame
  simp only [canMerge, Bool.and_eq_true, sameBodies_iff, isMergeable_iff hgname,
    isMergeable_iff honame]
  exact ⟨⟨hgives.anonymous, hgives.anonymous'⟩, hsame⟩

/-- A symbol stays exactly when no later one has the same rules. -/
theorem lookup_eq_none_iff (h : InStretches rules) :
    (targets terms (groups rules)).lookup t = none ↔ ∀ u, ¬ GivesWay terms rules t u := by
  constructor
  · intro hnone u hgives
    obtain ⟨v, hv⟩ := hgives.exists_mem_targets h
    have hne := List.lookup_eq_none_iff.mp hnone _ hv
    simp at hne
  · exact fun hno => lookup_eq_none fun u hu => hno u (givesWay_of_mem_targets h hu)

/-! ## §4 Languages -/

/-- The symbols that merging takes for one have the same parts in their rules. -/
theorem GivesWay.exists_rule_iff (h : GivesWay terms rules t u) {parts : List Term} :
    (∃ r ∈ rules, r.name = t ∧ r.parts = parts) ↔ ∃ r ∈ rules, r.name = u ∧ r.parts = parts := by
  have hparts (v : Term) : (∃ r ∈ rules, r.name = v ∧ r.parts = parts) ↔
      parts ∈ ((rules.filter fun r => r.name == v).map fun r => (r.toPhrase, r.skip)).map
        fun p => p.1.parts := by
    simp [and_assoc]
  rw [hparts, hparts, h.same]

section

variable {parts word : List Term} (h : InStretches rules)
include h

/-- Symbols that are merged, and those they are merged into, are no terminals. -/
theorem isTerminal_of_lookup (hl : (targets terms (groups rules)).lookup t = some u) :
    terms.isTerminal t = false ∧ terms.isTerminal u = false := by
  have hkind {v : Term} (hv : (terms.info v).isDistinct = false) : terms.isTerminal v = false := by
    simp only [TermInfo.isDistinct, Bool.or_eq_false_iff, bne_eq_false_iff_eq] at hv
    rw [TermTable.isTerminal, hv.1.1.1]
    rfl
  have hgives := givesWay_of_mem_targets h (mem_of_lookup hl)
  exact ⟨hkind hgives.anonymous, hkind hgives.anonymous'⟩

/-- What is derived from parts is derived after merging from what takes their place. -/
theorem derives_merge (count : Nat) (hword : Derives terms.isTerminal rules parts word) :
    Derives terms.isTerminal (merge terms count rules).1
      (parts.map (replace (targets terms (groups rules)))) word := by
  induction hword with
  | nil => exact .nil
  | @terminal t parts word ht _ ih =>
    have hself : replace (targets terms (groups rules)) t = t := by
      rw [replace]
      cases hl : (targets terms (groups rules)).lookup t with
      | none => rfl
      | some u =>
        rw [(isTerminal_of_lookup h hl).1] at ht
        cases ht
    rw [List.map_cons, hself]
    exact .terminal ht ih
  | @rule r parts word rest hr hn _ _ ihBody ihAfter =>
    -- The rule of the symbol that stays, which has the same parts.
    have hstays : ∃ s ∈ rules, s.parts = r.parts ∧ terms.isTerminal s.name = false ∧
        s.name = replace (targets terms (groups rules)) r.name ∧
        (targets terms (groups rules)).lookup s.name = none := by
      rw [replace]
      cases hl : (targets terms (groups rules)).lookup r.name with
      | none => exact ⟨r, hr, rfl, hn, rfl, hl⟩
      | some u =>
        have hmem := mem_of_lookup hl
        obtain ⟨s, hs, rfl, hparts⟩ :=
          (givesWay_of_mem_targets h hmem).exists_rule_iff.mp ⟨r, hr, rfl, rfl⟩
        exact ⟨s, hs, hparts, (isTerminal_of_lookup h hl).2, rfl,
          lookup_target (grouped_groups h) hmem⟩
    obtain ⟨s, hs, hparts, hn, hname, hkept⟩ := hstays
    obtain ⟨s', hs', hname', hparts'⟩ := exists_mem_applyAll hs hkept count
    rw [List.map_cons, ← hname, ← hname']
    refine .rule hs' ?_ ?_ ihAfter
    · exact hname' ▸ hn
    · rw [hparts', hparts]
      exact ihBody

/-- What is derived after merging from what takes the place of parts is derived from these. -/
theorem derives_of_merge {count : Nat}
    (hword : Derives terms.isTerminal (merge terms count rules).1
      (parts.map (replace (targets terms (groups rules)))) word) :
    Derives terms.isTerminal rules parts word := by
  generalize hout : parts.map (replace (targets terms (groups rules))) = out at hword
  induction hword generalizing parts with
  | nil =>
    rw [List.map_eq_nil_iff.mp hout]
    exact .nil
  | @terminal t out word ht _ ih =>
    obtain ⟨p, parts, rfl, hp, hrest⟩ := List.map_eq_cons_iff.mp hout
    rw [replace] at hp
    cases hl : (targets terms (groups rules)).lookup p with
    | none =>
      rw [hl] at hp
      obtain rfl : p = t := hp
      exact .terminal ht (ih hrest)
    | some u =>
      rw [hl] at hp
      obtain rfl : u = t := hp
      rw [(isTerminal_of_lookup h hl).2] at ht
      cases ht
  | @rule r' out word rest hr' hn _ _ ihBody ihAfter =>
    obtain ⟨p, parts, rfl, hp, hrest⟩ := List.map_eq_cons_iff.mp hout
    obtain ⟨r, hr, _, hname, hparts⟩ := mem_applyAll hr'
    -- The rule of the part with the same parts.
    have hown : ∃ s ∈ rules, s.name = p ∧ terms.isTerminal p = false ∧ s.parts = r.parts := by
      rw [replace] at hp
      cases hl : (targets terms (groups rules)).lookup p with
      | none =>
        rw [hl] at hp
        obtain rfl : p = r'.name := hp
        exact ⟨r, hr, hname.symm, hn, rfl⟩
      | some u =>
        rw [hl] at hp
        obtain ⟨s, hs, hsname, hsparts⟩ :=
          (givesWay_of_mem_targets h (mem_of_lookup hl)).exists_rule_iff.mpr
            ⟨r, hr, hname.symm.trans hp.symm, rfl⟩
        exact ⟨s, hs, hsname, (isTerminal_of_lookup h hl).1, hsparts⟩
    obtain ⟨s, hs, rfl, hn, hsparts⟩ := hown
    exact .rule hs hn (hsparts ▸ ihBody hparts.symm) (ihAfter hrest)

/-- The symbol in place of a symbol stands for what this stood for. -/
theorem derives_replace_iff (count : Nat) : Derives terms.isTerminal (merge terms count rules).1
      [replace (targets terms (groups rules)) t] word ↔
    Derives terms.isTerminal rules [t] word := by
  constructor
  · intro hword
    exact derives_of_merge h (hword : Derives _ _ ([t].map _) _)
  · intro hword
    exact derives_merge h count hword

/-- A symbol is its own replacement exactly when it is not merged. -/
theorem replace_eq_self_iff : replace (targets terms (groups rules)) t = t ↔
    (targets terms (groups rules)).lookup t = none := by
  rw [replace]
  cases hl : (targets terms (groups rules)).lookup t with
  | none => simp
  | some u =>
    have hne : u ≠ t := by
      rintro rfl
      rw [lookup_target (grouped_groups h) (mem_of_lookup hl)] at hl
      cases hl
    simpa using hne

/-- No symbol that is merged takes the place of another. -/
theorem lookup_replace (t : Term) : (targets terms (groups rules)).lookup
    (replace (targets terms (groups rules)) t) = none := by
  rw [replace]
  cases hl : (targets terms (groups rules)).lookup t with
  | none => exact hl
  | some u => exact lookup_target (grouped_groups h) (mem_of_lookup hl)

omit h in
/-- The symbols with rules after merging are those with rules that are not merged. -/
theorem exists_rule_merge_iff (count : Nat) : (∃ r ∈ (merge terms count rules).1, r.name = t) ↔
    (∃ r ∈ rules, r.name = t) ∧ (targets terms (groups rules)).lookup t = none := by
  constructor
  · rintro ⟨r', hr', rfl⟩
    obtain ⟨r, hr, hkept, hname, _⟩ := mem_applyAll hr'
    exact ⟨⟨r, hr, hname.symm⟩, hname ▸ hkept⟩
  · rintro ⟨⟨r, hr, rfl⟩, hkept⟩
    obtain ⟨r', hr', hname, _⟩ := exists_mem_applyAll hr hkept count
    exact ⟨r', hr', hname⟩

end

/-- Merging takes symbols with the same rules for one, and changes nothing else. A symbol that
still has rules stands for what it stood for. A symbol that has lost its rules is a part of no
rule any longer: everywhere another symbol is in its place, which still has rules and stood for
the same. -/
theorem merge_quotient (terms : TermTable) (count : Nat) {rules : List Rule}
    (h : InStretches rules) :
    let merged := (merge terms count rules).1
    let inPlaceOf := replace (targets terms (groups rules))
    (∀ t, (∃ r ∈ merged, r.name = t) → inPlaceOf t = t ∧ ∀ word,
      Derives terms.isTerminal merged [t] word ↔ Derives terms.isTerminal rules [t] word) ∧
    (∀ t, (∃ r ∈ rules, r.name = t) → (¬ ∃ r ∈ merged, r.name = t) →
      (∀ r ∈ merged, t ∉ r.parts) ∧ (∃ r ∈ merged, r.name = inPlaceOf t) ∧ ∀ word,
        Derives terms.isTerminal rules [inPlaceOf t] word ↔
          Derives terms.isTerminal rules [t] word) ∧
    merged.map (fun r => (r.name, r.toPhrase, r.skip)) =
      (rules.filter fun r => inPlaceOf r.name == r.name).map fun r =>
        (r.name, ⟨r.parts.map inPlaceOf, r.marks⟩, r.skip) := by
  intro merged inPlaceOf
  refine ⟨?_, ?_, ?_⟩
  · intro t hstays
    have hself : inPlaceOf t = t :=
      (replace_eq_self_iff h).mpr ((exists_rule_merge_iff count).mp hstays).2
    refine ⟨hself, fun word => ?_⟩
    rw [← derives_replace_iff h count, show replace (targets terms (groups rules)) t = t from hself]
  · intro t hrules hgone
    have hmerged : (targets terms (groups rules)).lookup t ≠ none := by
      intro hkept
      exact hgone ((exists_rule_merge_iff count).mpr ⟨hrules, hkept⟩)
    obtain ⟨u, hu⟩ := Option.ne_none_iff_exists'.mp hmerged
    have hplace : inPlaceOf t = u := by
      simp [inPlaceOf, replace, hu]
    rw [hplace]
    refine ⟨?_, ?_, ?_⟩
    · intro r' hr' ht
      obtain ⟨r, _, _, _, hparts⟩ := mem_applyAll hr'
      rw [hparts] at ht
      obtain ⟨p, _, rfl⟩ := List.mem_map.mp ht
      exact hmerged (lookup_replace h p)
    · obtain ⟨r, hr, rfl⟩ := hrules
      obtain ⟨s, hs, hname, _⟩ :=
        (givesWay_of_mem_targets h (mem_of_lookup hu)).exists_rule_iff.mp ⟨r, hr, rfl, rfl⟩
      exact (exists_rule_merge_iff count).mpr
        ⟨⟨s, hs, hname⟩, lookup_target (grouped_groups h) (mem_of_lookup hu)⟩
    · intro word
      have hkept := lookup_target (grouped_groups h) (mem_of_lookup hu)
      have hself := (replace_eq_self_iff h).mpr hkept
      rw [← derives_replace_iff h count (t := t), ← derives_replace_iff h count (t := u), hself]
      rw [show replace (targets terms (groups rules)) t = u from hplace]
  · have hfilter : rules.filter (fun r => inPlaceOf r.name == r.name) =
        rules.filter fun r => ((targets terms (groups rules)).lookup r.name).isNone := by
      refine List.filter_congr fun r _ => ?_
      rw [Bool.eq_iff_iff, beq_iff_eq, Option.isNone_iff_eq_none]
      exact replace_eq_self_iff h
    rw [hfilter]
    exact map_applyAll _ count rules

/-- The symbols of a grammar in which one symbol stands for another: `a`, `b`, the top symbol, and
two lists. -/
def twinTerms : TermTable where
  entries := TermTable.initial.entries ++
    #[⟨"a", .terminal, none, [], false, false⟩, ⟨"b", .terminal, none, [], false, false⟩,
      ⟨"T", .top, some "T", [], false, false⟩, ⟨"x", .nonterminal, none, [], false, false⟩,
      ⟨"y", .nonterminal, none, [], false, false⟩]
  tops := [⟨4⟩]

/-- Two lists with the same rules, both of which go on with the first. -/
def twinRules : List Rule :=
  let rule (id name : Nat) (parts : List Nat) : Rule :=
    { parts := parts.map .mk, marks := List.replicate (parts.length + 1) .none, id, name := ⟨name⟩,
      skip := .eof }
  [rule 0 4 [5, 6], rule 1 5 [2, 5], rule 2 5 [3], rule 3 6 [2, 5], rule 4 6 [3]]

/-- Of the two lists the second stays, and goes on with itself. -/
theorem merge_twinRules : InStretches twinRules ∧
    let merged := (merge twinTerms 5 twinRules).1
    (merged.map fun r => (r.name.index, r.parts.map Term.index)) =
        [(4, [6, 6]), (6, [2, 6]), (6, [3])] ∧
      (∀ r ∈ merged, ⟨5⟩ ∉ r.parts) ∧
      ∀ word, Derives twinTerms.isTerminal merged [⟨6⟩] word ↔
        Derives twinTerms.isTerminal twinRules [⟨5⟩] word := by
  have hstretches : InStretches twinRules := by
    have htop : InStretches (twinRules.take 1) := .append .nil (t := ⟨4⟩) (by decide) nofun
    have hlist : InStretches (twinRules.take 3) :=
      .append htop (t := ⟨5⟩) (by decide : ∀ r ∈ (twinRules.drop 1).take 2, r.name = ⟨5⟩) (by decide)
    exact .append hlist (t := ⟨6⟩) (by decide : ∀ r ∈ twinRules.drop 3, r.name = ⟨6⟩) (by decide)
  obtain ⟨hstay, hgone, _⟩ := merge_quotient twinTerms 5 hstretches
  have hlost := hgone ⟨5⟩ (by decide) (by decide)
  have hplace : replace (targets twinTerms (groups twinRules)) ⟨5⟩ = ⟨6⟩ := by decide
  refine ⟨hstretches, by decide, hlost.1, fun word => ?_⟩
  rw [(hstay ⟨6⟩ (by decide)).2 word, ← hlost.2.2 word, hplace]

end Merging

/-! ## §5 Grammars -/

/-- A pass of inlining leaves rules in stretches. -/
theorem Replacements.inStretches_applyAll {rules : List Rule} (h : InStretches rules)
    (chosen : Replacements) (next : Nat) : InStretches (chosen.applyAll next rules).1 := by
  have happend (rules rules' : List Rule) (next : Nat) : ∃ next',
      (chosen.applyAll next (rules ++ rules')).1 =
        (chosen.applyAll next rules).1 ++ (chosen.applyAll next' rules').1 := by
    induction rules generalizing next with
    | nil => exact ⟨next, rfl⟩
    | cons r rules ih =>
      obtain ⟨next', heq⟩ := ih (next + chosen.created r)
      refine ⟨next', ?_⟩
      rw [List.cons_append, applyAll, applyAll]
      simp only [heq, List.append_assoc]
  induction h with
  | nil => exact .nil
  | @append rules stretch t before named new ih =>
    obtain ⟨next', heq⟩ := happend rules stretch next
    rw [heq]
    refine .append ih (t := t) (fun r hr => ?_) fun r hr => ?_
    · obtain ⟨s, hs, _, hname, _⟩ := mem_applyAll hr
      exact hname.trans (named s hs)
    · obtain ⟨s, hs, _, hname, _⟩ := mem_applyAll hr
      exact hname ▸ new s hs

/-- Inlining leaves rules in stretches. -/
theorem Inlining.Runs.inStretches {terms : TermTable} {preserve : List Term} {first : Bool}
    {rules result : List Rule} {passes : List Pass}
    (h : Runs terms preserve first rules passes result) (hrules : InStretches rules) :
    InStretches result :=
  h.preserves (fun chosen count _ hrules => Replacements.inStretches_applyAll hrules chosen count)
    hrules

/-- Two steps that never fail, one after the other. -/
theorem Compile.exists_ok_of_then {α β : Type} {m : Stage α} {k : α → Stage β} {a : α} {b : β}
    {journal : Journal} (hm : ∃ journal', m journal = .ok a journal')
    (hk : ∀ journal, ∃ journal', k a journal = .ok b journal') :
    ∃ journal', (m >>= k) journal = .ok b journal' := by
  obtain ⟨noted, hnoted⟩ := hm
  obtain ⟨journal', heq⟩ := hk noted
  refine ⟨journal', ?_⟩
  change EStateM.bind _ _ journal = _
  rw [EStateM.bind, hnoted]
  exact heq

/-- Simplifying rules never fails. -/
theorem Compile.exists_simplify (d : Draft) (journal : Journal) :
    let inlined := Inlining.ofRules d.terms (d.skipTerms ++ d.terms.tops) d.rules.length d.rules
    ∃ journal', simplify d journal =
      .ok (Merging.merge d.terms inlined.ruleCount inlined.rules).1 journal' := by
  have hnotes {f : Nat × Nat → Stage PUnit} (hf : ∀ p journal, ∃ journal',
      f p journal = .ok ⟨⟩ journal') (passes : List (Nat × Nat)) (journal : Journal) :
      ∃ journal', passes.forM f journal = .ok ⟨⟩ journal' := by
    induction passes generalizing journal with
    | nil => exact ⟨journal, rfl⟩
    | cons p passes ih => exact exists_ok_of_then (hf p journal) ih
  exact exists_ok_of_then (hnotes (fun _ _ => ⟨_, rfl⟩) _ journal) fun _ => ⟨_, rfl⟩

/-- The rules of a grammar text stand in stretches after inlining. -/
theorem Blueprint.inStretches_inlined {source : Text.Source} {b : Blueprint} {journal : Journal}
    (h : Blueprint.ofSource source = (.ok b, journal)) :
    InStretches (Inlining.ofRules b.draft.terms (b.draft.skipTerms ++ b.draft.terms.tops)
      b.draft.rules.length b.draft.rules).rules :=
  (Inlining.runs_ofRules _ _ _ _).inStretches (tidy_of_ofSource h).stretches

/-- Simplifying the rules of a grammar ends with merging. What is derived from a symbol before
merging is derived afterwards from the symbol in its place. A symbol that is skipped or at the top
and has rules keeps them, and what it stands for, exactly when there is no later anonymous symbol
with the same rules. For symbols at the top there is none. -/
theorem Blueprint.merging_keeps_iff {source : Text.Source} {b : Blueprint} {journal : Journal}
    (h : Blueprint.ofSource source = (.ok b, journal)) :
    let terms := b.draft.terms
    let preserve := b.draft.skipTerms ++ terms.tops
    let inlined := Inlining.ofRules terms preserve b.draft.rules.length b.draft.rules
    let before := inlined.rules
    let merged := (Merging.merge terms inlined.ruleCount before).1
    let inPlaceOf := Merging.replace (Merging.targets terms (Merging.groups before))
    let Keeps := fun t => (∃ r ∈ merged, r.name = t) ∧ ∀ word,
      Derives terms.isTerminal merged [t] word ↔ Derives terms.isTerminal before [t] word
    (∀ journal, ∃ journal', Compile.simplify b.draft journal = .ok merged journal') ∧
      (∀ t word, Derives terms.isTerminal merged [inPlaceOf t] word ↔
        Derives terms.isTerminal before [t] word) ∧
      (∀ t ∈ preserve, (∃ r ∈ before, r.name = t) →
        (Keeps t ↔ ∀ u, ¬ Merging.GivesWay terms before t u)) ∧
      ∀ t ∈ terms.tops, ∀ u, ¬ Merging.GivesWay terms before t u := by
  intro terms preserve inlined before merged inPlaceOf Keeps
  have hstretches : InStretches before := inStretches_inlined h
  have hwords (t : Term) (word : List Term) : Derives terms.isTerminal merged [inPlaceOf t] word ↔
      Derives terms.isTerminal before [t] word := Merging.derives_replace_iff hstretches _
  refine ⟨Compile.exists_simplify b.draft, hwords, fun t _ hrules => ?_, fun t ht u hu => ?_⟩
  · rw [← Merging.lookup_eq_none_iff hstretches]
    constructor
    · rintro ⟨hstays, _⟩
      exact ((Merging.exists_rule_merge_iff _).mp hstays).2
    · intro hkept
      have hself : inPlaceOf t = t := (Merging.replace_eq_self_iff hstretches).mpr hkept
      refine ⟨(Merging.exists_rule_merge_iff _).mpr ⟨hrules, hkept⟩, fun word => ?_⟩
      rw [← hwords t word, hself]
  · have hkind : (terms.info t).kind = .top := by
      simpa [TermTable.isTop] using (tidy_of_ofSource h).tops t ht
    have hdistinct := hu.anonymous
    rw [TermInfo.isDistinct, hkind] at hdistinct
    cases hdistinct

/-- Blanks are skipped, and two rules stand for a blank where blanks are skipped. -/
def blankRules : Text.Source :=
  ⟨"", "@skip \x7b \" \" | \"\\t\" \x7d @top T \x7b blank \"a\" space \x7d
    blank \x7b \" \" | \"\\t\" \x7d space \x7b \" \" | \"\\t\" \x7d"⟩

/-- The first of the two rules is merged into the second, and what is skipped stays. -/
theorem Blueprint.merging_keeps_blankRules :
    ∃ b journal, Blueprint.ofSource blankRules = (.ok b, journal) ∧
      let terms := b.draft.terms
      let inlined := Inlining.ofRules terms (b.draft.skipTerms ++ terms.tops)
        b.draft.rules.length b.draft.rules
      let merged := (Merging.merge terms inlined.ruleCount inlined.rules).1
      (∃ t, (∃ r ∈ inlined.rules, r.name = t) ∧ ¬ ∃ r ∈ merged, r.name = t) ∧
        ∃ t ∈ b.draft.skipTerms, (∃ r ∈ merged, r.name = t) ∧ ∀ word,
          Derives terms.isTerminal merged [t] word ↔
            Derives terms.isTerminal inlined.rules [t] word := by
  have hcheck : (Blueprint.ofSource blankRules).1.toOption.any (fun b =>
      let terms := b.draft.terms
      let inlined := Inlining.ofRules terms (b.draft.skipTerms ++ terms.tops)
        b.draft.rules.length b.draft.rules
      let merged := (Merging.merge terms inlined.ruleCount inlined.rules).1
      b.draft.skipTerms.contains ⟨3⟩ && (inlined.rules.any (·.name == ⟨3⟩) &&
        (inlined.rules.any (·.name == ⟨7⟩) && (merged.all (·.name != ⟨7⟩) &&
          ((Merging.targets terms (Merging.groups inlined.rules)).lookup ⟨3⟩).isNone)))) = true := by
    decide +kernel
  obtain ⟨b, journal, h, hcheck⟩ := exists_ok_fst_of_any hcheck
  simp only [Bool.and_eq_true, List.any_eq_true, List.all_eq_true, beq_iff_eq, bne_iff_ne,
    List.contains_iff_mem, Option.isNone_iff_eq_none] at hcheck
  obtain ⟨hskip, hrule, hbefore, hafter, hnone⟩ := hcheck
  refine ⟨b, journal, h, ⟨⟨7⟩, hbefore, ?_⟩, ⟨3⟩, hskip, ?_⟩
  · rintro ⟨r, hr, hname⟩
    exact hafter r hr hname
  · have hkeeps := (Blueprint.merging_keeps_iff h).2.2.1 ⟨3⟩ (List.mem_append_left _ hskip) hrule
    exact hkeeps.mpr ((Merging.lookup_eq_none_iff (inStretches_inlined h)).mp hnone)

/-- Blanks are skipped, and a rule stands for a blank where nothing is skipped. -/
def quotedBlank : Text.Source :=
  ⟨"", "@skip \x7b \" \" | \"\\t\" \x7d @skip \x7b\x7d \x7b str \x7b \"q\" ws \"q\" \x7d
    ws \x7b \" \" | \"\\t\" \x7d \x7d @top T \x7b \"a\" str \"b\" \x7d"⟩

/-- What is skipped is merged into the rule, and so nothing is skipped any longer. -/
theorem Blueprint.merging_loses_quotedBlank :
    ∃ b journal, Blueprint.ofSource quotedBlank = (.ok b, journal) ∧
      let terms := b.draft.terms
      let inlined := Inlining.ofRules terms (b.draft.skipTerms ++ terms.tops)
        b.draft.rules.length b.draft.rules
      let merged := (Merging.merge terms inlined.ruleCount inlined.rules).1
      ∃ t ∈ b.draft.skipTerms, (∃ r ∈ inlined.rules, r.name = t) ∧
        (¬ ∃ r ∈ merged, r.name = t) ∧ ∃ word,
          Derives terms.isTerminal inlined.rules [t] word ∧
            ¬ Derives terms.isTerminal merged [t] word := by
  have hcheck : (Blueprint.ofSource quotedBlank).1.toOption.any (fun b =>
      let terms := b.draft.terms
      let inlined := Inlining.ofRules terms (b.draft.skipTerms ++ terms.tops)
        b.draft.rules.length b.draft.rules
      let merged := (Merging.merge terms inlined.ruleCount inlined.rules).1
      b.draft.skipTerms.contains ⟨3⟩ &&
        (inlined.rules.any (fun r => r.name == ⟨3⟩ && r.parts == [⟨4⟩]) &&
        (merged.all (·.name != ⟨3⟩) &&
          (terms.isTerminal ⟨4⟩ && !terms.isTerminal ⟨3⟩)))) = true := by
    decide +kernel
  obtain ⟨b, journal, h, hcheck⟩ := exists_ok_fst_of_any hcheck
  simp only [Bool.and_eq_true, List.any_eq_true, List.all_eq_true, beq_iff_eq, bne_iff_ne,
    List.contains_iff_mem, Bool.not_eq_true'] at hcheck
  obtain ⟨hskip, ⟨r, hr, hname, hparts⟩, hafter, hterminal, hnonterminal⟩ := hcheck
  refine ⟨b, journal, h, ⟨3⟩, hskip, ⟨r, hr, hname⟩, ?_, [⟨4⟩], ?_, fun hword => ?_⟩
  · rintro ⟨r, hr, hname⟩
    exact hafter r hr hname
  · rw [← hname]
    refine .of_rule hr (hname ▸ hnonterminal) ?_
    rw [hparts]
    exact .of_terminal hterminal
  · obtain ⟨r, hr, hname, _⟩ := hword.exists_rule hnonterminal
    exact hafter r hr hname

end GrammarCompiler
