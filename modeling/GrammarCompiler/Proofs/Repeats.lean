/-
GrammarCompiler.Proofs.Repeats — what is decided between repeats.

In a grammar without marks only repeats decide between actions: the reduction by
a complete rule that makes a longer repeat out of two shorter ones (`Item.wraps`)
takes the place of any other action that has to do with the same repeat. All other
actions that meet are a conflict. So where there is none, a state does what its
items call for, unless such a reduction took its place (`Decided`).

  §1 Comparison — which of two actions repeats decide for.
  §2 Additions  — adding an action where only repeats decide.
  §3 Readings   — what stays of all that the items of a state call for.
  §4 States     — states without conflicts.
-/
import GrammarCompiler.Proofs.Resolution
import GrammarCompiler.Proofs.Simulation

namespace GrammarCompiler

/-! ## §1 Comparison -/

/-- Whether an item is at the end of a rule that makes a longer repeat out of two
shorter ones. -/
def Item.wraps (terms : TermTable) (i : Item) : Bool :=
  i.rule.isRepeatWrap terms && i.dot == 2

namespace Item

variable {terms : TermTable} {i : Item}

theorem length_of_wraps (h : i.wraps terms = true) : i.rule.parts.length = 2 := by
  simp only [wraps, Rule.isRepeatWrap, Bool.and_eq_true, beq_iff_eq] at h
  exact h.1.1.2

theorem dot_of_wraps (h : i.wraps terms = true) : i.dot = 2 := by
  simpa using ((Bool.and_eq_true _ _).mp h).2

theorem atEnd_of_wraps (h : i.wraps terms = true) : i.atEnd = true := by
  rw [Dotted.atEnd, dot_of_wraps h, length_of_wraps h]
  rfl

theorem wraps_of_atEnd (h : i.rule.isRepeatWrap terms = true) (hend : i.atEnd = true) :
    i.wraps terms = true := by
  have hdot : i.dot = i.rule.parts.length := by simpa [Dotted.atEnd] using hend
  have hlength : i.rule.parts.length = 2 := by
    simp only [Rule.isRepeatWrap, Bool.and_eq_true, beq_iff_eq] at h
    exact h.1.2
  rw [wraps, h, hdot, hlength]
  rfl

/-- Nothing is read next where a rule is complete. -/
theorem next?_of_wraps (h : i.wraps terms = true) : i.next? = none := by
  rw [Dotted.next?, List.getElem?_eq_none_iff]
  exact Nat.le_of_eq ((length_of_wraps h).trans (dot_of_wraps h).symm)

theorem exists_parts_of_wraps (h : i.wraps terms = true) :
    ∃ t, i.rule.parts = [i.rule.name, t] := by
  obtain ⟨u, t, hparts⟩ := List.length_eq_two.mp (length_of_wraps h)
  simp only [wraps, Rule.isRepeatWrap, Bool.and_eq_true, beq_iff_eq, hparts, List.head?_cons,
    Option.some.injEq] at h
  exact ⟨t, by rw [hparts, h.1.2]⟩

/-- Repeats are no terminals. -/
theorem isTerminal_of_wraps (h : i.wraps terms = true) :
    terms.isTerminal i.rule.name = false := by
  simp only [wraps, Rule.isRepeatWrap, TermTable.isRepeat, Bool.and_eq_true, beq_iff_eq] at h
  rw [TermTable.isTerminal, h.1.1.1]
  rfl

/-- Repeats are no top symbols. -/
theorem isTop_of_wraps (h : i.wraps terms = true) : terms.isTop i.rule.name = false := by
  simp only [wraps, Rule.isRepeatWrap, TermTable.isRepeat, Bool.and_eq_true, beq_iff_eq] at h
  rw [TermTable.isTop, h.1.1.1]
  rfl

end Item

namespace Cause

variable {g : Grammar} {context : List Item}

/-- Repeats decide for a longer repeat that is complete, if items on the other side
are for rules of the same repeat. -/
theorem compareRepeats_cases (terms : TermTable) (as bs : List Item) :
    compareRepeats terms as bs = .eq ∨ ∃ a ∈ as, ∃ b ∈ bs, b.rule.name = a.rule.name ∧
      (compareRepeats terms as bs = .gt ∧ a.wraps terms = true ∨
        compareRepeats terms as bs = .lt ∧ a.wraps terms = false ∧ b.wraps terms = true) := by
  unfold compareRepeats
  dsimp only
  cases hfound : List.findSome? _ _ with
  | none => exact .inl rfl
  | some order =>
    obtain ⟨⟨a, b⟩, hpair, hdecide⟩ := List.exists_of_findSome?_eq_some hfound
    obtain ⟨a', ha, hb⟩ := List.mem_flatMap.mp hpair
    split at hb
    · obtain ⟨b', hmem, heq⟩ := List.mem_map.mp hb
      obtain ⟨rfl, rfl⟩ := Prod.mk.inj heq
      obtain ⟨hmem, hname⟩ := List.mem_filter.mp hmem
      refine .inr ⟨a', ha, b', hmem, by simpa using hname, ?_⟩
      change (if a'.wraps terms = true then some Ordering.gt
        else if b'.wraps terms = true then some Ordering.lt else none) = some order at hdecide
      split at hdecide
      · cases hdecide
        exact .inl ⟨rfl, ‹_›⟩
      · rename_i ha'
        split at hdecide
        · cases hdecide
          exact .inr ⟨rfl, by simpa using ha', ‹_›⟩
        · cases hdecide
    · cases hb

/-- The items that rules come from read something next. -/
theorem mem_or_next?_of_mem_originsFrom {fuel : Nat} {found queue : List Item} {i : Item}
    (h : i ∈ originsFrom context fuel found queue) : i ∈ found ∨ i.next? ≠ none := by
  induction fuel generalizing found queue with
  | zero => exact .inl h
  | succ fuel ih =>
    cases queue with
    | nil => exact .inl h
    | cons j queue =>
      unfold originsFrom at h
      dsimp only at h
      split at h
      · rcases ih h with h | h
        · rcases List.mem_append.mp h with h | h
          · exact .inl h
          · have hnext := (List.mem_filter.mp (List.mem_of_mem_filter h)).2
            exact .inr (by simp_all)
        · exact .inr h
      · exact ih h

/-- A longer repeat that is complete is not where a rule comes from. -/
theorem mem_of_wraps {items : List Item} {i : Item} (h : i ∈ withOrigins context items)
    (hi : i.wraps g.terms = true) : i ∈ items :=
  (mem_or_next?_of_mem_originsFrom h).resolve_right fun hnext => hnext (Item.next?_of_wraps hi)

/-- A rule that has been begun comes from no other item of the state. -/
theorem withOrigins_singleton {i : Item} (h : i.dot ≠ 0) : withOrigins context [i] = [i] := by
  have hdot : (i.dot == 0) = false := by simpa using h
  have hnil : ∀ fuel, originsFrom context fuel [i] [] = [i] := fun fuel => by
    cases fuel <;> rfl
  rw [withOrigins, originsFrom, hdot, if_neg Bool.false_ne_true, hnil]

/-! ## §2 Additions -/

/-- The first action for a terminal is added behind the others. -/
theorem add_of_new_term {new : Cause} {causes : List Cause}
    (h : ∀ c ∈ causes, c.action.term ≠ new.action.term) :
    add g context new causes = .added (causes ++ [new]) := by
  induction causes with
  | nil => rfl
  | cons old rest ih =>
    unfold add
    rw [if_pos (by simpa using h old (.head _)), ih fun c hc => h c (.tail _ hc)]
    rfl

/-- What becomes of an action in a grammar without marks, when there is one other
action for its terminal. -/
theorem add_of_unmarked (hg : g.Unmarked) (hc : ArePlain g context) {new old : Cause}
    (hnew : ArePlain g new.items) (hold : ArePlain g old.items)
    (hterm : old.action.term = new.action.term) {before after : List Cause}
    (hbefore : ∀ c ∈ before, c.action.term ≠ new.action.term)
    (hafter : ∀ c ∈ after, c.action.term ≠ new.action.term) :
    add g context new (before ++ old :: after) =
      if old.action.same g new.action then .refused (before ++ old :: after)
      else match compareRepeats g.terms (withOrigins context new.items)
          (withOrigins context old.items) with
        | .gt => .added (before ++ after ++ [new])
        | .lt => .refused (before ++ old :: after)
        | .eq => .clash (before ++ old :: after) old := by
  induction before with
  | nil =>
    have hnew := marksOf_eq_none hg (arePlain_withOrigins hc hnew)
    have hold := marksOf_eq_none hg (arePlain_withOrigins hc hold)
    rw [List.nil_append, List.nil_append]
    unfold add
    dsimp only
    rw [if_neg (by simpa using hterm), hnew, hold, add_of_new_term hafter]
    split
    · rfl
    · cases compareRepeats g.terms (withOrigins context new.items)
        (withOrigins context old.items) <;> rfl
  | cons c before ih =>
    rw [List.cons_append]
    unfold add
    rw [if_pos (by simpa using hbefore c (.head _)), ih fun c hc => hbefore c (.tail _ hc)]
    split
    · rfl
    · split <;> rfl

end Cause

namespace Search

variable {g : Grammar} {context : List Item}

/-- What becomes of an action in a grammar without marks, when no two of the others
are for one terminal and there is no conflict. -/
theorem addAction_of_unmarked (hg : g.Unmarked) (hc : ArePlain g context) {new : Cause}
    (hnew : ArePlain g new.items) (hne : new.items ≠ []) {causes : Array Cause}
    (hcauses : ∀ old ∈ causes.toList, ArePlain g old.items ∧ old.items ≠ [])
    (hnodup : (termsOf causes.toList).Nodup) {s : Search}
    (hclash : (addAction g context new causes s).2.clashes = []) :
    (addAction g context new causes s).1.toList = causes.toList ++ [new] ∨
    ∃ before old after, causes.toList = before ++ old :: after ∧
      old.action.term = new.action.term ∧
      ((addAction g context new causes s).1.toList = causes.toList ∧
          old.action.same g new.action = true ∨
        old.action.same g new.action = false ∧
        ((addAction g context new causes s).1.toList = causes.toList ∧
            Cause.compareRepeats g.terms (Cause.withOrigins context new.items)
              (Cause.withOrigins context old.items) = .lt ∨
          (addAction g context new causes s).1.toList = before ++ after ++ [new] ∧
            Cause.compareRepeats g.terms (Cause.withOrigins context new.items)
              (Cause.withOrigins context old.items) = .gt)) := by
  by_cases hmem : new.action.term ∈ termsOf causes.toList
  · obtain ⟨old, hold, hterm⟩ := List.mem_map.mp hmem
    obtain ⟨before, after, heq⟩ := List.append_of_mem hold
    have hother : ∀ c ∈ before ++ after, c.action.term ≠ new.action.term := by
      rw [heq, termsOf, List.map_append, List.map_cons] at hnodup
      have hnot := (List.nodup_cons.mp (List.perm_middle.nodup_iff.mp hnodup)).1
      intro c hc hct
      rw [← List.map_append] at hnot
      exact hnot (List.mem_map.mpr ⟨c, hc, hct.trans hterm.symm⟩)
    have hadd := Cause.add_of_unmarked hg hc hnew (hcauses old hold).1 hterm
      (fun c hc => hother c (List.mem_append_left _ hc))
      (fun c hc => hother c (List.mem_append_right _ hc))
    rw [← heq] at hadd
    refine .inr ⟨before, old, after, heq, hterm, ?_⟩
    rw [addAction_fst, if_pos hmem, hadd]
    split
    · exact .inl ⟨rfl, ‹_›⟩
    · rename_i hsame
      refine .inr ⟨by simpa using hsame, ?_⟩
      split
      · exact .inr ⟨rfl, ‹_›⟩
      · exact .inl ⟨rfl, ‹_›⟩
      · -- Otherwise the two would be a conflict.
        rename_i hcompare
        have hany : (causes.any fun c => c.action.term == new.action.term) = true := by
          rw [← Array.any_toList, List.any_eq_true]
          exact ⟨old, hold, by simpa using hterm⟩
        rw [addAction, if_pos hany, hadd, if_neg hsame, hcompare] at hclash
        exact absurd hclash (Clash.log_ne_nil (hcauses old hold).2 hne)
  · exact .inl (by rw [addAction_fst, if_neg hmem])

end Search

/-! ## §3 Readings -/

/-- A cause that reduces by a rule that makes a longer repeat. -/
def Cause.Wraps (g : Grammar) (c : Cause) : Prop :=
  ∃ t i, c = ⟨.reduce t i.rule, [i]⟩ ∧ i.wraps g.terms = true

/-- What items call for: shifts of what they read next, and reductions of
complete rules. -/
inductive Cause.IsWanted (items : List Item) : Cause → Prop where
  | shift {t : Term} {q : Nat} {reading : List Item} (sub : ∀ i ∈ reading, i ∈ items)
      (next : ∀ i ∈ reading, i.next? = some t) (ne_nil : reading ≠ []) :
      IsWanted items ⟨.shift t q, reading⟩
  | reduce {t : Term} {i : Item} (mem : i ∈ items) (complete : i.atEnd = true)
      (ahead : i.ahead.contains t = true) : IsWanted items ⟨.reduce t i.rule, [i]⟩

/-- `Weighed g items wanted causes`: of the actions that are wanted those of
`causes` are left, which do the same as the others, or have taken their place. -/
structure Weighed (g : Grammar) (items : List Item) (wanted causes : List Cause) : Prop where
  isWanted : ∀ c ∈ wanted, c.IsWanted items
  sub : ∀ c ∈ causes, c ∈ wanted
  wraps : ∀ c ∈ wanted, c.Wraps g → ∃ c' ∈ causes, c'.action.same g c.action = true
  others : ∀ c ∈ wanted, (∃ c' ∈ causes, c'.action.same g c.action = true) ∨
    ∃ w ∈ wanted, w.Wraps g ∧ w.action.term = c.action.term

theorem Action.same_refl (g : Grammar) (a : Action) : a.same g a = true :=
  Action.same_iff.mpr rfl

/-- Actions that do the same are for the same terminal. -/
theorem Action.term_eq_of_same {g : Grammar} {a b : Action} (h : a.same g b = true) :
    a.term = b.term := by
  cases a <;> cases b <;> simp_all [Action.same, Action.term]

namespace Cause

variable {g : Grammar} {items : List Item}

theorem IsWanted.arePlain (hc : ArePlain g items) {c : Cause} (h : c.IsWanted items) :
    ArePlain g c.items ∧ c.items ≠ [] := by
  cases h with
  | shift sub _ ne_nil => exact ⟨fun i hi => hc i (sub i hi), ne_nil⟩
  | reduce mem _ _ => exact ⟨fun i hi => List.mem_singleton.mp hi ▸ hc _ mem, List.cons_ne_nil _ _⟩

/-- A longer repeat is complete only where it is reduced. -/
theorem IsWanted.wraps {c : Cause} (h : c.IsWanted items) {i : Item} (hi : i ∈ c.items)
    (hwraps : i.wraps g.terms = true) : c.Wraps g := by
  cases h with
  | shift _ next _ =>
    have hnext := next i hi
    rw [Item.next?_of_wraps hwraps] at hnext
    cases hnext
  | reduce _ _ _ =>
    cases List.mem_singleton.mp hi
    exact ⟨_, _, rfl, hwraps⟩

/-- What is reduced like a rule that makes a longer repeat is such a rule. -/
theorem IsWanted.wraps_of_same {c w : Cause} (h : c.IsWanted items) (hw : w.Wraps g)
    (hsame : c.action.same g w.action = true) : c.Wraps g := by
  obtain ⟨t, i, rfl, hi⟩ := hw
  cases h with
  | shift _ _ _ => cases hsame
  | @reduce t' k _ complete _ =>
    refine ⟨t', k, rfl, Item.wraps_of_atEnd ?_ complete⟩
    simp only [Action.same, Bool.and_eq_true] at hsame
    rw [(Rule.sameReduce_iff.mp hsame.2).2.2]
    exact ((Bool.and_eq_true _ _).mp hi).1

/-- Two reductions by rules that make longer repeats of the same symbol do the
same for a terminal. -/
theorem Wraps.same {c w : Cause} (hc : c.Wraps g) (hw : w.Wraps g)
    (hterm : c.action.term = w.action.term)
    (hname : ∀ i ∈ c.items, ∀ k ∈ w.items, i.rule.name = k.rule.name) :
    c.action.same g w.action = true := by
  obtain ⟨t, i, rfl, hi⟩ := hc
  obtain ⟨t', k, rfl, hk⟩ := hw
  obtain rfl : t = t' := hterm
  simp only [Action.same, Bool.and_eq_true, beq_self_eq_true, true_and]
  refine Rule.sameReduce_iff.mpr ⟨hname i (.head _) k (.head _), ?_, ?_⟩
  · rw [Item.length_of_wraps hi, Item.length_of_wraps hk]
  · rw [((Bool.and_eq_true _ _).mp hi).1, ((Bool.and_eq_true _ _).mp hk).1]

end Cause

namespace Weighed

variable {g : Grammar} {items : List Item} {wanted causes : List Cause} {new : Cause}

/-- An action that is added. -/
theorem push (h : Weighed g items wanted causes) (hnew : new.IsWanted items) :
    Weighed g items (wanted ++ [new]) (causes ++ [new]) where
  isWanted c hc := by
    rcases List.mem_append.mp hc with hc | hc
    · exact h.isWanted c hc
    · exact List.mem_singleton.mp hc ▸ hnew
  sub c hc := by
    rcases List.mem_append.mp hc with hc | hc
    · exact List.mem_append_left _ (h.sub c hc)
    · exact List.mem_append_right _ hc
  wraps c hc hw := by
    rcases List.mem_append.mp hc with hc | hc
    · obtain ⟨c', hc', hsame⟩ := h.wraps c hc hw
      exact ⟨c', List.mem_append_left _ hc', hsame⟩
    · exact ⟨c, List.mem_append_right _ hc, Action.same_refl g _⟩
  others c hc := by
    rcases List.mem_append.mp hc with hc | hc
    · rcases h.others c hc with ⟨c', hc', hsame⟩ | ⟨w, hw, hwraps⟩
      · exact .inl ⟨c', List.mem_append_left _ hc', hsame⟩
      · exact .inr ⟨w, List.mem_append_left _ hw, hwraps⟩
    · exact .inl ⟨c, List.mem_append_right _ hc, Action.same_refl g _⟩

/-- An action that is not added, since another one does the same or reduces by a
rule that makes a longer repeat. -/
theorem refuse (h : Weighed g items wanted causes) (hnew : new.IsWanted items) {old : Cause}
    (hold : old ∈ causes) (hterm : old.action.term = new.action.term)
    (hwhy : old.action.same g new.action = true ∨ old.Wraps g ∧ ¬ new.Wraps g) :
    Weighed g items (wanted ++ [new]) causes where
  isWanted := (h.push hnew).isWanted
  sub c hc := List.mem_append_left _ (h.sub c hc)
  wraps c hc hw := by
    rcases List.mem_append.mp hc with hc | hc
    · exact h.wraps c hc hw
    · obtain rfl := List.mem_singleton.mp hc
      exact ⟨old, hold, hwhy.resolve_right fun hnot => hnot.2 hw⟩
  others c hc := by
    rcases List.mem_append.mp hc with hc | hc
    · exact (h.others c hc).imp_right fun ⟨w, hw, hwraps⟩ => ⟨w, List.mem_append_left _ hw, hwraps⟩
    · obtain rfl := List.mem_singleton.mp hc
      rcases hwhy with hsame | ⟨hwraps, _⟩
      · exact .inl ⟨old, hold, hsame⟩
      · exact .inr ⟨old, List.mem_append_left _ (h.sub old hold), hwraps, hterm⟩

/-- A reduction by a rule that makes a longer repeat takes the place of another
action, which is no such reduction. -/
theorem replace {before after : List Cause} {old : Cause}
    (h : Weighed g items wanted (before ++ old :: after)) (hnew : new.IsWanted items)
    (hwraps : new.Wraps g) (hold : ¬ old.Wraps g) (hterm : old.action.term = new.action.term) :
    Weighed g items (wanted ++ [new]) (before ++ after ++ [new]) := by
  have hmem : ∀ c ∈ before ++ old :: after, c ≠ old → c ∈ before ++ after ++ [new] := by
    intro c hc hne
    rcases List.mem_append.mp hc with hc | hc
    · exact List.mem_append_left _ (List.mem_append_left _ hc)
    · exact List.mem_append_left _
        (List.mem_append_right _ ((List.mem_cons.mp hc).resolve_left hne))
  have hlast : new ∈ before ++ after ++ [new] :=
    List.mem_append_right _ (List.mem_singleton_self _)
  refine ⟨(h.push hnew).isWanted, fun c hc => ?_, fun c hc hw => ?_, fun c hc => ?_⟩
  · rcases List.mem_append.mp hc with hc | hc
    · refine List.mem_append_left _ (h.sub c ?_)
      rcases List.mem_append.mp hc with hc | hc
      · exact List.mem_append_left _ hc
      · exact List.mem_append_right _ (.tail _ hc)
    · exact List.mem_append_right _ hc
  · rcases List.mem_append.mp hc with hc | hc
    · obtain ⟨c', hc', hsame⟩ := h.wraps c hc hw
      refine ⟨c', hmem c' hc' fun heq => hold ?_, hsame⟩
      exact (heq ▸ h.isWanted c' (h.sub c' hc')).wraps_of_same hw (heq ▸ hsame)
    · obtain rfl := List.mem_singleton.mp hc
      exact ⟨c, hlast, Action.same_refl g _⟩
  · rcases List.mem_append.mp hc with hc | hc
    · rcases h.others c hc with ⟨c', hc', hsame⟩ | ⟨w, hw, hwraps'⟩
      · by_cases heq : c' = old
        · subst heq
          exact .inr ⟨new, List.mem_append_right _ (List.mem_singleton_self _), hwraps,
            hterm.symm.trans (Action.term_eq_of_same hsame)⟩
        · exact .inl ⟨c', hmem c' hc' heq, hsame⟩
      · exact .inr ⟨w, List.mem_append_left _ hw, hwraps'⟩
    · obtain rfl := List.mem_singleton.mp hc
      exact .inl ⟨c, hlast, Action.same_refl g _⟩

end Weighed

namespace Search

variable {g : Grammar} {table : FirstTable} {context : List Item}

/-- Adding a reduction where only repeats decide, and there is no conflict. -/
theorem weighed_addAction (hg : g.Unmarked) (hc : ArePlain g context) {wanted : List Cause}
    {new : Cause} (hnew : new ∈ reductions g context) {causes : Array Cause} {s : Search}
    (h : Weighed g context wanted causes.toList) (hnodup : (termsOf causes.toList).Nodup)
    (hclash : (addAction g context new causes s).2.clashes = []) :
    Weighed g context (wanted ++ [new]) (addAction g context new causes s).1.toList := by
  obtain ⟨i, hi, hend, _, t, ht, rfl⟩ := mem_reductions.mp hnew
  have hwanted : Cause.IsWanted context ⟨.reduce t i.rule, [i]⟩ := .reduce hi hend ht
  have hwraps : ∀ {a : Item}, a ∈ Cause.withOrigins context [i] → a.wraps g.terms = true →
      a = i := fun ha hw => List.mem_singleton.mp (Cause.mem_of_wraps ha hw)
  have hold : ∀ old ∈ causes.toList, old.IsWanted context := fun old h' =>
    h.isWanted old (h.sub old h')
  rcases addAction_of_unmarked hg hc (hwanted.arePlain hc).1 (hwanted.arePlain hc).2
      (fun old h' => (hold old h').arePlain hc) hnodup hclash with heq | ⟨before, old, after,
    heq, hterm, ⟨hafter, hsame⟩ | ⟨hsame, ⟨hafter, hlt⟩ | ⟨hafter, hgt⟩⟩⟩
  · exact heq ▸ h.push hwanted
  · have hmem : old ∈ causes.toList := heq ▸ List.mem_append_right _ (.head _)
    exact hafter ▸ h.refuse hwanted hmem hterm (.inl hsame)
  · have hmem : old ∈ causes.toList := heq ▸ List.mem_append_right _ (.head _)
    refine hafter ▸ h.refuse hwanted hmem hterm (.inr ?_)
    rcases Cause.compareRepeats_cases g.terms (Cause.withOrigins context [i])
        (Cause.withOrigins context old.items) with hcases | ⟨a, ha, b, hb, _, hcases⟩
    · rw [hlt] at hcases
      cases hcases
    · obtain ⟨_, hnot, hb'⟩ := hcases.resolve_left fun h => by rw [hlt] at h; cases h.1
      refine ⟨(hold old hmem).wraps (Cause.mem_of_wraps hb hb') hb', ?_⟩
      rintro ⟨t', k, hk, hk'⟩
      obtain ⟨_, hik⟩ := Cause.mk.inj hk
      obtain ⟨rfl, _⟩ := List.cons.inj hik
      rw [Cause.withOrigins_singleton (by simp [Item.dot_of_wraps hk'])] at ha
      rw [List.mem_singleton.mp ha, hk'] at hnot
      cases hnot
  · rw [heq] at h
    rcases Cause.compareRepeats_cases g.terms (Cause.withOrigins context [i])
        (Cause.withOrigins context old.items) with hcases | ⟨a, ha, b, hb, hname, hcases⟩
    · rw [hgt] at hcases
      cases hcases
    · obtain ⟨_, ha'⟩ := hcases.resolve_right fun h => by rw [hgt] at h; cases h.1
      obtain rfl := hwraps ha ha'
      refine hafter ▸ h.replace hwanted ⟨t, a, rfl, ha'⟩ (fun hw => ?_) hterm
      -- Otherwise both would be reductions of the same repeat.
      have hall := hw.same ⟨t, a, rfl, ha'⟩ hterm fun k hk k' hk' => ?_
      · rw [hsame] at hall
        cases hall
      · obtain ⟨t', o, rfl, ho⟩ := hw
        rw [Cause.withOrigins_singleton (by simp [Item.dot_of_wraps ho])] at hb
        rw [List.mem_singleton.mp hk, List.mem_singleton.mp hk', ← hname,
          List.mem_singleton.mp hb]

/-- Adding reductions where only repeats decide, and there is no conflict. -/
theorem weighed_addReductions (hg : g.Unmarked) (hc : ArePlain g context)
    (hnone : AllowNone context) {news : List Cause} (hnews : ∀ c ∈ news, c ∈ reductions g context)
    {wanted : List Cause} {r : Reading} {s : Search} (h : Weighed g context wanted r.causes.toList)
    (hnodup : (termsOf r.causes.toList).Nodup)
    (hclash : (news.foldl (addReduction g context) (r, s)).2.clashes = []) :
    Weighed g context (wanted ++ news)
      (news.foldl (addReduction g context) (r, s)).1.causes.toList := by
  induction news generalizing wanted r s with
  | nil => rwa [List.append_nil]
  | cons new news ih =>
    have hnew := hnews new (.head _)
    have hfirst := weighed_addAction hg hc hnew h hnodup (clashes_addReductions hclash)
    have hallow : ∀ c ∈ [new], AllowNone c.items := by
      intro c hc
      obtain ⟨i, hi, _, _, t, _, rfl⟩ := mem_reductions.mp (List.mem_singleton.mp hc ▸ hnew)
      exact fun j hj => List.mem_singleton.mp hj ▸ hnone i hi
    have hnodup' := nodup_addReductions (g := g) (s := s) hnone hallow hnodup
    rw [List.append_cons]
    exact ih (fun c hc => hnews c (.tail _ hc)) hfirst hnodup' hclash

end Search

/-! ## §4 States -/

/-- `Decided g st`: a state does what its items call for, unless a longer repeat is
complete that a terminal can follow: then it is reduced. -/
structure Decided (g : Grammar) (st : State) : Prop where
  wraps : ∀ k ∈ st.items, k.wraps g.terms = true → ∀ t, k.ahead.contains t = true →
    ∃ r, .reduce t r ∈ st.actions ∧ r.sameReduce g.terms k.rule = true
  shifts : ∀ i ∈ st.items, ∀ t, i.next? = some t → g.isTerminal t = true →
    (∃ q, .shift t q ∈ st.actions) ∨
      ∃ k ∈ st.items, k.wraps g.terms = true ∧ k.ahead.contains t = true
  reductions : ∀ i ∈ st.items, i.atEnd = true → g.terms.isTop i.rule.name = false →
    ∀ t, i.ahead.contains t = true →
      (∃ r, .reduce t r ∈ st.actions ∧ r.sameReduce g.terms i.rule = true) ∨
        ∃ k ∈ st.items, k.wraps g.terms = true ∧ k.ahead.contains t = true

/-- Putting actions in order keeps them. -/
theorem Decided.finish {g : Grammar} {st : State} (h : Decided g st) : Decided g (st.finish g) where
  wraps k hk hw t ht := by
    obtain ⟨r, hr, hsame⟩ := h.wraps k hk hw t ht
    exact ⟨r, List.mem_mergeSort.mpr hr, hsame⟩
  shifts i hi t hnext ht :=
    (h.shifts i hi t hnext ht).imp_left fun ⟨q, hq⟩ => ⟨q, List.mem_mergeSort.mpr hq⟩
  reductions i hi hend htop t ht :=
    (h.reductions i hi hend htop t ht).imp_left fun ⟨r, hr, hsame⟩ =>
      ⟨r, List.mem_mergeSort.mpr hr, hsame⟩

namespace Search

variable {g : Grammar} {table : FirstTable} {noSkip : Term} {seed : Seed} {st : State}

/-- Of all that the items of a state without conflicts call for, what is left. -/
theorem IsSettled.weighed (hg : g.Unmarked) (hgrown : Grown g table noSkip seed)
    (h : IsSettled g table seed st) : ∃ wanted causes, Weighed g seed.items wanted causes ∧
      st.items = seed.items ∧ st.actions = causes.map Cause.action ∧
      (∀ i ∈ seed.items, ∀ t, i.next? = some t → g.isTerminal t = true →
        ∃ q, ∃ c ∈ wanted, c.action = .shift t q) ∧
      ∀ c ∈ reductions g seed.items, c ∈ wanted := by
  obtain ⟨s, s', h, hclash⟩ := h
  obtain ⟨r, s₁, hread, rfl, hitems, _, hactions, _⟩ := readState_ok h
  obtain ⟨done, hr, hnodup, _, hdone⟩ := hasRead_byNext hread
  have hplain : ArePlain g seed.items :=
    fun i hi => ⟨hgrown.rule_mem i hi, hgrown.ambigAhead hg.noAmbiguities i hi⟩
  have hnone : AllowNone seed.items := fun i hi =>
    Item.ambiguities_marksAt (hg.noAmbiguities i.rule (hplain i hi).1) (hplain i hi).2 i.dot
  have hshifts : Weighed g seed.items r.causes.toList r.causes.toList := by
    refine ⟨fun c hc => ?_, fun c hc => hc, fun c hc _ => ⟨c, hc, Action.same_refl g _⟩,
      fun c hc => .inl ⟨c, hc, Action.same_refl g _⟩⟩
    obtain ⟨hne, hsub⟩ := hr.items_of_mem hc
    obtain ⟨t, _, _, q, rfl⟩ := hr.shift_of_mem hc
    exact .shift hsub (fun i hi => by simpa using (List.mem_filter.mp hi).2) hne
  have hterms : (termsOf r.causes.toList).Nodup := by
    have hblind : termsOf r.causes.toList = termsOf (r.causes.toList.map Cause.blind) := by
      simp [termsOf]
    rw [hblind, hr.shifts, termsOf, List.map_map]
    rw [show ((fun c : Cause => c.action.term) ∘ shiftOf seed.items) = id from rfl, List.map_id]
    exact (List.nodup_reverse.mpr hnodup).filter _
  refine ⟨_, _, weighed_addReductions hg hplain hnone (fun _ hc => hc) hshifts hterms hclash,
    hitems, hactions, fun i hi t hnext ht => ?_, fun c hc => List.mem_append_right _ hc⟩
  obtain ⟨q, c, hc, hq⟩ := hr.exists_shift (hdone i hi t hnext) ht
  exact ⟨q, c, List.mem_append_left _ hc, hq⟩

/-- A state without conflicts does what its items call for, unless a longer repeat
that is complete takes its place. -/
theorem IsSettled.decided (hg : g.Unmarked) (hgrown : Grown g table noSkip seed)
    (h : IsSettled g table seed st) : Decided g st := by
  obtain ⟨wanted, causes, hweighed, hitems, hactions, hshifts, hreductions⟩ :=
    h.weighed hg hgrown
  have hreduce : ∀ {i t}, (∃ c' ∈ causes, c'.action.same g (.reduce t i) = true) →
      ∃ r, .reduce t r ∈ st.actions ∧ r.sameReduce g.terms i = true := by
    rintro i t ⟨c', hc', hsame⟩
    have hmem : c'.action ∈ st.actions := hactions ▸ List.mem_map.mpr ⟨c', hc', rfl⟩
    cases haction : c'.action with
    | shift u q =>
      rw [haction] at hsame
      cases hsame
    | reduce u r =>
      rw [haction] at hsame hmem
      simp only [Action.same, Bool.and_eq_true, beq_iff_eq] at hsame
      exact ⟨r, hsame.1 ▸ hmem, hsame.2⟩
  -- What took the place of an action is a longer repeat that is complete.
  have hplace : ∀ {t}, (∃ w ∈ wanted, w.Wraps g ∧ w.action.term = t) →
      ∃ k ∈ st.items, k.wraps g.terms = true ∧ k.ahead.contains t = true := by
    rintro t ⟨w, hw, hwraps, rfl⟩
    obtain ⟨u, k, rfl, hk⟩ := hwraps
    generalize hitem : [k] = single at hw
    generalize hrule : k.rule = rule at hw
    cases hweighed.isWanted _ hw with
    | reduce mem _ ahead =>
      obtain ⟨rfl, _⟩ := List.cons.inj hitem
      exact ⟨k, hitems ▸ mem, hk, ahead⟩
  refine ⟨fun k hk hw t ht => ?_, fun i hi t hnext ht => ?_, fun i hi hend htop t ht => ?_⟩
  · have hmem := hreductions _ (mem_reductions.mpr
      ⟨k, hitems ▸ hk, Item.atEnd_of_wraps hw, Item.isTop_of_wraps hw, t, ht, rfl⟩)
    exact hreduce (hweighed.wraps _ hmem ⟨t, k, rfl, hw⟩)
  · obtain ⟨q, c, hc, haction⟩ := hshifts i (hitems ▸ hi) t hnext ht
    rcases hweighed.others c hc with ⟨c', hc', hsame⟩ | hw
    · have hmem : c'.action ∈ st.actions := hactions ▸ List.mem_map.mpr ⟨c', hc', rfl⟩
      rw [haction] at hsame
      cases haction' : c'.action with
      | reduce u r =>
        rw [haction'] at hsame
        cases hsame
      | shift u q' =>
        rw [haction'] at hsame hmem
        simp only [Action.same, Bool.and_eq_true, beq_iff_eq] at hsame
        exact .inl ⟨q', hsame.1 ▸ hmem⟩
    · rw [haction] at hw
      exact .inr (hplace hw)
  · have hmem := hreductions _ (mem_reductions.mpr ⟨i, hitems ▸ hi, hend, htop, t, ht, rfl⟩)
    exact (hweighed.others _ hmem).imp hreduce hplace

end Search

/-- The states of the automaton of a grammar without marks do what their items call
for, unless a longer repeat that is complete takes its place. -/
theorem Built.decided {g : Grammar} {table : FirstTable} {noSkip : Term} {starts : List Term}
    {a : Automaton} {seeds : Array Seed} (hb : Built g table noSkip starts a seeds)
    (hg : g.Unmarked) {p : Nat} (hp : p < a.size) : Decided g (a.state p) := by
  obtain ⟨seed, st, hseed, hsettled, heq⟩ := hb.settled p hp
  exact heq ▸ (hsettled.decided hg (hb.grown p seed hseed)).finish

end GrammarCompiler
