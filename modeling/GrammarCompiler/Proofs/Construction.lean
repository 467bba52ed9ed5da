/-
GrammarCompiler.Proofs.Construction — the states at the end of the search.

What a single state does holds of all of them (`Built`). In a grammar where
nothing decides between actions, states do all that their items call for
(`Full`), since any two actions that meet are a conflict.

  §1 Decisions — adding an action where nothing decides.
  §2 Fullness  — all that the items of a state call for.
  §3 Automata  — the search, and the automaton.
-/
import GrammarCompiler.Proofs.Reading
import Mathlib.Tactic.ByContra

namespace GrammarCompiler

/-! ## §1 Decisions -/

/-- A grammar in which nothing decides between actions: it has no marks and no
repeats, and no two rules say the same. -/
structure Grammar.Plain (g : Grammar) : Prop where
  unmarked : g.Unmarked
  noRepeat : ∀ r ∈ g.rules, g.terms.isRepeat r.name = false
  distinct : (g.rules.map fun r => (r.name, r.parts)).Nodup

theorem Grammar.Plain.nodup {g : Grammar} (hg : g.Plain) : g.rules.Nodup :=
  hg.distinct.of_map

/-- Items of rules of the grammar, at which nothing is ambiguous. -/
def ArePlain (g : Grammar) (items : List Item) : Prop :=
  ∀ i ∈ items, i.rule ∈ g.rules ∧ i.ambigAhead = []

namespace Cause

variable {g : Grammar} {context : List Item} {new : Cause}

/-- The items that rules come from are items of the state. -/
theorem mem_originsFrom {fuel : Nat} {found queue : List Item} {i : Item}
    (h : i ∈ originsFrom context fuel found queue) : i ∈ found ∨ i ∈ context := by
  induction fuel generalizing found queue with
  | zero => exact .inl h
  | succ fuel ih =>
    cases queue with
    | nil => exact .inl h
    | cons j queue =>
      unfold originsFrom at h
      dsimp only at h
      split at h
      · rcases ih h with h | h
        · rcases List.mem_append.mp h with h | h
          · exact .inl h
          · exact .inr (List.mem_of_mem_filter (List.mem_of_mem_filter h))
        · exact .inr h
      · exact ih h

theorem arePlain_withOrigins {items : List Item} (hc : ArePlain g context)
    (hi : ArePlain g items) : ArePlain g (withOrigins context items) :=
  fun i h => (mem_originsFrom h).elim (hi i) (hc i)

theorem marksOf_eq_none (hg : g.Unmarked) {items : List Item} (h : ArePlain g items) :
    marksOf items = Marks.none := by
  have hfold : ∀ marks : List Marks, (∀ m ∈ marks, m = Marks.none) →
      marks.foldl Marks.join Marks.none = Marks.none := by
    intro marks
    induction marks with
    | nil => exact fun _ => rfl
    | cons m marks ih =>
      intro hm
      rw [List.foldl_cons, hm m (.head _)]
      exact ih fun m' hm' => hm m' (.tail _ hm')
  refine hfold _ fun m hm => ?_
  obtain ⟨i, hi, rfl⟩ := List.mem_map.mp hm
  exact Item.marksAt_eq_none (hg i.rule (h i hi).1) (h i hi).2 i.dot

theorem compareRepeats_eq {as bs : List Item} (hg : ∀ r ∈ g.rules, g.terms.isRepeat r.name = false)
    (h : ArePlain g as) : compareRepeats g.terms as bs = .eq := by
  have hpairs : (as.flatMap fun a =>
      if g.terms.isRepeat a.rule.name then
        (bs.filter fun b => b.rule.name == a.rule.name).map fun b => (a, b)
      else []) = [] := by
    rw [List.flatMap_eq_nil_iff]
    intro a ha
    rw [hg a.rule (h a ha).1]
    rfl
  unfold compareRepeats
  rw [hpairs]
  rfl

/-- Where nothing decides between actions, an action is added behind the
others or clashes with one of them. -/
theorem add_of_plain (hg : g.Plain) (hc : ArePlain g context) (hnew : ArePlain g new.items)
    {causes : List Cause} (hcauses : ∀ old ∈ causes, ArePlain g old.items)
    (hsame : ∀ old ∈ causes, old.action.same g new.action = false) :
    add g context new causes = .added (causes ++ [new]) ∨
      ∃ other ∈ causes, add g context new causes = .clash causes other := by
  induction causes with
  | nil => exact .inl rfl
  | cons old rest ih =>
    have ih := ih (fun c h => hcauses c (.tail _ h)) fun c h => hsame c (.tail _ h)
    unfold add
    dsimp only
    split
    · rcases ih with ih | ⟨other, hmem, ih⟩
      · rw [ih]
        exact .inl rfl
      · rw [ih]
        exact .inr ⟨other, .tail _ hmem, rfl⟩
    · have hnewItems := arePlain_withOrigins hc hnew
      have holdItems := arePlain_withOrigins hc (hcauses old (.head _))
      rw [hsame old (.head _), marksOf_eq_none hg.unmarked hnewItems,
        marksOf_eq_none hg.unmarked holdItems, compareRepeats_eq hg.noRepeat hnewItems]
      exact .inr ⟨old, .head _, rfl⟩

end Cause

/-- A cause where shifts lead to no certain state. -/
def Cause.blind (c : Cause) : Cause :=
  { c with action := c.action.map fun _ => 0 }

namespace Search

variable {g : Grammar} {table : FirstTable} {noSkip : Term} {context : List Item}

/-- The first action for a terminal is added as it is. -/
theorem addAction_of_new_term {new : Cause} {causes : Array Cause} {s : Search}
    (h : ∀ c ∈ causes.toList, c.action.term ≠ new.action.term) :
    addAction g context new causes s = (causes.push new, s) := by
  have hany : (causes.any fun old => old.action.term == new.action.term) = false := by
    rw [← Array.any_toList, List.any_eq_false]
    intro c hc
    simpa using h c hc
  rw [addAction, hany]
  rfl

/-- Where nothing decides between actions, and there is no conflict, an action
that no other does the same as is added. -/
theorem addAction_of_plain (hg : g.Plain) (hc : ArePlain g context) {new : Cause}
    (hnew : ArePlain g new.items) (hne : new.items ≠ []) {causes : Array Cause}
    (hcauses : ∀ old ∈ causes.toList, ArePlain g old.items ∧ old.items ≠ [])
    (hsame : ∀ old ∈ causes.toList, old.action.same g new.action = false) {s : Search}
    (hclash : (addAction g context new causes s).2.clashes = []) :
    (addAction g context new causes s).1 = causes.push new := by
  unfold addAction at hclash ⊢
  split
  · rename_i hany
    rw [if_pos hany] at hclash
    rcases Cause.add_of_plain hg hc hnew (fun old h => (hcauses old h).1) hsame with
      hadd | ⟨other, hmem, hadd⟩
    · rw [hadd]
      exact Array.toList_inj.mp (by simp [Cause.Outcome.causes])
    · rw [hadd] at hclash
      exact absurd hclash (Clash.log_ne_nil (hcauses other hmem).2 hne)
  · rfl

/-! ## §2 Fullness -/

/-- The shift of a terminal that items read next, wherever it leads. -/
def shiftOf (items : List Item) (t : Term) : Cause :=
  ⟨.shift t 0, items.filter fun i => i.next? == some t⟩

/-- The symbols of `done`, the last one first, have been read: there are shifts
and gotos for them, and nothing else. -/
structure HasRead (g : Grammar) (items : List Item) (done : List Term) (r : Reading) : Prop where
  shifts : r.causes.toList.map Cause.blind =
    (done.reverse.filter g.isTerminal).map (shiftOf items)
  gotos : r.gotos.map Goto.term = done.reverse.filter fun t => !g.isTerminal t
  next : ∀ t ∈ done, ∃ i ∈ items, i.next? = some t
  replaced : r.replaced = false

namespace HasRead

variable {items : List Item} {done : List Term} {r : Reading}

theorem nil (g : Grammar) (items : List Item) : HasRead g items [] ⟨#[], [], false⟩ where
  shifts := rfl
  gotos := rfl
  next _ ht := (List.not_mem_nil ht).elim
  replaced := rfl

/-- Every action so far is the shift of a symbol that has been read. -/
theorem shift_of_mem (hr : HasRead g items done r) {c : Cause} (hc : c ∈ r.causes.toList) :
    ∃ t ∈ done, g.isTerminal t = true ∧
      ∃ q, c = ⟨.shift t q, items.filter fun i => i.next? == some t⟩ := by
  have hmem : c.blind ∈ r.causes.toList.map Cause.blind := List.mem_map.mpr ⟨c, hc, rfl⟩
  rw [hr.shifts] at hmem
  obtain ⟨t, ht, heq⟩ := List.mem_map.mp hmem
  obtain ⟨ht, hterminal⟩ := List.mem_filter.mp ht
  obtain ⟨action, causeItems⟩ := c
  cases action with
  | shift u q =>
    simp only [shiftOf, Cause.blind, Action.map, Cause.mk.injEq, Action.shift.injEq] at heq
    obtain ⟨⟨rfl, _⟩, rfl⟩ := heq
    exact ⟨t, List.mem_reverse.mp ht, hterminal, q, rfl⟩
  | reduce u rule => simp [shiftOf, Cause.blind, Action.map] at heq

theorem exists_shift (hr : HasRead g items done r) {t : Term} (ht : t ∈ done)
    (hterminal : g.isTerminal t = true) : ∃ q, ∃ c ∈ r.causes.toList, c.action = .shift t q := by
  have hmem : shiftOf items t ∈ r.causes.toList.map Cause.blind := by
    rw [hr.shifts]
    exact List.mem_map.mpr ⟨t, List.mem_filter.mpr ⟨List.mem_reverse.mpr ht, hterminal⟩, rfl⟩
  obtain ⟨c, hc, heq⟩ := List.mem_map.mp hmem
  obtain ⟨u, _, _, q, rfl⟩ := hr.shift_of_mem hc
  simp only [shiftOf, Cause.blind, Action.map, Cause.mk.injEq, Action.shift.injEq] at heq
  obtain ⟨⟨rfl, _⟩, _⟩ := heq
  exact ⟨q, _, hc, rfl⟩

theorem exists_goto (hr : HasRead g items done r) {t : Term} (ht : t ∈ done)
    (hterminal : g.isTerminal t = false) : ∃ q, ⟨t, q⟩ ∈ r.gotos := by
  have hmem : t ∈ r.gotos.map Goto.term := by
    rw [hr.gotos]
    exact List.mem_filter.mpr ⟨List.mem_reverse.mpr ht, by simp [hterminal]⟩
  obtain ⟨x, hx, rfl⟩ := List.mem_map.mp hmem
  exact ⟨x.target, hx⟩

/-- The items behind an action are items of the state. -/
theorem items_of_mem (hr : HasRead g items done r) {c : Cause} (hc : c ∈ r.causes.toList) :
    c.items ≠ [] ∧ ∀ i ∈ c.items, i ∈ items := by
  obtain ⟨t, ht, _, q, rfl⟩ := hr.shift_of_mem hc
  obtain ⟨i, hi, hnext⟩ := hr.next t ht
  exact ⟨List.ne_nil_of_mem (List.mem_filter.mpr ⟨hi, by simp [hnext]⟩),
    fun i hi => List.mem_of_mem_filter hi⟩

end HasRead

/-- Reading a symbol for the first time. -/
theorem hasRead_readSymbol {items : List Item} {symbol : Term} {done : List Term}
    {r r' : Reading} {s s' : Search} (hnext : ∃ i ∈ items, i.next? = some symbol)
    (hdone : symbol ∉ done)
    (h : readSymbol g table context (r, s)
      (symbol, items.filter fun i => i.next? == some symbol) = .ok (r', s'))
    (hr : HasRead g items done r) : HasRead g items (symbol :: done) r' := by
  obtain ⟨q, next, _, hcases⟩ := readSymbol_ok h
  have hterm : ∀ c ∈ r.causes.toList, c.action.term ≠ symbol := by
    intro c hc heq
    obtain ⟨t, ht, _, q, rfl⟩ := hr.shift_of_mem hc
    exact hdone (heq ▸ ht)
  have hall : ∀ t ∈ symbol :: done, ∃ i ∈ items, i.next? = some t := by
    simpa using ⟨hnext, hr.next⟩
  obtain ⟨causes, gotos, replaced⟩ := r'
  rcases hcases with ⟨ht, hcauses, _, hgotos, hreplaced⟩ | ⟨ht, _, hcauses, hgotos, hreplaced⟩
  · rw [addAction_of_new_term hterm] at hcauses
    subst hcauses hgotos hreplaced
    refine ⟨?_, ?_, hall, hr.replaced⟩
    · simp [hr.shifts, ht, shiftOf, Cause.blind, Action.map]
    · simp [hr.gotos, ht]
  · subst hcauses hgotos hreplaced
    refine ⟨?_, ?_, hall, hr.replaced⟩
    · simp [hr.shifts, ht]
    · simp [hr.gotos, ht]

/-- Reading all symbols, each for the first time. -/
theorem hasRead_readSymbols {items : List Item} {next : List (Term × List Item)}
    (hsub : ∀ entry ∈ next, entry ∈ byNext items) (hnodup : (next.map Prod.fst).Nodup)
    {done : List Term} (hdone : ∀ entry ∈ next, entry.1 ∉ done) {r r' : Reading} {s s' : Search}
    (h : next.foldlM (readSymbol g table context) (r, s) = .ok (r', s'))
    (hr : HasRead g items done r) :
    HasRead g items ((next.map Prod.fst).reverse ++ done) r' := by
  induction next generalizing done r s with
  | nil =>
    cases h
    exact hr
  | cons entry next ih =>
    obtain ⟨symbol, reading⟩ := entry
    rw [List.foldlM_cons] at h
    obtain ⟨⟨r₁, s₁⟩, hstep, hfold⟩ := exists_ok_of_bind h
    obtain ⟨rfl, hnext⟩ := mem_byNext (hsub _ (.head _))
    have hr₁ := hasRead_readSymbol hnext (hdone _ (.head _)) hstep hr
    rw [List.map_cons, List.nodup_cons] at hnodup
    have hdone' : ∀ entry ∈ next, entry.1 ∉ symbol :: done := by
      intro entry he hmem
      rcases List.mem_cons.mp hmem with heq | hmem
      · exact hnodup.1 (List.mem_map.mpr ⟨entry, he, heq⟩)
      · exact hdone entry (.tail _ he) hmem
    have hall := ih (fun e he => hsub e (.tail _ he)) hnodup.2 hdone' hfold hr₁
    rw [List.map_cons, List.reverse_cons, List.append_assoc, List.singleton_append]
    exact hall

/-- Reading all that items read next. -/
theorem hasRead_byNext {items : List Item} {r : Reading} {s s' : Search}
    (h : (byNext items).foldlM (readSymbol g table context) (⟨#[], [], false⟩, s) =
      .ok (r, s')) :
    ∃ done, HasRead g items done r ∧ done.Nodup ∧
      done.reverse = (byNext items).map Prod.fst ∧
      ∀ i ∈ items, ∀ t, i.next? = some t → t ∈ done := by
  have hnodup : ((byNext items).map Prod.fst).Nodup := by
    rw [keys_byNext]
    exact Term.nodup_foldl_addNew List.nodup_nil
  have hr := hasRead_readSymbols (fun _ he => he) hnodup (fun _ _ => List.not_mem_nil) h
    (.nil g items)
  rw [List.append_nil] at hr
  refine ⟨_, hr, List.nodup_reverse.mpr hnodup, List.reverse_reverse _, fun i hi t hnext => ?_⟩
  rw [List.mem_reverse, keys_byNext]
  exact Term.mem_foldl_addNew.mpr (.inr (List.mem_filterMap.mpr ⟨i, hi, hnext⟩))

/-- Reductions do something else than all that symbols are read for. -/
theorem HasRead.same_eq_false {items : List Item} {done : List Term} {r : Reading}
    (hr : HasRead g items done r) {old new : Cause} (hold : old ∈ r.causes.toList)
    (hnew : new ∈ reductions g items) : old.action.same g new.action = false := by
  obtain ⟨t, _, _, q, rfl⟩ := hr.shift_of_mem hold
  obtain ⟨i, _, _, _, t', _, rfl⟩ := mem_reductions.mp hnew
  rfl

theorem clashes_addReductions {news : List Cause} {r : Reading} {s : Search}
    (h : (news.foldl (addReduction g context) (r, s)).2.clashes = []) : s.clashes = [] := by
  induction news generalizing r s with
  | nil => exact h
  | cons new news ih =>
    exact (addAction_spec g default default context new r.causes s).2.clashes (ih h)

/-- Where nothing decides between actions, and there is no conflict, reductions
that all do something else are added as they are. -/
theorem addReductions_of_plain (hg : g.Plain) (hc : ArePlain g context) {news : List Cause}
    (hnews : ∀ c ∈ news, ArePlain g c.items ∧ c.items ≠ [])
    (hapart : news.Pairwise fun old new => old.action.same g new.action = false)
    {r : Reading} (hold : ∀ c ∈ r.causes.toList, ArePlain g c.items ∧ c.items ≠ [])
    (hsame : ∀ old ∈ r.causes.toList, ∀ new ∈ news, old.action.same g new.action = false)
    {s : Search} (hclash : (news.foldl (addReduction g context) (r, s)).2.clashes = []) :
    (news.foldl (addReduction g context) (r, s)).1 =
      ⟨⟨r.causes.toList ++ news⟩, r.gotos, r.replaced⟩ := by
  induction news generalizing r s with
  | nil => simp
  | cons new news ih =>
    have hadvance : (addAction g context new r.causes s).2.clashes = [] :=
      clashes_addReductions hclash
    have hpush := addAction_of_plain hg hc (hnews new (.head _)).1 (hnews new (.head _)).2 hold
      (fun old h => hsame old h new (.head _)) hadvance
    have hstep : addReduction g context (r, s) new =
        (⟨r.causes.push new, r.gotos, r.replaced⟩, (addAction g context new r.causes s).2) := by
      unfold addReduction
      simp only [hpush, Array.size_push]
      have hne : (r.causes.size + 1 == r.causes.size) = false := by simp
      rw [hne, Bool.or_false]
    rw [List.foldl_cons, hstep] at hclash ⊢
    obtain ⟨hfirst, hrest⟩ := List.pairwise_cons.mp hapart
    have hmem : ∀ c ∈ (r.causes.push new).toList, c ∈ r.causes.toList ∨ c = new := by
      intro c h
      rwa [Array.toList_push, List.mem_append, List.mem_singleton] at h
    rw [ih (fun c h => hnews c (.tail _ h)) hrest ?_ ?_ hclash]
    · simp
    · intro c h
      rcases hmem c h with h | rfl
      · exact hold c h
      · exact hnews c (.head _)
    · intro old h c hcn
      rcases hmem old h with h | rfl
      · exact hsame old h c (.tail _ hcn)
      · exact hfirst c hcn

end Search

theorem TermSet.nodup_toList (set : TermSet) : set.toList.Nodup := by
  have hinj : Function.Injective Term.mk := fun a b h => Term.mk.inj h
  exact (List.nodup_range.filter _).map hinj

/-- Two complete items of a state that could be reduced in the same way are for
the same rule: they have read the same parts. -/
theorem Grown.rule_eq_of_sameReduce {g : Grammar} {table : FirstTable} {noSkip : Term}
    {seed : Seed} (hg : g.Plain) (h : Grown g table noSkip seed) {i j : Item}
    (hi : i ∈ seed.items) (hj : j ∈ seed.items) (hie : i.atEnd = true) (hje : j.atEnd = true)
    (hsame : i.rule.sameReduce g.terms j.rule = true) : i.toDotted = j.toDotted := by
  simp only [Rule.sameReduce, Bool.and_eq_true, beq_iff_eq] at hsame
  obtain ⟨⟨hname, hlength⟩, _⟩ := hsame
  have hid : i.dot = i.rule.parts.length := by simpa [Dotted.atEnd] using hie
  have hjd : j.dot = j.rule.parts.length := by simpa [Dotted.atEnd] using hje
  obtain ⟨path, hpath⟩ := h.exists_path
  have hip := hpath i hi
  have hjp := hpath j hj
  rw [hid, List.take_length] at hip
  rw [hjd, List.take_length] at hjp
  have hparts : i.rule.parts = j.rule.parts := by
    have heq := List.IsPrefix.eq_of_length (List.prefix_of_prefix_length_le hip hjp
      (by simp [hlength])) (by simp [hlength])
    exact List.reverse_injective heq
  have hrule : i.rule = j.rule := by
    refine List.inj_on_of_nodup_map hg.distinct (h.rule_mem i hi) (h.rule_mem j hj) ?_
    rw [hname, hparts]
  calc i.toDotted = ⟨i.rule, i.dot⟩ := rfl
    _ = ⟨j.rule, j.dot⟩ := by rw [hid, hjd, hrule]

namespace Search

variable {g : Grammar} {table : FirstTable} {noSkip : Term}

/-- In a grammar in which nothing decides between actions, all reductions of a
state do something else. -/
theorem pairwise_reductions (hg : g.Plain) {seed : Seed} (h : Grown g table noSkip seed) :
    (reductions g seed.items).Pairwise fun old new => old.action.same g new.action = false := by
  have hitems : seed.items.Pairwise fun i j => i.toDotted ≠ j.toDotted :=
    List.pairwise_map.mp (h.nodup hg.nodup).2
  rw [reductions, List.pairwise_flatMap]
  refine ⟨fun i _ => ?_, ?_⟩
  · rw [List.pairwise_map]
    refine (TermSet.nodup_toList i.ahead).imp fun {t t'} hne => ?_
    have : (t == t') = false := by simpa using hne
    simp only [Action.same, this, Bool.false_and]
  · refine (hitems.sublist List.filter_sublist).imp_of_mem fun {i j} hi hj hne => ?_
    intro old hold new hnew
    obtain ⟨t, _, rfl⟩ := List.mem_map.mp hold
    obtain ⟨t', _, rfl⟩ := List.mem_map.mp hnew
    obtain ⟨hi, hie⟩ := List.mem_filter.mp hi
    obtain ⟨hj, hje⟩ := List.mem_filter.mp hj
    rw [Bool.and_eq_true] at hie hje
    cases hsame : i.rule.sameReduce g.terms j.rule with
    | true => exact absurd (h.rule_eq_of_sameReduce hg hi hj hie.1 hje.1 hsame) hne
    | false => simp only [Action.same, hsame, Bool.and_false]

end Search

/-- `Full g st`: a state does all that its items call for. -/
structure Full (g : Grammar) (st : State) : Prop where
  shifts : ∀ i ∈ st.items, ∀ t, i.next? = some t → g.isTerminal t = true →
    ∃ q, .shift t q ∈ st.actions
  gotos : ∀ i ∈ st.items, ∀ t, i.next? = some t → g.isTerminal t = false →
    ∃ q, ⟨t, q⟩ ∈ st.gotos
  reductions : ∀ i ∈ st.items, i.atEnd = true → g.terms.isTop i.rule.name = false →
    ∀ t, i.ahead.contains t = true → .reduce t i.rule ∈ st.actions

/-- Putting actions and gotos in order keeps them. -/
theorem Full.finish {g : Grammar} {st : State} (h : Full g st) : Full g (st.finish g) where
  shifts i hi t hnext ht := by
    obtain ⟨q, hq⟩ := h.shifts i hi t hnext ht
    exact ⟨q, List.mem_mergeSort.mpr hq⟩
  gotos i hi t hnext ht := by
    obtain ⟨q, hq⟩ := h.gotos i hi t hnext ht
    exact ⟨q, List.mem_mergeSort.mpr hq⟩
  reductions i hi hend htop t ht := List.mem_mergeSort.mpr (h.reductions i hi hend htop t ht)

namespace Search

variable {g : Grammar} {table : FirstTable} {noSkip : Term}

theorem arePlain_reductions {items : List Item} (h : ArePlain g items) :
    ∀ c ∈ reductions g items, ArePlain g c.items ∧ c.items ≠ [] := by
  intro c hc
  obtain ⟨i, hi, _, _, t, _, rfl⟩ := mem_reductions.mp hc
  refine ⟨fun j hj => ?_, List.cons_ne_nil _ _⟩
  cases List.mem_singleton.mp hj
  exact h i hi

/-- Reading on from a state without a conflict gives it all that its items call
for, where nothing decides between actions. -/
theorem full_readState (hg : g.Plain) {seed : Seed} (hgrown : Grown g table noSkip seed)
    {s s' : Search} {st : State} (h : readState g table seed s = .ok (st, s'))
    (hclash : s'.clashes = []) : Full g st := by
  obtain ⟨r, s₁, hread, hs', hitems, _, hactions, hgotos⟩ := readState_ok h
  have hplain : ArePlain g seed.items :=
    fun i hi => ⟨hgrown.rule_mem i hi, hgrown.ambigAhead hg.unmarked.noAmbiguities i hi⟩
  obtain ⟨done, hr, _, _, hdone⟩ := hasRead_byNext hread
  have hold : ∀ c ∈ r.causes.toList, ArePlain g c.items ∧ c.items ≠ [] := by
    intro c hc
    obtain ⟨hne, hsub⟩ := hr.items_of_mem hc
    exact ⟨fun i hi => hplain i (hsub i hi), hne⟩
  have hfinal := addReductions_of_plain hg hplain (arePlain_reductions hplain)
    (pairwise_reductions hg hgrown) hold (fun _ hold _ hnew => hr.same_eq_false hold hnew)
    (hs' ▸ hclash)
  rw [hfinal] at hactions hgotos
  rw [dropGotos, hr.replaced, if_neg Bool.false_ne_true] at hgotos
  rw [List.map_append] at hactions
  refine ⟨fun i hi t hnext ht => ?_, fun i hi t hnext ht => ?_, fun i hi hend htop t ht => ?_⟩
  · rw [hitems] at hi
    obtain ⟨q, c, hc, hq⟩ := hr.exists_shift (hdone i hi t hnext) ht
    exact ⟨q, hactions ▸ List.mem_append_left _ (List.mem_map.mpr ⟨c, hc, hq⟩)⟩
  · rw [hitems] at hi
    rw [hgotos]
    exact hr.exists_goto (hdone i hi t hnext) ht
  · rw [hitems] at hi
    rw [hactions]
    exact List.mem_append_right _ (List.mem_map.mpr
      ⟨_, mem_reductions.mpr ⟨i, hi, hend, htop, t, ht, rfl⟩, rfl⟩)

/-! ## §3 Automata -/

/-- `IsRead g table seed st`: a state is what reading on from a seed gives. -/
def IsRead (g : Grammar) (table : FirstTable) (seed : Seed) (st : State) : Prop :=
  ∃ s s', readState g table seed s = .ok (st, s')

/-- `IsSettled g table seed st`: a state is what reading on from a seed gives, and
there is no conflict. -/
def IsSettled (g : Grammar) (table : FirstTable) (seed : Seed) (st : State) : Prop :=
  ∃ s s', readState g table seed s = .ok (st, s') ∧ s'.clashes = []

theorem IsSettled.isRead {seed : Seed} {st : State} (h : IsSettled g table seed st) :
    IsRead g table seed st := by
  obtain ⟨s, s', h, _⟩ := h
  exact ⟨s, s', h⟩

/-- The search has come this far: all states came about properly, and those
that were read on from are what they should be. -/
structure Progress (g : Grammar) (table : FirstTable) (noSkip : Term) (states : Array State)
    (s : Search) : Prop where
  size : states.size ≤ s.seeds.size
  grown : ∀ (p : Nat) seed, s.seeds[p]? = some seed → Grown g table noSkip seed
  fits : ∀ (p : Nat) st, states[p]? = some st → Fits g s.seeds p st
  settled : s.clashes = [] → ∀ (p : Nat) st, states[p]? = some st →
    ∃ seed, s.seeds[p]? = some seed ∧ IsSettled g table seed st

/-- Reading on from the next state. -/
theorem Progress.read {states : Array State} {s s' : Search} {seed : Seed} {st : State}
    (h : Progress g table noSkip states s) (hseed : s.seeds[states.size]? = some seed)
    (hread : readState g table seed s = .ok (st, s')) :
    Progress g table noSkip (states.push st) s' ∧ Extends s.seeds s'.seeds := by
  obtain ⟨hadvance, hfits⟩ := fits_readState noSkip hseed hread
  obtain ⟨hlt, _⟩ := Array.getElem?_eq_some_iff.mp (hadvance.seeds _ seed hseed)
  refine ⟨⟨?_, hadvance.grown h.grown, fun p other hp => ?_, fun hclash p other hp => ?_⟩,
    hadvance.seeds⟩
  · rw [Array.size_push]
    exact hlt
  · rw [Array.getElem?_push] at hp
    split at hp
    · rename_i heq
      cases hp
      exact heq ▸ hfits
    · exact (h.fits p other hp).mono hadvance.seeds
  · rw [Array.getElem?_push] at hp
    split at hp
    · rename_i heq
      cases hp
      exact ⟨seed, heq ▸ hadvance.seeds _ seed hseed, s, s', hread, hclash⟩
    · obtain ⟨source, hsource, hother⟩ := h.settled (hadvance.clashes hclash) p other hp
      exact ⟨source, hadvance.seeds p source hsource, hother⟩

theorem Progress.readOn {count : Nat} {states states' : Array State} {s s' : Search}
    (h : Progress g table noSkip states s)
    (hread : readOn g table count states s = .ok (states', s')) :
    Progress g table noSkip states' s' ∧ Extends s.seeds s'.seeds := by
  induction count generalizing states s with
  | zero =>
    cases hread
    exact ⟨h, .refl _⟩
  | succ count ih =>
    unfold Search.readOn at hread
    split at hread
    · cases hread
      exact ⟨h, .refl _⟩
    · rename_i seed hseed
      obtain ⟨⟨st, s₁⟩, hstep, hread⟩ := exists_ok_of_bind hread
      obtain ⟨h₁, hext⟩ := h.read hseed hstep
      obtain ⟨h', hext'⟩ := ih h₁ hread
      exact ⟨h', hext.trans hext'⟩

theorem Progress.run {rounds count : Nat} {states states' : Array State} {s : Search}
    {clashes : List Clash} (h : Progress g table noSkip states s)
    (hrun : run g table rounds count states s = .ok (states', clashes)) :
    ∃ s', Progress g table noSkip states' s' ∧ Extends s.seeds s'.seeds ∧
      states'.size = s'.seeds.size ∧ s'.clashes = clashes := by
  induction rounds generalizing count states s with
  | zero => cases hrun
  | succ rounds ih =>
    unfold Search.run at hrun
    obtain ⟨⟨states₁, s₁⟩, hread, hrun⟩ := exists_ok_of_bind hrun
    obtain ⟨h₁, hext⟩ := h.readOn hread
    dsimp only at hrun
    split at hrun
    · rename_i hsize
      cases hrun
      exact ⟨s₁, h₁, hext, hsize, rfl⟩
    · obtain ⟨s', h', hext', hsize, hclashes⟩ := ih h₁ hrun
      exact ⟨s', h', hext.trans hext', hsize, hclashes⟩

/-- Adding an entry state. -/
theorem addEntry_ok {start : Term} {s s' : Search}
    (h : addEntry g table noSkip s start = .ok s') :
    Advances g table noSkip s s' ∧ (g.rulesFor start ≠ [] →
      ∃ (p : Nat) (seed : Seed), s'.seeds[p]? = some seed ∧ seed.start = some start) := by
  unfold addEntry at h
  dsimp only at h
  split at h
  · rename_i hempty
    cases h
    refine ⟨.refl _, fun hne => ?_⟩
    rw [List.isEmpty_iff, List.map_eq_nil_iff] at hempty
    exact absurd hempty hne
  · rename_i hempty
    obtain ⟨⟨q, next⟩, hstate, h⟩ := exists_ok_of_bind h
    cases h
    have hrules : g.rulesFor start ≠ [] := by
      intro hnil
      rw [hnil] at hempty
      exact hempty rfl
    rcases stateOf_ok hstate with ⟨_, hstart, _⟩ | ⟨items, skip, hclosed, rfl, rfl⟩
    · cases hstart
    · exact ⟨advances_push fun _ => .entry hrules hclosed,
        fun _ => ⟨s.seeds.size, _, Array.getElem?_push_size, rfl⟩⟩

/-- Adding the entry states of several symbols. -/
theorem addEntries_ok {starts : List Term} {s s' : Search}
    (h : starts.foldlM (addEntry g table noSkip) s = .ok s') :
    Advances g table noSkip s s' ∧ ∀ start ∈ starts, g.rulesFor start ≠ [] →
      ∃ (p : Nat) (seed : Seed), s'.seeds[p]? = some seed ∧ seed.start = some start := by
  induction starts generalizing s with
  | nil =>
    cases h
    exact ⟨.refl _, fun _ hs => (List.not_mem_nil hs).elim⟩
  | cons start starts ih =>
    rw [List.foldlM_cons] at h
    obtain ⟨s₁, hstep, h⟩ := exists_ok_of_bind h
    obtain ⟨hadvance, hentry⟩ := addEntry_ok hstep
    obtain ⟨hrest, hentries⟩ := ih h
    refine ⟨hadvance.trans hrest, fun other hs hne => ?_⟩
    rcases List.mem_cons.mp hs with rfl | hs
    · obtain ⟨p, seed, hp, hstart⟩ := hentry hne
      exact ⟨p, seed, hrest.seeds p seed hp, hstart⟩
    · exact hentries other hs hne

end Search

namespace Automaton

variable {a : Automaton} {s : Nat}

/-- A state that does not exist does nothing. -/
theorem state_eq_default (h : a.size ≤ s) : a.state s = default := by
  rw [state, Array.getElem?_eq_none h]
  rfl

theorem lt_size_of_mem_items {i : Item} (h : i ∈ (a.state s).items) : s < a.size := by
  by_contra hs
  rw [state_eq_default (Nat.le_of_not_lt hs)] at h
  cases h

theorem lt_size_of_mem_actions {action : Action} (h : action ∈ (a.state s).actions) :
    s < a.size := by
  by_contra hs
  rw [state_eq_default (Nat.le_of_not_lt hs)] at h
  cases h

theorem lt_size_of_mem_gotos {x : Goto} (h : x ∈ (a.state s).gotos) : s < a.size := by
  by_contra hs
  rw [state_eq_default (Nat.le_of_not_lt hs)] at h
  cases h

theorem lt_size_of_start {t : Term} (h : (a.state s).start = some t) : s < a.size := by
  by_contra hs
  rw [state_eq_default (Nat.le_of_not_lt hs)] at h
  cases h

end Automaton

/-- `Built g table noSkip starts a seeds`: an automaton and the states that it
was built from. -/
structure Built (g : Grammar) (table : FirstTable) (noSkip : Term) (starts : List Term)
    (a : Automaton) (seeds : Array Seed) : Prop where
  size : a.size = seeds.size
  grown : ∀ (p : Nat) seed, seeds[p]? = some seed → Grown g table noSkip seed
  settled : ∀ p < a.size, ∃ seed st, seeds[p]? = some seed ∧
    Search.IsSettled g table seed st ∧ a.state p = st.finish g
  fits : ∀ p < a.size, Fits g seeds p (a.state p)
  entries : ∀ start ∈ starts, g.rulesFor start ≠ [] →
    ∃ p < a.size, (a.state p).start = some start

/-- The seed of a state. -/
theorem Built.exists_seed {g : Grammar} {table : FirstTable} {noSkip : Term} {starts : List Term}
    {a : Automaton} {seeds : Array Seed} (hb : Built g table noSkip starts a seeds) {p : Nat}
    (hp : p < a.size) :
    ∃ seed, seeds[p]? = some seed ∧ (a.state p).items = seed.items ∧
      (a.state p).start = seed.start ∧ Grown g table noSkip seed := by
  obtain ⟨seed, hseed, hitems, hstart⟩ := (hb.fits p hp).seed
  exact ⟨seed, hseed, hitems, hstart, hb.grown p seed hseed⟩

section

variable {g : Grammar} {table : FirstTable} {noSkip : Term} {starts : List Term} {a : Automaton}
  {seeds : Array Seed}

/-- A state is what reading on from its seed gives. -/
theorem Built.isRead (hb : Built g table noSkip starts a seeds) (p : Nat) (hp : p < a.size) :
    ∃ seed st, seeds[p]? = some seed ∧ Search.IsRead g table seed st ∧
      a.state p = st.finish g := by
  obtain ⟨seed, st, hseed, hsettled, heq⟩ := hb.settled p hp
  exact ⟨seed, st, hseed, hsettled.isRead, heq⟩

/-- Where nothing decides between actions, the states do all that their items call
for. -/
theorem Built.full (hb : Built g table noSkip starts a seeds) (hg : g.Plain) (p : Nat)
    (hp : p < a.size) : Full g (a.state p) := by
  obtain ⟨seed, st, hseed, ⟨s, s', hread, hclash⟩, heq⟩ := hb.settled p hp
  exact heq ▸ (Search.full_readState hg (hb.grown p seed hseed) hread hclash).finish

end

/-- What the search comes to when all states have been read on from without a
conflict. -/
theorem Search.Progress.built {g : Grammar} {table : FirstTable} {noSkip : Term}
    {starts : List Term} {states : Array State} {s : Search}
    (h : Progress g table noSkip states s) (hsize : states.size = s.seeds.size)
    (hclashes : s.clashes = [])
    (hstarts : ∀ start ∈ starts, g.rulesFor start ≠ [] →
      ∃ (p : Nat) (seed : Seed), s.seeds[p]? = some seed ∧ seed.start = some start) :
    Built g table noSkip starts (states.map (State.finish g)) s.seeds := by
  have hstate : ∀ p < (states.map (State.finish g)).size, ∃ st, states[p]? = some st ∧
      Automaton.state (states.map (State.finish g)) p = st.finish g := by
    intro p hp
    rw [Array.size_map] at hp
    exact ⟨states[p], Array.getElem?_eq_getElem hp, by simp [Automaton.state, hp]⟩
  refine ⟨by rw [Array.size_map, hsize], h.grown, fun p hp => ?_, fun p hp => ?_,
    fun start hs hne => ?_⟩
  · obtain ⟨st, hst, heq⟩ := hstate p hp
    obtain ⟨seed, hseed, hsettled⟩ := h.settled hclashes p st hst
    exact ⟨seed, st, hseed, hsettled, heq⟩
  · obtain ⟨st, hst, heq⟩ := hstate p hp
    exact heq ▸ (h.fits p st hst).finish
  · obtain ⟨p, seed, hp, hstart⟩ := hstarts start hs hne
    obtain ⟨hlt, _⟩ := Array.getElem?_eq_some_iff.mp hp
    have hlt' : p < (states.map (State.finish g)).size := by
      rw [Array.size_map, hsize]
      exact hlt
    obtain ⟨st, hst, heq⟩ := hstate p hlt'
    obtain ⟨seed', hseed', _, hstart'⟩ := (h.fits p st hst).seed
    cases hp.symm.trans hseed'
    exact ⟨p, hlt', heq ▸ hstart'.trans hstart⟩

/-- The search for states can begin once the entries are there. -/
theorem Search.progress_addEntries {g : Grammar} {table : FirstTable} {noSkip : Term}
    {starts : List Term} {s : Search}
    (h : starts.foldlM (addEntry g table noSkip) (start g) = .ok s) :
    Progress g table noSkip #[] s where
  size := Nat.zero_le _
  grown := (addEntries_ok h).1.grown fun p seed hp => by simp [start] at hp
  fits p st hp := by simp at hp
  settled _ p st hp := by simp at hp

/-- The automaton of a grammar is built from states that came about properly,
and does what their items call for. -/
theorem fullAutomaton_built {g : Grammar} {table : FirstTable} {starts : List Term}
    {noSkip : Term} {a : Automaton} (h : fullAutomaton g table starts noSkip = .ok a) :
    ∃ seeds, Built g table noSkip starts a seeds := by
  unfold fullAutomaton at h
  dsimp only at h
  obtain ⟨s, hentries, h⟩ := exists_ok_of_bind h
  obtain ⟨⟨states, clashes⟩, hrun, h⟩ := exists_ok_of_bind h
  dsimp only at h
  split at h
  · rename_i hnone
    cases h
    obtain ⟨s', hlast, hext, hsize, hclashes⟩ := (Search.progress_addEntries hentries).run hrun
    refine ⟨s'.seeds, hlast.built hsize (hclashes.trans (List.isEmpty_iff.mp hnone)) ?_⟩
    intro start hs hne
    obtain ⟨p, seed, hp, hstart⟩ := (Search.addEntries_ok hentries).2 start hs hne
    exact ⟨p, seed, hext p seed hp, hstart⟩
  · cases h

end GrammarCompiler
