/-
GrammarCompiler.Proofs.StateMerging — what merging identical states does.

Of the states that are put together only the first one is kept, with the items
of all. So the merged automaton does exactly what the first state of each kind
does, and accepts where any of them accepts (`Placed`). That is the same as
before, unless a run meets a state that was put together with one that accepts
and does not accept itself, or that has a default reduction and lists other
terminals or gotos than the first.

  §1 Sameness  — what the comparison of states looks at.
  §2 Keeping   — which states a round keeps.
  §3 Placement — what becomes of all states, in one round and in several.
  §4 Merging   — what the merged automaton accepts.
-/
import GrammarCompiler.Automaton.Collapse
import GrammarCompiler.Automaton.Full
import GrammarCompiler.Automaton.Identical
import GrammarCompiler.Proofs.Construction
import GrammarCompiler.Proofs.Simulation
import Mathlib

namespace GrammarCompiler

/-! ## §1 Sameness -/

namespace State

variable {g : Grammar} {s s' : State}

theorem sameActions_iff {as bs : List Action} :
    sameActions g as bs = true ↔ as.map (Action.deed g id) = bs.map (Action.deed g id) := by
  unfold sameActions
  rw [Bool.and_eq_true]
  induction as generalizing bs with
  | nil => cases bs <;> simp
  | cons a as ih =>
    cases bs with
    | nil => simp
    | cons b bs =>
      have ih := @ih bs
      simp only [List.length_cons, List.zip_cons_cons, List.all_cons, Bool.and_eq_true,
        List.map_cons, List.cons.injEq, Action.same_iff, beq_iff_eq,
        Nat.add_right_cancel_iff] at ih ⊢
      rw [← ih]
      tauto

theorem sameAs_refl (s : State) : s.sameAs g s = true := by
  unfold sameAs
  rw [beq_self_eq_true, Bool.true_and]
  cases s.defaultReduce with
  | some r => exact Rule.sameReduce_iff.mpr ⟨rfl, rfl, rfl⟩
  | none =>
    have hactions : sameActions g s.actions s.actions = true := sameActions_iff.mpr rfl
    simp [hactions]

theorem start_eq_of_sameAs (h : s.sameAs g s' = true) : s.start = s'.start := by
  unfold sameAs at h
  simp only [Bool.and_eq_true, beq_iff_eq] at h
  exact h.1

/-- States that do the same both have a default reduction, or do the same
deeds. -/
theorem cases_of_sameAs (h : s.sameAs g s' = true) :
    (s.defaultReduce ≠ none ∧ s'.defaultReduce ≠ none) ∨
      (s.defaultReduce = none ∧ s'.defaultReduce = none ∧ s.deeds g id = s'.deeds g id) := by
  unfold sameAs at h
  rw [Bool.and_eq_true] at h
  have h := h.2
  cases hs : s.defaultReduce with
  | some r =>
    cases hs' : s'.defaultReduce with
    | some r' => exact .inl ⟨nofun, nofun⟩
    | none => simp [hs, hs'] at h
  | none =>
    cases hs' : s'.defaultReduce with
    | some r' => simp [hs, hs'] at h
    | none =>
      simp only [hs, hs', Bool.and_eq_true, beq_iff_eq] at h
      refine .inr ⟨rfl, rfl, ?_⟩
      rw [deeds, deeds, sameActions_iff.mp h.1.2, h.2]

/-- All actions come down to one reduction. -/
def OnlyReduces (g : Grammar) (actions : List Action) : Prop :=
  ∃ r, (∃ t, .reduce t r ∈ actions) ∧
    ∀ a ∈ actions, ∃ t r', a = .reduce t r' ∧ r'.sameReduce g.terms r = true

theorem onlyReduction_eq_none_iff {actions : List Action} :
    onlyReduction g actions = none ↔ ¬ OnlyReduces g actions := by
  unfold onlyReduction
  split
  · rename_i t r rest
    split
    · rename_i hall
      refine ⟨fun h => (nomatch h), fun h => absurd ⟨r, ⟨t, .head _⟩, fun a ha => ?_⟩ h⟩
      have hsame := List.all_eq_true.mp hall a ha
      cases a with
      | shift t' q => cases hsame
      | reduce t' r' => exact ⟨t', r', rfl, hsame⟩
    · rename_i hall
      refine ⟨fun _ h => hall (List.all_eq_true.mpr fun a ha => ?_), fun _ => rfl⟩
      obtain ⟨r₀, _, hr₀⟩ := h
      obtain ⟨_, r₁, heq, hfirst⟩ := hr₀ _ (.head _)
      cases heq
      obtain ⟨_, r', rfl, hsame⟩ := hr₀ a ha
      obtain ⟨hname, hlength, hwrap⟩ := Rule.sameReduce_iff.mp hfirst
      obtain ⟨hname', hlength', hwrap'⟩ := Rule.sameReduce_iff.mp hsame
      exact Rule.sameReduce_iff.mpr
        ⟨hname'.trans hname.symm, hlength'.trans hlength.symm, hwrap'.trans hwrap.symm⟩
  · rename_i hnone
    refine ⟨fun _ h => ?_, fun _ => rfl⟩
    obtain ⟨r, ⟨t, hmem⟩, hr⟩ := h
    cases actions with
    | nil => cases hmem
    | cons a rest =>
      obtain ⟨t', r', rfl, _⟩ := hr a (.head _)
      exact hnone t' r' rest rfl

/-- The default reduction of a state is the one that all its actions come down
to. -/
def IsFinished (g : Grammar) (s : State) : Prop :=
  s.defaultReduce = none ↔ ¬ OnlyReduces g s.actions

theorem onlyReduces_of_mem_iff {as bs : List Action} (h : ∀ a, a ∈ as ↔ a ∈ bs) :
    OnlyReduces g as ↔ OnlyReduces g bs := by
  simp only [OnlyReduces, h]

theorem onlyReduces_map {f : Nat → Nat} {actions : List Action} :
    OnlyReduces g (actions.map (Action.map f)) ↔ OnlyReduces g actions := by
  have hreduce : ∀ a t r, Action.map f a = .reduce t r ↔ a = .reduce t r := by
    intro a t r
    cases a <;> simp [Action.map]
  simp only [OnlyReduces, List.mem_map, hreduce, exists_eq_right, forall_exists_index, and_imp,
    forall_apply_eq_imp_iff₂]

theorem isFinished_finish (s : State) : (s.finish g).IsFinished g := by
  have hmem : ∀ a, a ∈ (s.finish g).actions ↔ a ∈ s.actions := fun a => List.mem_mergeSort
  rw [IsFinished, onlyReduces_of_mem_iff hmem]
  exact onlyReduction_eq_none_iff

/-- Moving the targets of a state keeps its deeds, with other targets. -/
theorem doesAs_moveTargets (f : Nat → Nat) (s : State) :
    s.DoesAs g f (Identical.moveTargets g f s) := by
  have hactions : ∀ a, a ∈ (Identical.moveTargets g f s).actions ↔
      a ∈ s.actions.map (Action.map f) := fun a => List.mem_mergeSort
  have hgotos : ∀ x, x ∈ (Identical.moveTargets g f s).gotos ↔ x ∈ s.gotos.map (Goto.map f) :=
    fun x => List.mem_mergeSort
  have hdeed : ∀ a : Action, (a.map f).deed g id = a.deed g f := by
    intro a
    cases a <;> rfl
  intro d
  simp only [deeds, List.mem_append, List.mem_map, hactions, hgotos, exists_exists_and_eq_and,
    hdeed]
  rfl

theorem accepting_moveTargets (f : Nat → Nat) (s : State) :
    (Identical.moveTargets g f s).accepting g = s.accepting g :=
  rfl

theorem start_moveTargets (f : Nat → Nat) (s : State) :
    (Identical.moveTargets g f s).start = s.start :=
  rfl

theorem defaultReduce_moveTargets (f : Nat → Nat) {s : State} (h : s.IsFinished g) :
    (Identical.moveTargets g f s).defaultReduce = none ↔ s.defaultReduce = none := by
  have h : s.defaultReduce = none ↔ ¬ OnlyReduces g s.actions := h
  rw [h, show (Identical.moveTargets g f s).defaultReduce =
    onlyReduction g (s.actions.map (Action.map f)) from rfl, onlyReduction_eq_none_iff,
    onlyReduces_map]

/-- With the items of another state, a state accepts if either does. -/
theorem accepting_addItems (into s : State) :
    (Identical.addItems into s).accepting g = true ↔
      into.accepting g = true ∨ s.accepting g = true := by
  have hboth := Item.exists_append_notIn into.items s.items
    (p := fun d => (g.terms.isTop d.rule.name && d.atEnd) = true)
  have hitems : (Identical.addItems into s).accepting g = true ↔
      ∃ i ∈ into.items ++ Item.notIn into.items s.items,
        (g.terms.isTop i.rule.name && i.atEnd) = true := by
    unfold Identical.addItems accepting
    split
    · rename_i hnil
      rw [hnil, List.append_nil]
      exact List.any_eq_true
    · rw [List.any_eq_true]
      simp only [Item.sort, List.mem_mergeSort, List.mem_append, or_comm]
  rw [hitems, accepting, accepting, List.any_eq_true, List.any_eq_true]
  exact hboth

end State

namespace Identical

open Automaton (state)

variable {g : Grammar} {states : Automaton}

/-! ## §2 Keeping -/

/-- A mapping of the first `n` states to places below `count`: places are taken
in order, and all are taken. -/
structure Numbered (n count : Nat) (mapping : Array Nat) : Prop where
  size : mapping.size = n
  le : count ≤ n
  inside : ∀ (i p : Nat), mapping[i]? = some p → p < count
  onto : ∀ p < count, ∃ i : Nat, mapping[i]? = some p
  ordered : ∀ (i p : Nat), mapping[i]? = some p → ∀ p' < p, ∃ j < i, mapping[j]? = some p'

namespace Numbered

variable {n count q : Nat} {mapping : Array Nat}

theorem empty : Numbered 0 0 #[] where
  size := rfl
  le := Nat.le_refl 0
  inside _ _ h := by simp at h
  onto _ h := by simp at h
  ordered _ _ h := by simp at h

theorem lt (h : Numbered n count mapping) {i p : Nat} (hi : mapping[i]? = some p) : i < n :=
  h.size ▸ (Array.getElem?_eq_some_iff.mp hi).1

theorem push_iff (h : Numbered n count mapping) {i p : Nat} :
    (mapping.push q)[i]? = some p ↔ mapping[i]? = some p ∨ i = n ∧ p = q := by
  rw [Array.getElem?_push, h.size]
  split
  · rename_i hi
    subst hi
    simp [← h.size, eq_comm]
  · rename_i hi
    simp [hi]

/-- One more state in a place that is taken. -/
theorem again (h : Numbered n count mapping) (hq : q < count) :
    Numbered (n + 1) count (mapping.push q) := by
  refine ⟨by simp [h.size], Nat.le_succ_of_le h.le, fun i p hi => ?_, fun p hp => ?_,
    fun i p hi p' hp' => ?_⟩
  · rcases h.push_iff.mp hi with hi | ⟨_, rfl⟩
    · exact h.inside i p hi
    · exact hq
  · obtain ⟨i, hi⟩ := h.onto p hp
    exact ⟨i, h.push_iff.mpr (.inl hi)⟩
  · rcases h.push_iff.mp hi with hi | ⟨rfl, rfl⟩
    · obtain ⟨j, hj, hm⟩ := h.ordered i p hi p' hp'
      exact ⟨j, hj, h.push_iff.mpr (.inl hm)⟩
    · obtain ⟨j, hj⟩ := h.onto p' (Nat.lt_trans hp' hq)
      exact ⟨j, h.lt hj, h.push_iff.mpr (.inl hj)⟩

/-- One more state in the next place. -/
theorem next (h : Numbered n count mapping) : Numbered (n + 1) (count + 1) (mapping.push count) := by
  refine ⟨by simp [h.size], Nat.succ_le_succ h.le, fun i p hi => ?_, fun p hp => ?_,
    fun i p hi p' hp' => ?_⟩
  · rcases h.push_iff.mp hi with hi | ⟨_, rfl⟩
    · exact Nat.lt_succ_of_lt (h.inside i p hi)
    · exact Nat.lt_succ_self _
  · rcases Nat.lt_succ_iff_lt_or_eq.mp hp with hp | rfl
    · obtain ⟨i, hi⟩ := h.onto p hp
      exact ⟨i, h.push_iff.mpr (.inl hi)⟩
    · exact ⟨n, h.push_iff.mpr (.inr ⟨rfl, rfl⟩)⟩
  · rcases h.push_iff.mp hi with hi | ⟨rfl, rfl⟩
    · obtain ⟨j, hj, hm⟩ := h.ordered i p hi p' hp'
      exact ⟨j, hj, h.push_iff.mpr (.inl hm)⟩
    · obtain ⟨j, hj⟩ := h.onto p' hp'
      exact ⟨j, h.lt hj, h.push_iff.mpr (.inl hj)⟩

end Numbered

/-- What a round knows after the first `n` states: each of them has a place
among the kept ones. A kept state is the first of those in its place, and
accepts if any of them does. -/
structure KeptFrom (g : Grammar) (states : Automaton) (n : Nat) (k : Kept) : Prop where
  numbered : Numbered n k.states.size k.mapping
  same : ∀ (i p : Nat), k.mapping[i]? = some p → (state states i).sameAs g (state k.states p) = true
  first : ∀ (i p : Nat), k.mapping[i]? = some p → (∀ j < i, k.mapping[j]? ≠ some p) →
    (state k.states p).actions = (state states i).actions ∧
      (state k.states p).gotos = (state states i).gotos
  finished : ∀ p < k.states.size, ∃ i, k.mapping[i]? = some p ∧
    (state k.states p).actions = (state states i).actions ∧
      (state k.states p).defaultReduce = (state states i).defaultReduce
  accepting : ∀ p < k.states.size, (state k.states p).accepting g = true ↔
    ∃ i : Nat, k.mapping[i]? = some p ∧ (state states i).accepting g = true

theorem keptFrom_nil (g : Grammar) (states : Automaton) : KeptFrom g states 0 ⟨#[], #[]⟩ where
  numbered := .empty
  same _ _ h := by simp at h
  first _ _ h := by simp at h
  finished _ h := by simp at h
  accepting _ h := by simp at h

/-- The items of a state are all that other states can add to. -/
theorem addItems_eq (into s : State) :
    (addItems into s).actions = into.actions ∧ (addItems into s).gotos = into.gotos ∧
      (addItems into s).defaultReduce = into.defaultReduce ∧
      ∀ x : State, x.sameAs g (addItems into s) = x.sameAs g into := by
  unfold addItems
  split
  · exact ⟨rfl, rfl, rfl, fun _ => rfl⟩
  · exact ⟨rfl, rfl, rfl, fun _ => rfl⟩

theorem state_modify {kept : Array State} {q : Nat} (f : State → State) (hq : q < kept.size)
    (p : Nat) : state (kept.modify q f) p = if p = q then f (state kept q) else state kept p := by
  unfold state
  rw [Array.getElem?_modify]
  by_cases hp : q = p
  · subst hp
    simp [hq]
  · rw [if_neg hp, if_neg (Ne.symm hp)]

/-- Adding a state's items to a kept state changes nothing but what is accepted
there. -/
theorem modify_addItems_eq {kept : Array State} {q : Nat} (hq : q < kept.size) (s : State)
    (p : Nat) :
    let after := state (kept.modify q fun other => addItems other s) p
    after.actions = (state kept p).actions ∧ after.gotos = (state kept p).gotos ∧
      after.defaultReduce = (state kept p).defaultReduce ∧
      (∀ x : State, x.sameAs g after = x.sameAs g (state kept p)) ∧
      (after.accepting g = true ↔
        (state kept p).accepting g = true ∨ p = q ∧ s.accepting g = true) := by
  intro after
  have hafter : after = if p = q then addItems (state kept q) s else state kept p :=
    state_modify _ hq p
  rw [hafter]
  by_cases hp : p = q
  · subst hp
    obtain ⟨hactions, hgotos, hdefault, hsameAs⟩ := addItems_eq (g := g) (state kept p) s
    rw [if_pos rfl]
    refine ⟨hactions, hgotos, hdefault, hsameAs, ?_⟩
    rw [State.accepting_addItems]
    simp
  · rw [if_neg hp]
    simp [hp]

theorem state_push (kept : Array State) (x : State) (p : Nat) :
    state (kept.push x) p = if p = kept.size then x else state kept p := by
  unfold state
  rw [Array.getElem?_push]
  split <;> rfl

/-- Keeping a state that does the same as a kept one. -/
theorem KeptFrom.found {k : Kept} {n q : Nat} (h : KeptFrom g states n k) (hq : q < k.states.size)
    (hsame : (state states n).sameAs g (state k.states q) = true) :
    KeptFrom g states (n + 1)
      ⟨k.states.modify q fun other => addItems other (state states n), k.mapping.push q⟩ := by
  have hmem : ∀ i p, (k.mapping.push q)[i]? = some p ↔ k.mapping[i]? = some p ∨ i = n ∧ p = q :=
    fun i p => h.numbered.push_iff
  have hafter := modify_addItems_eq (g := g) hq (state states n)
  refine ⟨?_, fun i p hi => ?_, fun i p hi hfirst => ?_, fun p hp => ?_, fun p hp => ?_⟩
  · rw [Array.size_modify]
    exact h.numbered.again hq
  · obtain ⟨_, _, _, hsameAs, _⟩ := hafter p
    rw [hsameAs]
    rcases (hmem i p).mp hi with hi | ⟨rfl, rfl⟩
    · exact h.same i p hi
    · exact hsame
  · obtain ⟨hactions, hgotos, _⟩ := hafter p
    rw [hactions, hgotos]
    rcases (hmem i p).mp hi with hi | ⟨rfl, rfl⟩
    · exact h.first i p hi fun j hj hm => hfirst j hj ((hmem j p).mpr (.inl hm))
    · obtain ⟨i₀, hi₀⟩ := h.numbered.onto p hq
      exact absurd ((hmem i₀ p).mpr (.inl hi₀)) (hfirst i₀ (h.numbered.lt hi₀))
  · rw [Array.size_modify] at hp
    obtain ⟨hactions, _, hdefault, _⟩ := hafter p
    obtain ⟨i, hi, hfin⟩ := h.finished p hp
    refine ⟨i, (hmem i p).mpr (.inl hi), ?_⟩
    rw [hactions, hdefault]
    exact hfin
  · rw [Array.size_modify] at hp
    obtain ⟨_, _, _, _, haccepting⟩ := hafter p
    rw [haccepting, h.accepting p hp]
    constructor
    · rintro (⟨i, hi, hacc⟩ | ⟨rfl, hacc⟩)
      · exact ⟨i, (hmem i p).mpr (.inl hi), hacc⟩
      · exact ⟨n, (hmem n p).mpr (.inr ⟨rfl, rfl⟩), hacc⟩
    · rintro ⟨i, hi, hacc⟩
      rcases (hmem i p).mp hi with hi | ⟨rfl, rfl⟩
      · exact .inl ⟨i, hi, hacc⟩
      · exact .inr ⟨rfl, hacc⟩

/-- Keeping a state that no kept one does the same as. -/
theorem KeptFrom.fresh {k : Kept} {n : Nat} (h : KeptFrom g states n k) :
    KeptFrom g states (n + 1)
      ⟨k.states.push (state states n), k.mapping.push k.states.size⟩ := by
  have hmem : ∀ i p, (k.mapping.push k.states.size)[i]? = some p ↔
      k.mapping[i]? = some p ∨ i = n ∧ p = k.states.size := fun i p => h.numbered.push_iff
  have hstate := state_push k.states (state states n)
  have hne : ∀ {i p : Nat}, k.mapping[i]? = some p → p ≠ k.states.size := fun hi =>
    Nat.ne_of_lt (h.numbered.inside _ _ hi)
  refine ⟨?_, fun i p hi => ?_, fun i p hi hfirst => ?_, fun p hp => ?_, fun p hp => ?_⟩
  · rw [Array.size_push]
    exact h.numbered.next
  · rw [hstate]
    rcases (hmem i p).mp hi with hi | ⟨rfl, rfl⟩
    · rw [if_neg (hne hi)]
      exact h.same i p hi
    · rw [if_pos rfl]
      exact State.sameAs_refl _
  · rw [hstate]
    rcases (hmem i p).mp hi with hi | ⟨rfl, rfl⟩
    · rw [if_neg (hne hi)]
      exact h.first i p hi fun j hj hm => hfirst j hj ((hmem j p).mpr (.inl hm))
    · rw [if_pos rfl]
      exact ⟨rfl, rfl⟩
  · rw [Array.size_push] at hp
    rw [hstate]
    rcases Nat.lt_succ_iff_lt_or_eq.mp hp with hp | rfl
    · obtain ⟨i, hi, hfin⟩ := h.finished p hp
      rw [if_neg (Nat.ne_of_lt hp)]
      exact ⟨i, (hmem i p).mpr (.inl hi), hfin⟩
    · rw [if_pos rfl]
      exact ⟨n, (hmem n _).mpr (.inr ⟨rfl, rfl⟩), rfl, rfl⟩
  · rw [Array.size_push] at hp
    rw [hstate]
    rcases Nat.lt_succ_iff_lt_or_eq.mp hp with hp | rfl
    · rw [if_neg (Nat.ne_of_lt hp), h.accepting p hp]
      refine exists_congr fun i => and_congr_left fun _ => ?_
      rw [hmem]
      simp [Nat.ne_of_lt hp]
    · rw [if_pos rfl]
      constructor
      · exact fun hacc => ⟨n, (hmem n _).mpr (.inr ⟨rfl, rfl⟩), hacc⟩
      · rintro ⟨i, hi, hacc⟩
        rcases (hmem i _).mp hi with hi | ⟨rfl, _⟩
        · exact absurd rfl (hne hi)
        · exact hacc

/-- What a round keeps of an automaton. -/
theorem keptFrom_foldl (g : Grammar) (states : Automaton) :
    KeptFrom g states states.size (states.foldl (keep g) ⟨#[], #[]⟩) := by
  refine Array.foldl_induction (fun n k => KeptFrom g states n k) (keptFrom_nil g states) ?_
  intro i k hk
  have hi : states[i] = state states i := by simp [state]
  unfold keep
  rw [hi]
  split
  · rename_i q hq
    obtain ⟨hlt, hsame, _⟩ := Array.findIdx?_eq_some_iff_getElem.mp hq
    refine hk.found hlt ?_
    simpa [state, hlt] using hsame
  · exact hk.fresh

/-! ## §3 Placement -/

/-- Where rounds of merging put a state. -/
def place (g : Grammar) : (fuel : Nat) → Automaton → Nat → Nat
  | 0, _, i => i
  | fuel + 1, states, i =>
    let k := states.foldl (keep g) ⟨#[], #[]⟩
    if k.states.size = states.size then i
    else
      let mapping (i : Nat) := k.mapping[i]?.getD i
      place g fuel (k.states.map (moveTargets g mapping)) (mapping i)

/-- `Placed g a f m`: the states of `a` have become those of `m`, each the one
that `f` tells. Places are taken in order; the first state in a place does what
is done there, and so does any without a default reduction. -/
structure Placed (g : Grammar) (a : Automaton) (f : Nat → Nat) (m : Automaton) : Prop where
  size : m.size ≤ a.size
  inside : ∀ i < a.size, f i < m.size
  outside : ∀ i, a.size ≤ i → f i = i
  onto : ∀ p < m.size, ∃ i < a.size, f i = p
  ordered : ∀ i < a.size, ∀ p < f i, ∃ j < i, f j = p
  start : ∀ i < a.size, (m.state (f i)).start = (a.state i).start
  defaultReduce : ∀ i < a.size,
    (m.state (f i)).defaultReduce = none ↔ (a.state i).defaultReduce = none
  first : ∀ i < a.size, (∀ j < i, f j ≠ f i) → (a.state i).DoesAs g f (m.state (f i))
  plain : ∀ i < a.size, (a.state i).defaultReduce = none →
    (a.state i).DoesAs g f (m.state (f i))
  accepting : ∀ p < m.size, (m.state p).accepting g = true ↔
    ∃ i < a.size, f i = p ∧ (a.state i).accepting g = true

theorem Placed.refl (g : Grammar) (a : Automaton) : Placed g a (fun i => i) a where
  size := Nat.le_refl _
  inside _ hi := hi
  outside _ _ := rfl
  onto p hp := ⟨p, hp, rfl⟩
  ordered _ _ p hp := ⟨p, hp, rfl⟩
  start _ _ := rfl
  defaultReduce _ _ := Iff.rfl
  first _ _ _ _ := Iff.rfl
  plain _ _ _ _ := Iff.rfl
  accepting p hp := ⟨fun h => ⟨p, hp, rfl, h⟩, fun ⟨_, _, heq, h⟩ => heq ▸ h⟩

/-- What becomes of states in one round after another. -/
theorem Placed.trans {a b m : Automaton} {f f' : Nat → Nat} (h : Placed g a f b)
    (h' : Placed g b f' m) : Placed g a (f' ∘ f) m where
  size := Nat.le_trans h'.size h.size
  inside i hi := h'.inside _ (h.inside i hi)
  outside i hi := by
    rw [Function.comp, h.outside i hi]
    exact h'.outside i (Nat.le_trans h.size hi)
  onto p hp := by
    obtain ⟨q, hq, rfl⟩ := h'.onto p hp
    obtain ⟨i, hi, rfl⟩ := h.onto q hq
    exact ⟨i, hi, rfl⟩
  ordered i hi p hp := by
    obtain ⟨q, hq, rfl⟩ := h'.ordered (f i) (h.inside i hi) p hp
    obtain ⟨j, hj, rfl⟩ := h.ordered i hi q hq
    exact ⟨j, hj, rfl⟩
  start i hi := (h'.start _ (h.inside i hi)).trans (h.start i hi)
  defaultReduce i hi := (h'.defaultReduce _ (h.inside i hi)).trans (h.defaultReduce i hi)
  first i hi hfirst := by
    refine (h.first i hi fun j hj heq => hfirst j hj (congrArg f' heq)).comp ?_
    refine h'.first (f i) (h.inside i hi) fun q hq heq => ?_
    obtain ⟨j, hj, rfl⟩ := h.ordered i hi q hq
    exact hfirst j hj heq
  plain i hi hnone :=
    (h.plain i hi hnone).comp
      (h'.plain (f i) (h.inside i hi) ((h.defaultReduce i hi).mpr hnone))
  accepting p hp := by
    rw [h'.accepting p hp]
    constructor
    · rintro ⟨q, hq, rfl, hacc⟩
      obtain ⟨i, hi, rfl, hfirst⟩ := (h.accepting q hq).mp hacc
      exact ⟨i, hi, rfl, hfirst⟩
    · rintro ⟨i, hi, rfl, hacc⟩
      exact ⟨f i, h.inside i hi, rfl, (h.accepting _ (h.inside i hi)).mpr ⟨i, hi, rfl, hacc⟩⟩

theorem state_map {kept : Array State} {f : State → State} {p : Nat} (hp : p < kept.size) :
    state (kept.map f) p = f (state kept p) := by
  simp [state, hp]

/-- The places of a round, where all states have one. -/
theorem KeptFrom.place_iff {k : Kept} (h : KeptFrom g states states.size k) {i p : Nat} :
    k.mapping[i]? = some p ↔ i < states.size ∧ k.mapping[i]?.getD i = p := by
  constructor
  · intro hi
    rw [hi]
    exact ⟨h.numbered.lt hi, rfl⟩
  · rintro ⟨hi, rfl⟩
    have hlt : i < k.mapping.size := h.numbered.size.symm ▸ hi
    simp [hlt]

/-- What becomes of states in a round. -/
theorem KeptFrom.placed {k : Kept} (h : KeptFrom g states states.size k)
    (hfinished : ∀ i < states.size, (state states i).IsFinished g) :
    let mapping (i : Nat) := k.mapping[i]?.getD i
    Placed g states mapping (k.states.map (moveTargets g mapping)) := by
  intro mapping
  have hmapping : ∀ i < states.size, k.mapping[i]? = some (mapping i) :=
    fun i hi => h.place_iff.mpr ⟨hi, rfl⟩
  have hinside : ∀ i < states.size, mapping i < k.states.size :=
    fun i hi => h.numbered.inside i _ (hmapping i hi)
  have hsame : ∀ i < states.size,
      (state states i).sameAs g (state k.states (mapping i)) = true :=
    fun i hi => h.same i _ (hmapping i hi)
  have hstate : ∀ p < k.states.size, state (k.states.map (moveTargets g mapping)) p =
      moveTargets g mapping (state k.states p) := fun p hp => state_map hp
  have hkept : ∀ p < k.states.size, (state k.states p).IsFinished g := by
    intro p hp
    obtain ⟨i, hi, hactions, hdefault⟩ := h.finished p hp
    rw [State.IsFinished, hactions, hdefault]
    exact hfinished i (h.numbered.lt hi)
  have hsize : (k.states.map (moveTargets g mapping)).size = k.states.size := Array.size_map
  exact {
    size := hsize ▸ h.numbered.le
    inside := fun i hi => hsize ▸ hinside i hi
    outside := by
      intro i hi
      have hnone : k.mapping[i]? = none := Array.getElem?_eq_none (h.numbered.size.symm ▸ hi)
      simp [mapping, hnone]
    onto := by
      intro p hp
      obtain ⟨i, hi⟩ := h.numbered.onto p (hsize ▸ hp)
      exact ⟨i, h.place_iff.mp hi⟩
    ordered := by
      intro i hi p hp
      obtain ⟨j, hj, hm⟩ := h.numbered.ordered i _ (hmapping i hi) p hp
      exact ⟨j, hj, (h.place_iff.mp hm).2⟩
    start := by
      intro i hi
      rw [hstate _ (hinside i hi), State.start_moveTargets]
      exact (State.start_eq_of_sameAs (hsame i hi)).symm
    defaultReduce := by
      intro i hi
      have hp := hinside i hi
      rw [hstate _ hp, State.defaultReduce_moveTargets _ (hkept _ hp)]
      rcases State.cases_of_sameAs (hsame i hi) with ⟨hi', hp'⟩ | ⟨hi', hp', _⟩
      · exact ⟨fun hn => absurd hn hp', fun hn => absurd hn hi'⟩
      · exact ⟨fun _ => hi', fun _ => hp'⟩
    first := by
      intro i hi hfirst
      have hfirst' : ∀ j < i, k.mapping[j]? ≠ some (mapping i) := fun j hj hm =>
        hfirst j hj (h.place_iff.mp hm).2
      obtain ⟨hactions, hgotos⟩ := h.first i _ (hmapping i hi) hfirst'
      have hdeeds : (state k.states (mapping i)).deeds g mapping =
          (state states i).deeds g mapping := by
        rw [State.deeds, State.deeds, hactions, hgotos]
      intro d
      rw [hstate _ (hinside i hi), State.doesAs_moveTargets mapping (state k.states (mapping i)) d,
        hdeeds]
    plain := by
      intro i hi hnone
      rcases State.cases_of_sameAs (hsame i hi) with ⟨hi', _⟩ | ⟨_, _, hdeeds⟩
      · exact absurd hnone hi'
      · intro d
        rw [hstate _ (hinside i hi),
          State.doesAs_moveTargets mapping (state k.states (mapping i)) d,
          State.deeds_congr hdeeds]
    accepting := by
      intro p hp
      rw [hsize] at hp
      rw [hstate p hp, State.accepting_moveTargets, h.accepting p hp]
      constructor
      · rintro ⟨i, hi, hacc⟩
        obtain ⟨hlt, heq⟩ := h.place_iff.mp hi
        exact ⟨i, hlt, heq, hacc⟩
      · rintro ⟨i, hi, rfl, hacc⟩
        exact ⟨i, hmapping i hi, hacc⟩ }

/-- What becomes of states when they are merged. -/
theorem placed_rounds (fuel : Nat) (states : Automaton)
    (hfinished : ∀ i < states.size, (state states i).IsFinished g) :
    Placed g states (place g fuel states) (rounds g fuel states) := by
  induction fuel generalizing states with
  | zero => exact .refl g states
  | succ fuel ih =>
    by_cases hsize : (states.foldl (keep g) ⟨#[], #[]⟩).states.size = states.size
    · have hplace : place g (fuel + 1) states = fun i => i := by
        funext i
        rw [place, if_pos hsize]
      rw [hplace, rounds, if_pos hsize]
      exact .refl g states
    · let k := states.foldl (keep g) ⟨#[], #[]⟩
      let mapping (i : Nat) := k.mapping[i]?.getD i
      have hplace : place g (fuel + 1) states =
          place g fuel (k.states.map (moveTargets g mapping)) ∘ mapping := by
        funext i
        rw [place, if_neg hsize]
        rfl
      rw [hplace, rounds, if_neg hsize]
      refine ((keptFrom_foldl g states).placed hfinished).trans (ih _ fun p hp => ?_)
      rw [Array.size_map] at hp
      rw [state_map hp]
      exact State.isFinished_finish _

/-! ## §4 Merging -/

/-- The first state that has the same place as another. -/
def leader (f : Nat → Nat) (i : Nat) : Nat :=
  ((List.range (i + 1)).find? fun j => f j == f i).getD i

theorem leader_spec (f : Nat → Nat) (i : Nat) :
    leader f i ≤ i ∧ f (leader f i) = f i ∧ ∀ j < leader f i, f j ≠ f (leader f i) := by
  unfold leader
  cases hfind : (List.range (i + 1)).find? fun j => f j == f i with
  | none =>
    have := List.find?_eq_none.mp hfind i (List.mem_range.mpr (Nat.lt_succ_self i))
    simp at this
  | some j =>
    obtain ⟨hj, before, after, hrange, hbefore⟩ := List.find?_eq_some_iff_append.mp hfind
    have hj : f j = f i := by simpa using hj
    have hmem : j ∈ List.range (i + 1) := List.mem_of_find?_eq_some hfind
    refine ⟨Nat.le_of_lt_succ (List.mem_range.mp hmem), hj, fun j' hj' heq => ?_⟩
    have hlt : j' < i + 1 := Nat.lt_trans hj' (List.mem_range.mp hmem)
    have hmem' : j' ∈ before ++ j :: after := hrange ▸ List.mem_range.mpr hlt
    have hsorted : (before ++ j :: after).Pairwise (· < ·) := hrange ▸ List.pairwise_lt_range
    rcases List.mem_append.mp hmem' with hb | ha
    · have := hbefore j' hb
      rw [Option.getD_some] at heq
      simp [heq, hj] at this
    · rcases List.mem_cons.mp ha with rfl | ha
      · exact Nat.lt_irrefl _ hj'
      · have := List.rel_of_pairwise_cons (List.pairwise_append.mp hsorted).2.1 ha
        exact Nat.lt_asymm this hj'

/-- The automaton in which each state does what the first one in its place
does, and accepts if any state in its place accepts. -/
def leading (f : Nat → Nat) (a : Automaton) : Automaton :=
  (Array.range a.size).map fun i =>
    { state a (leader f i) with
      items := ((List.range a.size).filter fun j => f j == f i).flatMap fun j => (state a j).items
      start := (state a i).start }

theorem deeds_leading {f : Nat → Nat} {a : Automaton} {i : Nat} (hi : i < a.size)
    (f' : Nat → Nat) : (state (leading f a) i).deeds g f' = (state a (leader f i)).deeds g f' := by
  have hstate : state (leading f a) i =
      { state a (leader f i) with
        items := ((List.range a.size).filter fun j => f j == f i).flatMap fun j => (state a j).items
        start := (state a i).start } := by
    simp [leading, state, hi]
  rw [hstate]
  rfl

theorem accepting_leading {f : Nat → Nat} {a : Automaton} {i : Nat} (hi : i < a.size) :
    (state (leading f a) i).accepting g = true ↔
      ∃ j < a.size, f j = f i ∧ (state a j).accepting g = true := by
  have hitems : (state (leading f a) i).items =
      ((List.range a.size).filter fun j => f j == f i).flatMap fun j => (state a j).items := by
    simp [leading, state, hi]
  rw [State.accepting, hitems]
  simp only [State.accepting, List.any_eq_true, List.mem_flatMap, List.mem_filter, List.mem_range,
    beq_iff_eq]
  constructor
  · rintro ⟨item, ⟨j, ⟨hj, hf⟩, hitem⟩, hc⟩
    exact ⟨j, hj, hf, item, hitem, hc⟩
  · rintro ⟨j, hj, hf, item, hitem, hc⟩
    exact ⟨item, ⟨j, ⟨hj, hf⟩, hitem⟩, hc⟩

/-- Merging does not change what a state stands for: it accepts if any state in
its place does, and if it has a default reduction, it does what the first state
in its place does. -/
structure IsFaithful (g : Grammar) (f : Nat → Nat) (a : Automaton) (s : Nat) : Prop where
  accepting : ∀ j < a.size, f j = f s → (state a j).accepting g = true →
    (state a s).accepting g = true
  deeds : (state a s).defaultReduce ≠ none →
    ∀ d, d ∈ (state a s).deeds g f ↔ d ∈ (state a (leader f s)).deeds g f

/-- States that do not exist do nothing, before and after. -/
theorem Placed.mirrors_outside {a m : Automaton} {f : Nat → Nat} (h : Placed g a f m) {i : Nat}
    (hi : a.size ≤ i) {s : State} (hs : s = default) : s.Mirrors g f (m.state (f i)) := by
  have hm : m.state (f i) = default := by
    rw [h.outside i hi, Automaton.state_eq_default (Nat.le_trans h.size hi)]
  rw [hm, hs]
  exact ⟨fun d => Iff.rfl, Iff.rfl⟩

/-- The merged automaton mirrors the leading one. -/
theorem Placed.mirrors_leading {a m : Automaton} {f : Nat → Nat} (h : Placed g a f m) (i : Nat) :
    ((leading f a).state i).Mirrors g f (m.state (f i)) := by
  rcases Nat.lt_or_ge i a.size with hi | hi
  · obtain ⟨hle, hplace, hfirst⟩ := leader_spec f i
    have hl := Nat.lt_of_le_of_lt hle hi
    refine ⟨fun d => ?_, ?_⟩
    · rw [deeds_leading hi, ← hplace]
      exact h.first _ hl hfirst d
    · rw [accepting_leading hi]
      exact h.accepting _ (h.inside i hi)
  · refine h.mirrors_outside hi (Automaton.state_eq_default ?_)
    rw [leading, Array.size_map, Array.size_range]
    exact hi

/-- The merged automaton mirrors a state where merging does not change what it
stands for. -/
theorem Placed.mirrors {a m : Automaton} {f : Nat → Nat} (h : Placed g a f m) {s : Nat}
    (hs : IsFaithful g f a s) : (a.state s).Mirrors g f (m.state (f s)) := by
  rcases Nat.lt_or_ge s a.size with hlt | hge
  · refine ⟨?_, ?_⟩
    · by_cases hd : (a.state s).defaultReduce = none
      · exact h.plain s hlt hd
      · obtain ⟨hle, hplace, hfirst⟩ := leader_spec f s
        intro d
        rw [← hplace, h.first _ (Nat.lt_of_le_of_lt hle hlt) hfirst d]
        exact (hs.deeds hd d).symm
    · rw [h.accepting _ (h.inside s hlt)]
      constructor
      · rintro ⟨j, hj, hf, hacc⟩
        exact hs.accepting j hj hf hacc
      · exact fun hacc => ⟨s, hlt, rfl, hacc⟩
  · exact h.mirrors_outside hge (Automaton.state_eq_default hge)

end Identical

theorem isFinished_collapse (g : Grammar) (full : Automaton) :
    ∀ i < (collapse g full).1.size, ((collapse g full).1.state i).IsFinished g := by
  intro i hi
  have hmap : ∃ (clusters : Array Collapse.Cluster) (f : Collapse.Cluster → State),
      (collapse g full).1 = clusters.map f ∧ ∀ c, (f c).IsFinished g :=
    ⟨_, _, rfl, fun c => State.isFinished_finish _⟩
  obtain ⟨clusters, f, heq, hf⟩ := hmap
  rw [heq] at hi ⊢
  rw [Array.size_map] at hi
  have hstate : Automaton.state (clusters.map f) i = f clusters[i] := by
    simp [Automaton.state, hi]
  rw [hstate]
  exact hf _

/-- What merging identical states does to a collapsed automaton. The merged one
accepts exactly what the automaton accepts in which each state does as the
first one in its place and accepts where any state in its place does. So it
accepts a word as before, from the state in the same place, if all states that
runs on the word meet stand for the same as before. -/
theorem mergeIdentical_accepts_iff (g : Grammar) (full : Automaton) :
    let collapsed := (collapse g full).1
    let place := Identical.place g (collapsed.size + 1) collapsed
    (∀ i < collapsed.size,
      ((mergeIdentical g collapsed).state (place i)).start = (collapsed.state i).start) ∧
    (∀ i word, (mergeIdentical g collapsed).Accepts g (place i) word ↔
      (Identical.leading place collapsed).Accepts g i word) ∧
    ∀ i word, (∀ s, collapsed.Meets i word s → Identical.IsFaithful g place collapsed s) →
      ((mergeIdentical g collapsed).Accepts g (place i) word ↔ collapsed.Accepts g i word) := by
  intro collapsed place
  have h : Identical.Placed g collapsed place (mergeIdentical g collapsed) :=
    Identical.placed_rounds _ collapsed (isFinished_collapse g full)
  refine ⟨h.start, fun i word => ?_, fun i word hfaithful => ?_⟩
  · exact Automaton.accepts_iff_of_mirrors fun s _ => h.mirrors_leading s
  · exact Automaton.accepts_iff_of_mirrors fun s hs => h.mirrors (hfaithful s hs)

/-- The grammar `T → a`, `T → a b`, `T → c b`. What comes behind `a` and behind
`c` is read by states that do the same, though one of them accepts. -/
def branches : Grammar where
  terms := ⟨#[{ name := "␄", kind := .terminal }, { name := "⚠", kind := .nonterminal },
    { name := "T", kind := .top }, { name := "a", kind := .terminal },
    { name := "b", kind := .terminal }, { name := "c", kind := .terminal }], [⟨2⟩]⟩
  numbering := default
  rules := [
    ⟨⟨[⟨3⟩], [.none, .none]⟩, 0, ⟨2⟩, .error⟩,
    ⟨⟨[⟨3⟩, ⟨4⟩], [.none, .none, .none]⟩, 1, ⟨2⟩, .error⟩,
    ⟨⟨[⟨5⟩, ⟨4⟩], [.none, .none, .none]⟩, 2, ⟨2⟩, .error⟩]

/-- A run on one terminal that can only be read, and behind which nothing is
listed for the end of the input. -/
theorem Automaton.eq_of_steps_of_one {a : Automaton} {p q : Nat} {t : Term}
    (hshift : ∀ q', .shift t q' ∈ (a.state p).actions → q' = q)
    (hreduce : ∀ r, .reduce t r ∉ (a.state p).actions) (heof : .eof ∉ (a.state q).terms)
    {c : Config} (h : Relation.ReflTransGen a.Step ⟨[p], [t]⟩ c) : c = ⟨[p], [t]⟩ ∨ c = ⟨[q, p], []⟩ := by
  rcases h.cases_head with heq | ⟨d, first, rest⟩
  · exact .inl heq.symm
  cases first with
  | shift listed =>
    obtain rfl := hshift _ listed
    rcases rest.cases_head with heq | ⟨e, second, _⟩
    · exact .inr heq.symm
    · cases second with
      | reduce listed _ => exact absurd (List.mem_map.mpr ⟨_, listed, rfl⟩) heof
  | reduce listed _ => exact absurd listed (hreduce _)

/-- What matters of the automata for that grammar. -/
theorem exists_automaton_branches :
    ∃ full, fullAutomaton branches (FirstTable.ofGrammar branches) [⟨2⟩] .error = .ok full ∧
      let collapsed := (collapse branches full).1
      let place := Identical.place branches (collapsed.size + 1) collapsed
      let merged := mergeIdentical branches collapsed
      ((∀ (i : Nat) (_ : i < full.size), full[i].terms.Nodup) ∧
        (∀ j < collapsed.size,
          ¬ place j = place 0 ∨ (collapsed.state j).accepting branches = false)) ∧
      ((collapsed.state 0).start = some ⟨2⟩ ∧ (collapsed.state 0).defaultReduce = none ∧
        (collapsed.state 0).actions = [.shift ⟨3⟩ 1, .shift ⟨5⟩ 2]) ∧
      ((collapsed.state 1).defaultReduce = none ∧
        (collapsed.state 1).actions = [.shift ⟨4⟩ 3] ∧
        (collapsed.state 1).accepting branches = true) ∧
      ((collapsed.state 2).actions = [.shift ⟨4⟩ 4] ∧
        (collapsed.state 2).accepting branches = false) ∧
      (place 0 = 0 ∧ (merged.state 0).start = some ⟨2⟩ ∧
        .shift ⟨5⟩ 1 ∈ (merged.state 0).actions ∧
        (merged.state 1).accepting branches = true ∧ ¬ .eof ∈ (merged.state 1).terms) := by
  have hcheck : (fullAutomaton branches (FirstTable.ofGrammar branches) [⟨2⟩]
      .error).toOption.any (fun full =>
        let collapsed := (collapse branches full).1
        let place := Identical.place branches (collapsed.size + 1) collapsed
        let merged := mergeIdentical branches collapsed
        (full.all (fun s => decide s.terms.Nodup) &&
          (List.range collapsed.size).all fun j =>
            place j != place 0 || (collapsed.state j).accepting branches == false) &&
        (((collapsed.state 0).start == some ⟨2⟩ && ((collapsed.state 0).defaultReduce == none &&
          (collapsed.state 0).actions == [.shift ⟨3⟩ 1, .shift ⟨5⟩ 2])) &&
        (((collapsed.state 1).defaultReduce == none &&
          ((collapsed.state 1).actions == [.shift ⟨4⟩ 3] &&
          (collapsed.state 1).accepting branches)) &&
        (((collapsed.state 2).actions == [.shift ⟨4⟩ 4] &&
          (collapsed.state 2).accepting branches == false) &&
        (place 0 == 0 && ((merged.state 0).start == some ⟨2⟩ &&
          ((merged.state 0).actions.contains (.shift ⟨5⟩ 1) &&
            ((merged.state 1).accepting branches &&
              !(merged.state 1).terms.contains .eof)))))))) = true := by
    cbv
  obtain ⟨full, h, hcheck⟩ := exists_ok_of_any hcheck
  exact ⟨full, h, by simpa using hcheck⟩

/-- Runs on `a` meet no state that stands for something else after merging. -/
theorem mergeIdentical_accepts_iff_branches :
    ∃ full, fullAutomaton branches (FirstTable.ofGrammar branches) [⟨2⟩] .error = .ok full ∧
      ((mergeIdentical branches (collapse branches full).1).Accepts branches 0 [⟨3⟩] ↔
        (collapse branches full).1.Accepts branches 0 [⟨3⟩]) := by
  obtain ⟨full, hfull, ⟨_, hplace⟩, ⟨_, hdefault, hactions⟩, ⟨hdefault', hactions', hacc⟩, _,
    hzero, _⟩ := exists_automaton_branches
  refine ⟨full, hfull, ?_⟩
  have h := (mergeIdentical_accepts_iff branches full).2.2 0 [⟨3⟩]
  simp only [hzero] at h
  apply h
  rintro s ⟨c, hsteps, hs⟩
  have hmet : s = 0 ∨ s = 1 := by
    have hsteps := Automaton.eq_of_steps_of_one (q := 1) (fun q hq => ?_) (fun r hr => ?_) ?_ hsteps
    · rcases hsteps with rfl | rfl
      · exact .inl (List.mem_singleton.mp hs)
      · simpa [or_comm] using hs
    · rw [hactions] at hq
      simpa using hq
    · rw [hactions] at hr
      simp at hr
    · rw [State.terms, hactions']
      decide
  rcases hmet with rfl | rfl
  · refine ⟨fun j hj hf hj' => ?_, fun hd => absurd hdefault hd⟩
    rcases hplace j hj with hne | hno
    · exact absurd hf hne
    · rw [hno] at hj'
      cases hj'
  · exact ⟨fun _ _ _ _ => hacc, fun hd => absurd hdefault' hd⟩

/-- The merged automaton accepts `c`, which the automaton did not accept before,
though its states never have a choice. -/
theorem mergeIdentical_accepts_more :
    ∃ full, fullAutomaton branches (FirstTable.ofGrammar branches) [⟨2⟩] .error = .ok full ∧
      (∀ (i : Nat) (_ : i < full.size), full[i].terms.Nodup) ∧
      ((collapse branches full).1.state 0).start = some ⟨2⟩ ∧
      ((mergeIdentical branches (collapse branches full).1).state 0).start = some ⟨2⟩ ∧
      (mergeIdentical branches (collapse branches full).1).Accepts branches 0 [⟨5⟩] ∧
      ¬ (collapse branches full).1.Accepts branches 0 [⟨5⟩] := by
  obtain ⟨full, hfull, ⟨hnodup, _⟩, ⟨hstart, _, hactions⟩, _, ⟨hactions', hacc⟩, _, hstart',
    hshift, hends⟩ := exists_automaton_branches
  refine ⟨full, hfull, hnodup, hstart, hstart',
    ⟨1, ⟨[0], .head (.shift hshift) .refl⟩, hends⟩, ?_⟩
  rintro ⟨s, ⟨stack, hsteps⟩, hends⟩
  have hsteps := Automaton.eq_of_steps_of_one (q := 2) (fun q hq => ?_) (fun r hr => ?_) ?_ hsteps
  · rcases hsteps with heq | heq
    · cases heq
    · cases heq
      rw [Automaton.EndsIn, hacc] at hends
      cases hends.1
  · rw [hactions] at hq
    simpa using hq
  · rw [hactions] at hr
    simp at hr
  · rw [State.terms, hactions']
    decide

end GrammarCompiler
