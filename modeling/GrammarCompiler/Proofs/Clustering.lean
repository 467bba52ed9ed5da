/-
GrammarCompiler.Proofs.Clustering — how states end up in clusters.

At first states are in one cluster that have the same core. Then states that do
not fit are moved, always to a later cluster that was split off from the same
one, so cores stay the same within a cluster (`Arranged`). With each state that
moves, the numbers of the clusters of all states become greater on the whole,
and there are no more clusters than states. So there comes a pass in which no
state moves, and then all states of a cluster fit each other (`fits_clustering`).

  §1 Cores        — what states of a cluster have in common.
  §2 Arrangements — each state is in one cluster.
  §3 Moves        — states move to later clusters.
  §4 Passes       — how often states can move.
-/
import GrammarCompiler.Automaton.Collapse
import GrammarCompiler.Proofs.Reading
import Mathlib

namespace GrammarCompiler

namespace Collapse

open Automaton (state)

/-! ## §1 Cores -/

/-- States with the same core are no entries, and agree on tokens, on what is
skipped and on their dotted rules. -/
theorem sameCore_iff {s s' : State} :
    sameCore s s' = true ↔ s.start = none ∧ s'.start = none ∧ s.group = s'.group ∧
      s.skip = s'.skip ∧ s.items.map Item.toDotted = s'.items.map Item.toDotted := by
  simp only [sameCore, Bool.and_eq_true, beq_iff_eq, Option.isNone_iff_eq_none, Item.sameCores_iff,
    and_assoc]

theorem sameCore_symm {s s' : State} (h : sameCore s s' = true) : sameCore s' s = true := by
  obtain ⟨hs, hs', hgroup, hskip, hitems⟩ := sameCore_iff.mp h
  exact sameCore_iff.mpr ⟨hs', hs, hgroup.symm, hskip.symm, hitems.symm⟩

theorem sameCore_trans {s s' s'' : State} (h : sameCore s s' = true) (h' : sameCore s' s'' = true) :
    sameCore s s'' = true := by
  obtain ⟨hs, _, hgroup, hskip, hitems⟩ := sameCore_iff.mp h
  obtain ⟨_, hs', hgroup', hskip', hitems'⟩ := sameCore_iff.mp h'
  exact sameCore_iff.mpr
    ⟨hs, hs', hgroup.trans hgroup', hskip.trans hskip', hitems.trans hitems'⟩

/-- Two numbers are of one state, or of two states with the same core. -/
def Alike (states : Automaton) (s s' : Nat) : Prop :=
  s = s' ∨ sameCore (state states s) (state states s') = true

theorem Alike.symm {states : Automaton} {s s' : Nat} (h : Alike states s s') :
    Alike states s' s :=
  h.imp Eq.symm sameCore_symm

theorem Alike.trans {states : Automaton} {s s' s'' : Nat} (h : Alike states s s')
    (h' : Alike states s' s'') : Alike states s s'' := by
  rcases h with rfl | h
  · exact h'
  · rcases h' with rfl | h'
    · exact .inr h
    · exact .inr (sameCore_trans h h')

/-! ## §2 Arrangements -/

namespace Clustering

/-- The states of a cluster. -/
def members (c : Clustering) (p : Nat) : List Nat :=
  (c.clusters[p]?.getD default).members

/-- The cluster that a cluster was once split off from. -/
def origin (c : Clustering) (p : Nat) : Nat :=
  (c.clusters[p]?.getD default).origin

theorem members_modify (c : Clustering) {i : Nat} (hi : i < c.clusters.size)
    (f : List Nat → List Nat) (m : Array Nat) :
    (Clustering.mk (c.clusters.modify i fun k => { k with members := f k.members }) m).members =
      Function.update c.members i (f (c.members i)) := by
  funext p
  by_cases hp : p = i
  · subst hp
    simp only [members, Array.getElem?_modify, if_pos, Function.update_self]
    simp [hi]
  · simp [members, Array.getElem?_modify, hp, Ne.symm hp]

theorem origin_modify (c : Clustering) (i : Nat) (f : List Nat → List Nat) (m : Array Nat) :
    (Clustering.mk (c.clusters.modify i fun k => { k with members := f k.members }) m).origin =
      c.origin := by
  funext p
  by_cases hp : i = p
  · subst hp
    simp only [origin, Array.getElem?_modify, if_pos]
    cases c.clusters[i]? <;> rfl
  · simp [origin, Array.getElem?_modify, hp]

/-- Giving a cluster the states that it has. -/
theorem modify_members (c : Clustering) {i : Nat} (hi : i < c.clusters.size) :
    ({ c with clusters := c.clusters.modify i fun k => { k with members := c.members i } } :
      Clustering) = c := by
  have hclusters : (c.clusters.modify i fun k => { k with members := c.members i }) =
      c.clusters := by
    refine Array.ext Array.size_modify fun p hp hp' => ?_
    rw [Array.getElem_modify]
    split
    · rename_i heq
      subst heq
      simp [members, hi]
    · rfl
  rw [hclusters]

theorem members_size (c : Clustering) : c.members c.clusters.size = [] := by
  simp only [members, Array.getElem?_eq_none (Nat.le_refl _)]
  rfl

theorem members_push (c : Clustering) (o s : Nat) (m : Array Nat) :
    (Clustering.mk (c.clusters.push ⟨o, [s]⟩) m).members =
      Function.update c.members c.clusters.size (c.members c.clusters.size ++ [s]) := by
  funext p
  by_cases hp : p = c.clusters.size
  · subst hp
    rw [Function.update_self, members_size]
    simp [members]
  · simp [members, Array.getElem?_push, hp]

theorem origin_push (c : Clustering) (o s : Nat) (m : Array Nat) :
    (Clustering.mk (c.clusters.push ⟨o, [s]⟩) m).origin =
      Function.update c.origin c.clusters.size o := by
  funext p
  by_cases hp : p = c.clusters.size
  · subst hp
    simp [origin]
  · simp [origin, Array.getElem?_push, hp]

end Clustering

/-- Each state that has a place is in the cluster with that place, except for one
in hand, when the clusters have these members. Clusters that were split off from the
same one have states of the same core. -/
structure Arranged (states : Automaton) (c : Clustering) (inHand : Option Nat)
    (members : Nat → List Nat) : Prop where
  place : ∀ p s, s ∈ members p ↔ inHand ≠ some s ∧ c.mapping[s]? = some p
  nodup : ∀ p, (members p).Nodup
  taken : ∀ p, members p ≠ [] ↔ p < c.clusters.size
  cores : ∀ p p' s s', s ∈ members p → s' ∈ members p' → c.origin p = c.origin p' →
    Alike states s s'

variable {g : Grammar} {states : Automaton} {c c' : Clustering} {members : Nat → List Nat}

theorem arranged_nil (states : Automaton) : Arranged states ⟨#[], #[]⟩ none fun _ => [] where
  place p s := by simp
  nodup p := List.nodup_nil
  taken p := by simp
  cores p p' s s' hs := (nomatch hs)

namespace Arranged

/-- Other members can be written down for the clusters. -/
theorem modify {i : Nat} (h : Arranged states c none members) (f : List Nat → List Nat) :
    Arranged states
      { c with clusters := c.clusters.modify i fun k => { k with members := f k.members } } none
      members where
  place := h.place
  nodup := h.nodup
  taken p := by
    rw [h.taken p]
    simp
  cores p p' s s' hs hs' heq := by
    rw [c.origin_modify i f] at heq
    exact h.cores p p' s s' hs hs' heq

/-- A state that has no place yet can be taken in hand. -/
theorem take_next (h : Arranged states c none members) :
    Arranged states c (some c.mapping.size) members where
  place p s := by
    rw [h.place p s]
    refine and_congr_left fun hs => ?_
    have := (Array.getElem?_eq_some_iff.mp hs).1
    simp only [ne_eq, reduceCtorEq, not_false_eq_true, Option.some.injEq, true_iff]
    omega
  nodup := h.nodup
  taken := h.taken
  cores := h.cores

/-- A state that is not the first of its cluster can be taken in hand. -/
theorem take {i s : Nat} {before rest : List Nat}
    (h : Arranged states c none (Function.update members i (before ++ s :: rest)))
    (hbefore : before ≠ []) :
    Arranged states c (some s) (Function.update members i (before ++ rest)) := by
  let whole := Function.update members i (before ++ s :: rest)
  have hnodup : (before ++ s :: rest).Nodup := by simpa using h.nodup i
  have hmem : ∀ p s', s' ∈ Function.update members i (before ++ rest) p ↔
      s' ≠ s ∧ s' ∈ whole p := by
    intro p s'
    by_cases hp : p = i
    · subst hp
      have hs : s ∉ before ++ rest := (List.nodup_middle.mp hnodup).notMem
      simp only [whole, Function.update_self, List.mem_append, List.mem_cons] at hs ⊢
      constructor
      · intro hs'
        refine ⟨?_, hs'.imp_right .inr⟩
        rintro rfl
        exact hs hs'
      · tauto
    · have hs : s ∈ whole i := by simp [whole]
      have hne : s ∉ whole p := fun hs' => hp <|
        Option.some.inj (((h.place p s).mp hs').2.symm.trans ((h.place i s).mp hs).2)
      simp only [whole, ne_eq, hp, not_false_eq_true, Function.update_of_ne] at hne ⊢
      refine ⟨fun hs' => ⟨?_, hs'⟩, And.right⟩
      rintro rfl
      exact hne hs'
  refine ⟨fun p s' => ?_, fun p => ?_, fun p => ?_, fun p p' s₁ s₂ h₁ h₂ => ?_⟩
  · rw [hmem, h.place p s']
    simp [eq_comm]
  · by_cases hp : p = i
    · subst hp
      rw [Function.update_self]
      exact hnodup.sublist ((List.sublist_cons_self s rest).append_left before)
    · simpa [hp] using h.nodup p
  · rw [← h.taken p]
    by_cases hp : p = i
    · subst hp
      simp [hbefore]
    · simp [hp]
  · exact h.cores p p' s₁ s₂ ((hmem p s₁).mp h₁).2 ((hmem p' s₂).mp h₂).2

/-- The state in hand can be put into a cluster, or into a new one, if it is like
all states of clusters with the same origin. -/
theorem put {s p : Nat} (h : Arranged states c (some s) members)
    (hmapping : ∀ s', c'.mapping[s']? = if s' = s then some p else c.mapping[s']?)
    (hsize : ∀ q, q < c'.clusters.size ↔ q < c.clusters.size ∨ q = p)
    (horigin : ∀ q < c.clusters.size, c'.origin q = c.origin q)
    (halike : ∀ q s', s' ∈ members q → c'.origin q = c'.origin p → Alike states s s') :
    Arranged states c' none (Function.update members p (members p ++ [s])) := by
  have hmem : ∀ q s', s' ∈ Function.update members p (members p ++ [s]) q ↔
      s' ∈ members q ∨ s' = s ∧ q = p := by
    intro q s'
    by_cases hq : q = p
    · subst hq
      simp
    · simp [hq]
  have hs : ∀ q, s ∉ members q := fun q hs => ((h.place q s).mp hs).1 rfl
  have hlt : ∀ {q s'}, s' ∈ members q → q < c.clusters.size := fun hs' =>
    (h.taken _).mp (List.ne_nil_of_mem hs')
  refine ⟨fun q s' => ?_, fun q => ?_, fun q => ?_, fun q q' s₁ s₂ h₁ h₂ heq => ?_⟩
  · rw [hmem, h.place, hmapping]
    by_cases hs' : s' = s
    · simp [hs', eq_comm]
    · simp [hs', Ne.symm hs']
  · by_cases hq : q = p
    · subst hq
      rw [Function.update_self]
      exact List.nodup_append.mpr ⟨h.nodup q, List.nodup_singleton s, by
        rintro a ha b hb rfl
        exact hs q (List.mem_singleton.mp hb ▸ ha)⟩
    · simpa [hq] using h.nodup q
  · rw [hsize]
    by_cases hq : q = p
    · subst hq
      simp
    · simpa [hq] using h.taken q
  · rcases (hmem q s₁).mp h₁ with hold | ⟨rfl, rfl⟩
    · rcases (hmem q' s₂).mp h₂ with hold' | ⟨rfl, rfl⟩
      · refine h.cores q q' s₁ s₂ hold hold' ?_
        rw [← horigin q (hlt hold), ← horigin q' (hlt hold'), heq]
      · exact (halike q s₁ hold heq).symm
    · rcases (hmem q' s₂).mp h₂ with hold' | ⟨rfl, rfl⟩
      · exact halike q' s₂ hold' heq.symm
      · exact .inl rfl

/-- The state in hand can be put into a cluster. -/
theorem join {s i : Nat} (h : Arranged states c (some s) members) (hi : i < c.clusters.size)
    {m : Array Nat} (hm : ∀ s', m[s']? = if s' = s then some i else c.mapping[s']?)
    (halike : ∀ q s', s' ∈ members q → c.origin q = c.origin i → Alike states s s') :
    Arranged states ⟨c.clusters.modify i fun k => { k with members := k.members ++ [s] }, m⟩ none
      (Function.update members i (members i ++ [s])) := by
  have horigin := c.origin_modify i (· ++ [s]) m
  refine h.put hm (fun q => ?_) (fun q _ => by rw [horigin]) fun q s' hs' heq => ?_
  · rw [show (c.clusters.modify i fun k => { k with members := k.members ++ [s] }).size =
      c.clusters.size from Array.size_modify]
    omega
  · rw [horigin] at heq
    exact halike q s' hs' heq

/-- The state in hand can become a cluster of its own. -/
theorem found {s o : Nat} (h : Arranged states c (some s) members) {m : Array Nat}
    (hm : ∀ s', m[s']? = if s' = s then some c.clusters.size else c.mapping[s']?)
    (halike : ∀ q s', s' ∈ members q → c.origin q = o → Alike states s s') :
    Arranged states ⟨c.clusters.push ⟨o, [s]⟩, m⟩ none
      (Function.update members c.clusters.size (members c.clusters.size ++ [s])) := by
  have horigin := c.origin_push o s m
  refine h.put hm (fun q => ?_) (fun q hq => ?_) fun q s' hs' heq => ?_
  · rw [show (c.clusters.push ⟨o, [s]⟩).size = c.clusters.size + 1 from Array.size_push _]
    omega
  · rw [horigin, Function.update_of_ne (Nat.ne_of_lt hq)]
  · have hq : q < c.clusters.size := (h.taken q).mp (List.ne_nil_of_mem hs')
    rw [horigin, Function.update_self, Function.update_of_ne (Nat.ne_of_lt hq)] at heq
    exact halike q s' hs' heq

/-- A cluster that has states is there. -/
theorem lt_size (h : Arranged states c none c.members) {p s : Nat} (hs : s ∈ c.members p) :
    p < c.clusters.size :=
  (h.taken p).mp (List.ne_nil_of_mem hs)

end Arranged

/-- Clusters of cores: none has been split. -/
structure ByCore (states : Automaton) (c : Clustering) : Prop where
  arranged : Arranged states c none c.members
  own : ∀ p < c.clusters.size, c.origin p = p

/-- The next state is put into a cluster of its core, or becomes a cluster of its
own. -/
theorem byCore_assign (h : ByCore states c) (s : State)
    (hs : states[c.mapping.size]? = some s) :
    ByCore states (assign states c s) ∧
      (assign states c s).mapping.size = c.mapping.size + 1 := by
  have hstate : state states c.mapping.size = s := by
    rw [state, hs]
    rfl
  unfold assign
  dsimp only
  split
  · rename_i i hfound
    obtain ⟨hi, hcore, _⟩ := Array.findIdx?_eq_some_iff_getElem.mp hfound
    -- The first state of the cluster has the core, so all of them have.
    obtain ⟨m, hm, hfirst⟩ : ∃ m ∈ c.members i, Alike states c.mapping.size m := by
      split at hcore
      · rename_i first hhead
        obtain ⟨m, hm, hm'⟩ := Option.bind_eq_some_iff.mp hhead
        refine ⟨m, ?_, .inr ?_⟩
        · simpa [Clustering.members, hi] using List.mem_of_mem_head? hm
        · rwa [hstate, show state states m = first by rw [state, hm']; rfl]
      · cases hcore
    have hmembers := c.members_modify hi (· ++ [c.mapping.size]) (c.mapping.push i)
    have horigin := c.origin_modify i (· ++ [c.mapping.size]) (c.mapping.push i)
    refine ⟨⟨?_, fun p hp => ?_⟩, Array.size_push _⟩
    · rw [hmembers]
      refine h.arranged.take_next.join hi (fun s' => Array.getElem?_push) fun q s' hs' heq => ?_
      rw [h.own q (h.arranged.lt_size hs'), h.own i hi] at heq
      exact hfirst.trans (h.arranged.cores i q m s' hm hs' (by rw [heq]))
    · rw [horigin]
      exact h.own p (by simpa using hp)
  · have hmembers := c.members_push c.clusters.size c.mapping.size (c.mapping.push c.clusters.size)
    have horigin := c.origin_push c.clusters.size c.mapping.size (c.mapping.push c.clusters.size)
    refine ⟨⟨?_, fun p hp => ?_⟩, Array.size_push _⟩
    · rw [hmembers]
      refine h.arranged.take_next.found (fun s' => Array.getElem?_push) fun q s' hs' heq => ?_
      have hq := h.arranged.lt_size hs'
      rw [h.own q hq] at heq
      omega
    · rw [horigin]
      by_cases hp' : p = c.clusters.size
      · rw [hp', Function.update_self]
      · rw [Function.update_of_ne hp']
        refine h.own p ?_
        have : p < c.clusters.size + 1 := by simpa using hp
        omega

/-- At first there is a cluster for each core. -/
theorem byCore_foldl (states : Automaton) :
    ByCore states (states.foldl (assign states) ⟨#[], #[]⟩) ∧
      (states.foldl (assign states) ⟨#[], #[]⟩).mapping.size = states.size := by
  refine Array.foldl_induction
    (fun n c => ByCore states c ∧ c.mapping.size = n) ?_ ?_
  · exact ⟨⟨arranged_nil states, fun p hp => by simp at hp⟩, rfl⟩
  · rintro i c ⟨h, hsize⟩
    obtain ⟨hnext, hsize'⟩ := byCore_assign h states[i] (by simp [hsize])
    exact ⟨hnext, by omega⟩

/-! ## §3 Moves -/

/-- The numbers of the clusters of all states, added up. -/
def Clustering.rank (c : Clustering) : Nat :=
  c.mapping.toList.sum

theorem sum_lt_sum_set {l : List Nat} {s i p : Nat} (hs : l[s]? = some i) (hlt : i < p) :
    l.sum < (l.set s p).sum := by
  induction l generalizing s with
  | nil => simp at hs
  | cons x l ih =>
    cases s with
    | zero =>
      obtain rfl : x = i := by simpa using hs
      simpa using hlt
    | succ s => simpa using ih (by simpa using hs)

/-- Giving a state a later place. -/
theorem rank_lt_of_set {s i p : Nat} (hs : c.mapping[s]? = some i) (hlt : i < p)
    (clusters : Array Cluster) :
    c.rank < Clustering.rank ⟨clusters, c.mapping.setIfInBounds s p⟩ := by
  unfold Clustering.rank
  rw [Array.toList_setIfInBounds]
  exact sum_lt_sum_set (by simpa using hs) hlt

/-- What moving states does, when the clusters have these members afterwards. -/
structure Moves (states : Automaton) (c c' : Clustering) (members : Nat → List Nat) : Prop where
  arranged : Arranged states c' none members
  size_le : c.clusters.size ≤ c'.clusters.size
  mapping_size : c'.mapping.size = c.mapping.size
  rank_le : c.rank ≤ c'.rank

/-- The state in hand is moved to a cluster behind its own. -/
theorem moves_moveFrom {i s o j count : Nat} {stay : List Nat}
    (h : Arranged states c (some s) (Function.update c.members i stay))
    (hs : c.mapping[s]? = some i) (hij : i < j) (hcount : j + count = c.clusters.size)
    (halike : ∀ q s', s' ∈ Function.update c.members i stay q → c.origin q = o →
      Alike states s s') :
    Moves states c (moveFrom g states o s count j c)
        (Function.update (moveFrom g states o s count j c).members i stay) ∧
      c.rank < (moveFrom g states o s count j c).rank := by
  have hplace : ∀ p s', (c.mapping.setIfInBounds s p)[s']? =
      if s' = s then some p else c.mapping[s']? := by
    intro p s'
    have hlt := (Array.getElem?_eq_some_iff.mp hs).1
    rw [Array.getElem?_setIfInBounds]
    by_cases hs' : s' = s
    · simp [hs', hlt]
    · simp [hs', Ne.symm hs']
  induction count generalizing j with
  | zero =>
    obtain rfl : j = c.clusters.size := hcount
    unfold moveFrom
    have hrank := rank_lt_of_set hs hij (c.clusters.push ⟨o, [s]⟩)
    refine ⟨⟨?_, ?_, Array.size_setIfInBounds, hrank.le⟩, hrank⟩
    · have hfound := h.found (hplace _) halike
      rw [c.members_push, Function.update_comm (Nat.ne_of_gt hij)]
      rwa [Function.update_of_ne (Nat.ne_of_gt hij)] at hfound
    · exact Nat.le_of_lt (by simp)
  | succ count ih =>
    have hj : j < c.clusters.size := by omega
    unfold moveFrom
    simp only [Array.getElem?_eq_getElem hj]
    split
    · rename_i hfits
      have ho : c.origin j = o := by
        have := (Bool.and_eq_true _ _).mp hfits
        simpa [Clustering.origin, hj] using this.1
      have hrank := rank_lt_of_set hs hij
        (c.clusters.modify j fun k => { k with members := k.members ++ [s] })
      refine ⟨⟨?_, ?_, Array.size_setIfInBounds, hrank.le⟩, hrank⟩
      · have hjoin := h.join hj (hplace _) fun q s' hs' heq => halike q s' hs' (heq.trans ho)
        rw [c.members_modify hj (· ++ [s]), Function.update_comm (Nat.ne_of_gt hij)]
        rwa [Function.update_of_ne (Nat.ne_of_gt hij)] at hjoin
      · exact Nat.le_of_eq Array.size_modify.symm
    · exact ih (Nat.lt_succ_of_lt hij) (by omega)

/-- A state that is not the first of cluster `i` is moved to a later one. -/
theorem moves_moveOut {i s : Nat} {before rest : List Nat} (hi : i < c.clusters.size)
    (h : Arranged states c none (Function.update c.members i (before ++ s :: rest)))
    (hbefore : before ≠ []) :
    Moves states c (moveOut g states i s c)
        (Function.update (moveOut g states i s c).members i (before ++ rest)) ∧
      c.rank < (moveOut g states i s c).rank := by
  have hs : s ∈ Function.update c.members i (before ++ s :: rest) i := by simp
  have htake := h.take hbefore
  refine moves_moveFrom htake ((h.place i s).mp hs).2 (Nat.lt_succ_self i) (by omega) ?_
  intro q s' hs' ho
  refine h.cores i q s s' hs ?_ ho.symm
  exact (h.place q s').mpr ⟨nofun, ((htake.place q s').mp hs').2⟩

theorem Moves.refl (h : Arranged states c none members) : Moves states c c members :=
  ⟨h, Nat.le_refl _, rfl, Nat.le_refl _⟩

theorem Moves.trans {members' : Nat → List Nat} {c'' : Clustering} (h : Moves states c c' members)
    (h' : Moves states c' c'' members') : Moves states c c'' members' where
  arranged := h'.arranged
  size_le := Nat.le_trans h.size_le h'.size_le
  mapping_size := h'.mapping_size.trans h.mapping_size
  rank_le := Nat.le_trans h.rank_le h'.rank_le

/-- States that do not fit `first` are moved. If none is, they all fit it. -/
theorem moves_keepFitting {i : Nat} (first : Nat) (before : List Nat) {rest : List Nat}
    (hi : i < c.clusters.size)
    (h : Arranged states c none (Function.update c.members i (before ++ rest)))
    (hbefore : before ≠ []) :
    ∃ stay c', keepFitting g states i first rest c = (stay, c') ∧
      Moves states c c' (Function.update c'.members i (before ++ stay)) ∧
      ((stay = rest ∧ c' = c ∧ ∀ s ∈ rest, compatible g states c.mapping first s = true) ∨
        (stay.length < rest.length ∧ c.rank < c'.rank)) := by
  induction rest generalizing c before with
  | nil => exact ⟨[], c, rfl, .refl h, .inl ⟨rfl, rfl, nofun⟩⟩
  | cons s rest ih =>
    unfold keepFitting
    by_cases hfits : compatible g states c.mapping first s = true
    · rw [if_pos hfits]
      have hbefore' : before ++ [s] ≠ [] := by simp
      obtain ⟨stay, c', heq, hmoves, hcases⟩ := ih (before ++ [s]) hi
        (by simpa using h) hbefore'
      rw [heq]
      refine ⟨s :: stay, c', rfl, by simpa using hmoves, ?_⟩
      rcases hcases with ⟨rfl, rfl, hall⟩ | ⟨hlength, hrank⟩
      · exact .inl ⟨rfl, rfl, List.forall_mem_cons.mpr ⟨hfits, hall⟩⟩
      · exact .inr ⟨Nat.succ_lt_succ hlength, hrank⟩
    · rw [if_neg hfits]
      obtain ⟨hout, hrank⟩ := moves_moveOut (g := g) hi h hbefore
      obtain ⟨stay, c', heq, hmoves, hcases⟩ :=
        ih before (Nat.lt_of_lt_of_le hi hout.size_le) hout.arranged hbefore
      refine ⟨stay, c', heq, hout.trans hmoves, .inr ⟨?_, Nat.lt_of_lt_of_le hrank hmoves.rank_le⟩⟩
      rcases hcases with ⟨rfl, _⟩ | ⟨hlength, _⟩
      · exact Nat.lt_succ_self _
      · exact Nat.lt_succ_of_lt hlength

/-- States are moved out of a cluster until all that stay fit each other. If none
is moved, they did before. -/
theorem moves_keepAll {i fuel : Nat} (before members : List Nat) (hi : i < c.clusters.size)
    (h : Arranged states c none (Function.update c.members i (before ++ members)))
    (hfuel : members.length ≤ fuel) :
    ∃ stay c', keepAll g states i fuel members c = (stay, c') ∧
      Moves states c c' (Function.update c'.members i (before ++ stay)) ∧
      ((stay = members ∧ c' = c ∧
          members.Pairwise fun s s' => compatible g states c.mapping s s' = true) ∨
        (stay.length < members.length ∧ c.rank < c'.rank)) := by
  induction fuel generalizing c before members with
  | zero =>
    obtain rfl := List.eq_nil_of_length_eq_zero (Nat.le_zero.mp hfuel)
    exact ⟨[], c, rfl, .refl h, .inl ⟨rfl, rfl, .nil⟩⟩
  | succ fuel ih =>
    cases members with
    | nil => exact ⟨[], c, rfl, .refl h, .inl ⟨rfl, rfl, .nil⟩⟩
    | cons first rest =>
      obtain ⟨stay, c₁, heq, hmoves, hcases⟩ := moves_keepFitting (g := g) first
        (before ++ [first]) hi (by simpa using h) (by simp)
      have hlength : stay.length ≤ rest.length := by
        rcases hcases with ⟨rfl, _⟩ | ⟨hlength, _⟩
        · exact Nat.le_refl _
        · exact hlength.le
      obtain ⟨stay', c₂, heq', hmoves', hcases'⟩ := ih (before ++ [first]) stay
        (Nat.lt_of_lt_of_le hi hmoves.size_le) hmoves.arranged
        (Nat.le_trans hlength (Nat.le_of_succ_le_succ hfuel))
      refine ⟨first :: stay', c₂, ?_, by simpa using hmoves.trans hmoves', ?_⟩
      · unfold keepAll
        simp only [heq, heq']
      · rcases hcases with ⟨rfl, rfl, hall⟩ | ⟨hlt, hrank⟩
        · rcases hcases' with ⟨rfl, rfl, hpairs⟩ | ⟨hlt, hrank⟩
          · exact .inl ⟨rfl, rfl, .cons hall hpairs⟩
          · exact .inr ⟨Nat.succ_lt_succ hlt, hrank⟩
        · refine .inr ⟨Nat.succ_lt_succ (Nat.lt_of_le_of_lt ?_ hlt),
            Nat.lt_of_lt_of_le hrank hmoves'.rank_le⟩
          rcases hcases' with ⟨rfl, _⟩ | ⟨hlt', _⟩
          · exact Nat.le_refl _
          · exact hlt'.le

/-- Sorting out a cluster. If no state is moved, all its states fit each other. -/
theorem moves_split {i : Nat} (moved : Bool) (hi : i < c.clusters.size)
    (h : Arranged states c none c.members) :
    ∃ c' moved', split g states (c, moved) i = (c', moved') ∧ Moves states c c' c'.members ∧
      ((c' = c ∧ moved' = moved ∧
          (c.members i).Pairwise fun s s' => compatible g states c.mapping s s' = true) ∨
        (moved' = true ∧ c.rank < c'.rank)) := by
  obtain ⟨stay, c', heq, hmoves, hcases⟩ := moves_keepAll (g := g) []
    (c.members i) hi (by simpa using h) (Nat.le_refl _)
  have hi' : i < c'.clusters.size := Nat.lt_of_lt_of_le hi hmoves.size_le
  have hmembers := c'.members_modify hi' (fun _ => stay) c'.mapping
  unfold Collapse.split
  simp only [show (c.clusters[i]?.getD default).members = c.members i from rfl, heq]
  refine ⟨_, _, rfl, ⟨?_, ?_, hmoves.mapping_size, hmoves.rank_le⟩, ?_⟩
  · rw [hmembers]
    exact hmoves.arranged.modify fun _ => stay
  · exact Nat.le_trans hmoves.size_le (Nat.le_of_eq Array.size_modify.symm)
  · rcases hcases with ⟨rfl, rfl, hpairs⟩ | ⟨hlength, hrank⟩
    · exact .inl ⟨c'.modify_members hi', by simp, hpairs⟩
    · exact .inr ⟨by simp [Nat.ne_of_lt hlength], hrank⟩

/-- A pass over clusters. If no state is moved, all states in one cluster fit each
other. -/
theorem moves_foldl_split (order : List Nat) (moved : Bool)
    (hi : ∀ i ∈ order, i < c.clusters.size)
    (h : Arranged states c none c.members) :
    ∃ c' moved', order.foldl (split g states) (c, moved) = (c', moved') ∧
      Moves states c c' c'.members ∧
      ((c' = c ∧ moved' = moved ∧ ∀ i ∈ order,
          (c.members i).Pairwise fun s s' => compatible g states c.mapping s s' = true) ∨
        (moved' = true ∧ c.rank < c'.rank)) := by
  induction order generalizing c moved with
  | nil => exact ⟨c, moved, rfl, .refl h, .inl ⟨rfl, rfl, nofun⟩⟩
  | cons i order ih =>
    obtain ⟨c₁, moved₁, heq, hmoves, hcases⟩ := moves_split (g := g) moved
      (hi i (.head _)) h
    obtain ⟨c₂, moved₂, heq', hmoves', hcases'⟩ := ih moved₁
      (fun j hj => Nat.lt_of_lt_of_le (hi j (.tail _ hj)) hmoves.size_le) hmoves.arranged
    rw [List.foldl_cons, heq]
    refine ⟨c₂, moved₂, heq', hmoves.trans hmoves', ?_⟩
    rcases hcases with ⟨rfl, rfl, hpairs⟩ | ⟨rfl, hrank⟩
    · rcases hcases' with ⟨rfl, rfl, hall⟩ | ⟨rfl, hrank⟩
      · exact .inl ⟨rfl, rfl, List.forall_mem_cons.mpr ⟨hpairs, hall⟩⟩
      · exact .inr ⟨rfl, hrank⟩
    · refine .inr ⟨?_, Nat.lt_of_lt_of_le hrank hmoves'.rank_le⟩
      rcases hcases' with ⟨_, rfl, _⟩ | ⟨rfl, _⟩ <;> rfl

/-! ## §4 Passes -/

/-- There are no more clusters than states. -/
theorem Arranged.size_le (h : Arranged states c none members) :
    c.clusters.size ≤ c.mapping.size := by
  have hplace : ∀ p < c.clusters.size, ∃ s < c.mapping.size, c.mapping[s]?.getD 0 = p := by
    intro p hp
    obtain ⟨s, hs⟩ := List.exists_mem_of_ne_nil _ ((h.taken p).mpr hp)
    have hs := ((h.place p s).mp hs).2
    exact ⟨s, (Array.getElem?_eq_some_iff.mp hs).1, by rw [hs]; rfl⟩
  have hcard := Finset.card_le_card_of_surjOn (s := Finset.range c.mapping.size)
    (t := Finset.range c.clusters.size) (fun s => c.mapping[s]?.getD 0) (by
      intro p hp
      obtain ⟨s, hs, heq⟩ := hplace p (by simpa using hp)
      exact ⟨s, by simpa using hs, heq⟩)
  simpa using hcard

/-- There is a limit to the places that states can have. -/
theorem Arranged.rank_le (h : Arranged states c none members) :
    c.rank ≤ c.mapping.size * c.mapping.size := by
  have hle := List.sum_le_card_nsmul c.mapping.toList c.mapping.size fun p hp => by
    obtain ⟨s, hs⟩ := List.mem_iff_getElem?.mp hp
    have hmem := (h.place p s).mpr ⟨nofun, by simpa using hs⟩
    exact Nat.le_trans ((h.taken p).mp (List.ne_nil_of_mem hmem)).le h.size_le
  simpa [Clustering.rank] using hle

/-- States that ended up in one cluster have the same core, and fit each other. -/
structure Settled (g : Grammar) (states : Automaton) (c : Clustering) : Prop where
  arranged : Arranged states c none c.members
  size : c.mapping.size = states.size
  fits : ∀ p, (c.members p).Pairwise fun s s' => compatible g states c.mapping s s' = true

/-- Passes come to an end with all states fitting, since each but the last one moves
states to later places. -/
theorem settled_passes {fuel : Nat} (h : Arranged states c none c.members)
    (hsize : c.mapping.size = states.size) (hfuel : states.size * states.size < fuel + c.rank) :
    Settled g states (passes g states fuel c).1 := by
  induction fuel generalizing c with
  | zero =>
    have := h.rank_le
    rw [hsize] at this
    omega
  | succ fuel ih =>
    obtain ⟨c', moved, heq, hmoves, hcases⟩ := moves_foldl_split (g := g)
      (List.range c.clusters.size) false (fun i hi => List.mem_range.mp hi) h
    unfold passes
    simp only [heq]
    rcases hcases with ⟨rfl, rfl, hfits⟩ | ⟨rfl, hrank⟩
    · rw [if_neg Bool.false_ne_true]
      refine ⟨h, hsize, fun p => ?_⟩
      by_cases hp : p < c'.clusters.size
      · exact hfits p (List.mem_range.mpr hp)
      · simp only [Classical.not_not.mp (mt (h.taken p).mp hp)]
        exact .nil
    · exact ih hmoves.arranged (hmoves.mapping_size.trans hsize) (by omega)

/-- The clusters that states end up in. -/
def clustering (g : Grammar) (states : Automaton) : Clustering :=
  (passes g states (states.size * states.size + 1) (states.foldl (assign states) ⟨#[], #[]⟩)).1

theorem settled_clustering (g : Grammar) (states : Automaton) :
    Settled g states (clustering g states) := by
  obtain ⟨hcores, hsize⟩ := byCore_foldl states
  exact settled_passes hcores.arranged hsize (by omega)

end Collapse

end GrammarCompiler
