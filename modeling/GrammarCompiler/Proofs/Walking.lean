/-
GrammarCompiler.Proofs.Walking — a walk visits what can be reached.

Every visit takes a stop off the stack, and a node puts its ways out on the
stack only once. So as much fuel as there are ways, and one more, is enough to
visit every node that can be reached.

  §1 Visits — what is found from the nodes of a stack.
  §2 Walks  — the nodes of a walk.
-/
import GrammarCompiler.Tokenizer.Walk
import Mathlib

namespace GrammarCompiler

namespace Walk

variable {next : Nat → List (Nat × Nat)}

/-! ## §1 Visits -/

/-- There is a way from one node to the other. -/
def HasWay (next : Nat → List (Nat × Nat)) (i j : Nat) : Prop :=
  j ∈ (next i).map Prod.snd

/-- The nodes that were not seen so far. -/
def unseen (seen : Array Bool) : Finset Nat :=
  (Finset.range seen.size).filter fun i => seen[i]? = some false

theorem mem_unseen {seen : Array Bool} {i : Nat} : i ∈ unseen seen ↔ seen[i]? = some false := by
  simp only [unseen, Finset.mem_filter, Finset.mem_range, and_iff_right_iff_imp]
  intro h
  exact (Array.getElem?_eq_some_iff.mp h).1

theorem mem_unseen_iff_getD {seen : Array Bool} {i : Nat} :
    i ∈ unseen seen ↔ seen[i]?.getD true = false := by
  rw [mem_unseen]
  cases seen[i]? <;> simp

theorem unseen_replicate (size : Nat) :
    unseen (Array.replicate size false) = Finset.range size := by
  ext i
  simp [mem_unseen, Array.getElem?_replicate]

theorem unseen_set (seen : Array Bool) (i : Nat) :
    unseen (seen.setIfInBounds i true) = (unseen seen).erase i := by
  ext j
  rw [Finset.mem_erase, mem_unseen, mem_unseen, Array.getElem?_setIfInBounds]
  by_cases h : i = j
  · subst h
    by_cases hi : i < seen.size <;> simp [hi]
  · simp [h, Ne.symm h]

/-- What a visit finds: new nodes that can be reached from the stack, each one
once, and with every node all new ones that it has ways to. -/
structure Finds (next : Nat → List (Nat × Nat)) (fresh : Finset Nat) (stack found : List Nat) :
    Prop where
  nodup : found.Nodup
  isFresh : ∀ i ∈ found, i ∈ fresh
  reached : ∀ i ∈ found, ∃ s ∈ stack, Relation.ReflTransGen (HasWay next) s i
  starts : ∀ s ∈ stack, s ∈ fresh → s ∈ found
  closed : ∀ i ∈ found, ∀ j, HasWay next i j → j ∈ fresh → j ∈ found

namespace Finds

variable {fresh : Finset Nat} {stack found : List Nat} {i : Nat}

theorem skip (h : Finds next fresh stack found) (hi : i ∉ fresh) :
    Finds next fresh (i :: stack) found where
  nodup := h.nodup
  isFresh := h.isFresh
  reached j hj := by
    obtain ⟨s, hs, hreach⟩ := h.reached j hj
    exact ⟨s, List.mem_cons_of_mem i hs, hreach⟩
  starts s hs hfresh := by
    rcases List.mem_cons.mp hs with rfl | hs
    · exact absurd hfresh hi
    · exact h.starts s hs hfresh
  closed := h.closed

theorem visit (h : Finds next (fresh.erase i) ((next i).map Prod.snd ++ stack) found)
    (hi : i ∈ fresh) : Finds next fresh (i :: stack) (i :: found) where
  nodup := List.nodup_cons.mpr ⟨fun hmem => by simpa using h.isFresh i hmem, h.nodup⟩
  isFresh j hj := by
    rcases List.mem_cons.mp hj with rfl | hj
    · exact hi
    · exact Finset.mem_of_mem_erase (h.isFresh j hj)
  reached j hj := by
    rcases List.mem_cons.mp hj with rfl | hj
    · exact ⟨j, List.mem_cons_self, .refl⟩
    · obtain ⟨s, hs, hreach⟩ := h.reached j hj
      rcases List.mem_append.mp hs with hway | hs
      · exact ⟨i, List.mem_cons_self, .head hway hreach⟩
      · exact ⟨s, List.mem_cons_of_mem i hs, hreach⟩
  starts s hs hfresh := by
    by_cases heq : s = i
    · simp [heq]
    · have hs : s ∈ stack := by simpa [heq] using hs
      exact List.mem_cons_of_mem i
        (h.starts s (List.mem_append_right _ hs) (Finset.mem_erase.mpr ⟨heq, hfresh⟩))
  closed j hj k hk hfresh := by
    by_cases heq : k = i
    · simp [heq]
    · have hk' : k ∈ fresh.erase i := Finset.mem_erase.mpr ⟨heq, hfresh⟩
      refine List.mem_cons_of_mem i ?_
      rcases List.mem_cons.mp hj with rfl | hj
      · exact h.starts k (List.mem_append_left _ hk) hk'
      · exact h.closed j hj k hk hk'

end Finds

/-- Fuel for the stack and for the ways out of all new nodes is enough. -/
theorem finds_visit {fuel : Nat} {seen : Array Bool} {stack : List Stop}
    (hfuel : stack.length + ∑ i ∈ unseen seen, (next i).length ≤ fuel) :
    Finds next (unseen seen) (stack.map Stop.node)
      ((visit next fuel seen stack).map Stop.node) := by
  fun_induction visit next fuel seen stack with
  | case1 seen stack =>
    obtain rfl : stack = [] := List.length_eq_zero_iff.mp (by omega)
    exact ⟨.nil, by simp, by simp, by simp, by simp⟩
  | case2 => exact ⟨.nil, by simp, by simp, by simp, by simp⟩
  | case3 fuel seen stop stack hseen ih =>
    refine (ih ?_).skip ?_
    · simp only [List.length_cons] at hfuel
      omega
    · simp [mem_unseen_iff_getD, hseen]
  | case4 fuel seen stop stack hseen ways ih =>
    have hnew : stop.node ∈ unseen seen := by simpa [mem_unseen_iff_getD] using hseen
    have hsum := Finset.add_sum_erase (unseen seen) (fun i => (next i).length) hnew
    have hways : ways.map Stop.node = (next stop.node).map Prod.snd := by simp [ways]
    have hfound := ih (by
      simp only [List.length_cons, List.length_append, unseen_set, ways, List.length_map]
        at hfuel hsum ⊢
      omega)
    rw [unseen_set, List.map_append, hways] at hfound
    exact hfound.visit hnew

/-- A visit without a limit on the number of stops: what a stack leads to. -/
inductive Visits (next : Nat → List (Nat × Nat)) : Array Bool → List Stop → List Stop → Prop where
  | done (seen : Array Bool) : Visits next seen [] []
  | skip {seen : Array Bool} {stop : Stop} {stack found : List Stop}
      (known : seen[stop.node]?.getD true = true) (rest : Visits next seen stack found) :
      Visits next seen (stop :: stack) found
  | visit {seen : Array Bool} {stop : Stop} {stack found : List Stop}
      (isNew : seen[stop.node]?.getD true = false)
      (rest : Visits next (seen.setIfInBounds stop.node true)
        ((next stop.node).map (fun (label, target) => ⟨target, label :: stop.labels⟩) ++ stack)
        found) : Visits next seen (stop :: stack) (stop :: found)

/-- The limit on the number of stops is never met. -/
theorem visits_visit {fuel : Nat} {seen : Array Bool} {stack : List Stop}
    (hfuel : stack.length + ∑ i ∈ unseen seen, (next i).length ≤ fuel) :
    Visits next seen stack (visit next fuel seen stack) := by
  fun_induction visit next fuel seen stack with
  | case1 seen stack =>
    obtain rfl : stack = [] := List.length_eq_zero_iff.mp (by omega)
    exact .done seen
  | case2 => exact .done _
  | case3 fuel seen stop stack hseen ih =>
    apply Visits.skip hseen
    apply ih
    simp only [List.length_cons] at hfuel
    omega
  | case4 fuel seen stop stack hseen ways ih =>
    have hisNew : seen[stop.node]?.getD true = false := by simpa using hseen
    have hsum := Finset.add_sum_erase (unseen seen) (fun i => (next i).length)
      (mem_unseen_iff_getD.mpr hisNew)
    apply Visits.visit hisNew
    apply ih
    simp only [List.length_cons, List.length_append, unseen_set, ways, List.length_map]
      at hfuel hsum ⊢
    omega

/-! ## §2 Walks -/

/-- The first stop is the start. -/
theorem walk_eq_cons {size start : Nat} (ways : Nat) (hstart : start < size) :
    ∃ stops, walk size ways next start = ⟨start, []⟩ :: stops := by
  have hnew : (Array.replicate size false)[start]?.getD true = false := by simp [hstart]
  rw [walk, visit, hnew]
  exact ⟨_, rfl⟩

section

variable {size ways start : Nat} (hways : ∑ i ∈ Finset.range size, (next i).length ≤ ways)
include hways

theorem finds_walk :
    Finds next (Finset.range size) [start] ((walk size ways next start).map Stop.node) := by
  have hfuel : ([⟨start, []⟩] : List Stop).length +
      ∑ i ∈ unseen (Array.replicate size false), (next i).length ≤ ways + 1 := by
    rw [unseen_replicate, List.length_singleton]
    omega
  have hfound := finds_visit hfuel
  rwa [unseen_replicate] at hfound

theorem visits_walk :
    Visits next (Array.replicate size false) [⟨start, []⟩] (walk size ways next start) := by
  apply visits_visit
  rw [unseen_replicate, List.length_singleton]
  omega

theorem nodup_walk : ((walk size ways next start).map Stop.node).Nodup :=
  (finds_walk hways).nodup

theorem lt_size_of_mem_walk {i : Nat} (hi : i ∈ (walk size ways next start).map Stop.node) :
    i < size :=
  Finset.mem_range.mp ((finds_walk hways).isFresh i hi)

/-- A walk finds what its nodes have ways to. -/
theorem mem_walk_of_hasWay {i j : Nat} (hi : i ∈ (walk size ways next start).map Stop.node)
    (hway : HasWay next i j) (hj : j < size) :
    j ∈ (walk size ways next start).map Stop.node :=
  (finds_walk hways).closed i hi j hway (Finset.mem_range.mpr hj)

/-- A walk finds exactly what can be reached. -/
theorem mem_walk_iff (hnext : ∀ i j, HasWay next i j → i < size) {i : Nat} :
    i ∈ (walk size ways next start).map Stop.node ↔
      i < size ∧ Relation.ReflTransGen (HasWay next) start i := by
  have hfound : Finds next (Finset.range size) [start] _ := finds_walk hways
  constructor
  · intro hi
    obtain ⟨s, hs, hreach⟩ := hfound.reached i hi
    exact ⟨lt_size_of_mem_walk hways hi, List.mem_singleton.mp hs ▸ hreach⟩
  · rintro ⟨hi, hreach⟩
    induction hreach with
    | refl => exact hfound.starts start List.mem_cons_self (Finset.mem_range.mpr hi)
    | tail _ hway ih => exact mem_walk_of_hasWay hways (ih (hnext _ _ hway)) hway hi

end

end Walk

end GrammarCompiler
