/-
GrammarCompiler.Proofs.Minimizing — what remains of an automaton has a first
state and no edge that leads out of it.

  §1 Classes — there is at most one class for each state.
  §2 Edges   — what joining edges that touch keeps.
  §3 States  — the states that remain.
-/
import GrammarCompiler.Proofs.Subsets
import GrammarCompiler.Tokenizer.Minimize

namespace GrammarCompiler

namespace Minimize

/-! ## §1 Classes -/

theorem size_add {κ : Type} [BEq κ] (s : Splitting κ) (old : Nat) (key : κ) :
    (s.add old key).ofState.size = s.ofState.size + 1 := by
  rw [Splitting.add]
  split <;> simp

theorem size_foldl {κ β : Type} {f : Splitting κ → β → Splitting κ}
    (hf : ∀ s x, (f s x).ofState.size = s.ofState.size + 1) (l : List β) (s : Splitting κ) :
    (l.foldl f s).ofState.size = s.ofState.size + l.length := by
  induction l generalizing s with
  | nil => rfl
  | cons x l ih =>
    rw [List.foldl_cons, ih, hf, List.length_cons]
    omega

theorem size_split_le {κ : Type} [BEq κ] (c : Classes) (keys : Array κ) :
    (c.split keys).ofState.size ≤ c.ofState.size := by
  rw [Classes.split, ← Array.foldl_toList]
  refine Nat.le_trans (Nat.le_of_eq (size_foldl ?_ _ _)) ?_
  · exact fun s x => size_add s x.1 x.2
  · simp

theorem size_rounds_le (a : Dfa) (fuel : Nat) (c : Classes) :
    (rounds a fuel c).ofState.size ≤ c.ofState.size := by
  induction fuel generalizing c with
  | zero => exact Nat.le_refl _
  | succ fuel ih =>
    have hrefine : (refine a c).ofState.size ≤ c.ofState.size := size_split_le c _
    rw [rounds]
    split
    · exact hrefine
    · exact Nat.le_trans (ih _) hrefine

theorem size_classes_le (a : Dfa) : (classes a).size ≤ a.size := by
  have hsplit := size_split_le ⟨Array.replicate a.size 0, 1⟩ (a.states.map DfaState.accepting)
  simp only [Array.size_replicate] at hsplit
  exact Nat.le_trans (size_rounds_le a _ _) hsplit

/-- The first state of a class is a state. -/
theorem representative_lt {a : Dfa} {i : Nat} (hi : i < a.size) :
    representative (classes a) i < a.size := by
  rw [representative]
  cases hfind : (classes a).findIdx? (· == (classes a)[i]?.getD 0) with
  | none => exact hi
  | some j =>
    obtain ⟨hj, _⟩ := Array.findIdx?_eq_some_iff_getElem.mp hfind
    exact Nat.lt_of_lt_of_le hj (size_classes_le a)

/-! ## §2 Edges -/

/-- Joining edges makes no empty ones, and leads nowhere else. -/
theorem consEdge_inside {size : Nat} {e : UnitEdge} {edges : List UnitEdge}
    (he : e.lo < e.hi ∧ e.target < size)
    (hedges : ∀ e ∈ edges, e.lo < e.hi ∧ e.target < size) :
    ∀ e' ∈ consEdge e edges, e'.lo < e'.hi ∧ e'.target < size := by
  cases edges with
  | nil => simpa [consEdge] using he
  | cons next rest =>
    obtain ⟨hnext, hrest⟩ := List.forall_mem_cons.mp hedges
    rw [consEdge]
    split
    next htouch =>
      simp only [Bool.and_eq_true, decide_eq_true_eq] at htouch
      exact List.forall_mem_cons.mpr ⟨⟨by simp only; omega, he.2⟩, hrest⟩
    next => exact List.forall_mem_cons.mpr ⟨he, hedges⟩

theorem moveTargets_inside {size : Nat} {place : Nat → Nat} {s : DfaState}
    (hfull : ∀ e ∈ s.edges, e.lo < e.hi) (hplace : ∀ e ∈ s.edges, place e.target < size) :
    ∀ e ∈ (moveTargets place s).edges, e.lo < e.hi ∧ e.target < size := by
  simp only [moveTargets]
  generalize s.edges = edges at hfull hplace
  induction edges with
  | nil => simp
  | cons e edges ih =>
    obtain ⟨he, hfull⟩ := List.forall_mem_cons.mp hfull
    obtain ⟨hp, hplace⟩ := List.forall_mem_cons.mp hplace
    exact consEdge_inside ⟨he, hp⟩ (ih hfull hplace)

end Minimize

/-! ## §3 States -/

namespace Dfa

variable (a : Dfa)

/-- The ways out of the states, by their edges. -/
def edgeWays (f : Nat → Nat) (i : Nat) : List (Nat × Nat) :=
  (a.state i).edges.map fun e => (e.lo, f e.target)

variable {a} in
theorem hasWay_edgeWays {f : Nat → Nat} {i j : Nat} :
    Walk.HasWay (a.edgeWays f) i j ↔ ∃ e ∈ (a.state i).edges, f e.target = j := by
  simp [Walk.HasWay, edgeWays]

theorem sum_edgeWays (f : Nat → Nat) :
    ∑ i ∈ Finset.range a.size, (a.edgeWays f i).length ≤ a.edgeCount := by
  have hcount : a.edgeCount = ∑ i ∈ Finset.range a.size, (a.state i).edges.length :=
    foldl_add_eq_sum (fun s : DfaState => s.edges.length) ⟨[], []⟩ a.states
  simp [hcount, edgeWays]

/-- The state that remains of the class of a state. -/
def leader (i : Nat) : Nat :=
  ((Array.range a.size).map (Minimize.representative (Minimize.classes a)))[i]?.getD i

/-- The states that remain. -/
def leaders : List Nat :=
  (walk a.size a.edgeCount (a.edgeWays a.leader) (a.leader 0)).map Walk.Stop.node

theorem minimize_eq : a.minimize = ⟨(a.leaders.map fun i =>
    Minimize.moveTargets (fun i => a.leaders.idxOf (a.leader i)) (a.state i)).toArray⟩ :=
  rfl

variable {a}

theorem leader_lt {i : Nat} (hi : i < a.size) : a.leader i < a.size := by
  simp [leader, hi, Minimize.representative_lt hi]

/-- What an edge of a state that remains leads to remains, too. -/
theorem leader_mem_leaders (h : a.IsSound) {i : Nat} (hi : i ∈ a.leaders) {e : UnitEdge}
    (he : e ∈ (a.state i).edges) : a.leader e.target ∈ a.leaders :=
  Walk.mem_walk_of_hasWay (a.sum_edgeWays a.leader) hi (hasWay_edgeWays.mpr ⟨e, he, rfl⟩)
    (leader_lt (h.inside i e he))

theorem isSound_minimize (h : a.IsSound) : a.minimize.IsSound := by
  have hsize : a.minimize.size = a.leaders.length := by simp [minimize_eq, size]
  have hstate (i : Nat) (hi : i < a.leaders.length) : a.minimize.state i =
      Minimize.moveTargets (fun i => a.leaders.idxOf (a.leader i)) (a.state a.leaders[i]) := by
    simp [minimize_eq, state, hi]
  have hedge (i : Nat) (e : UnitEdge) (he : e ∈ (a.minimize.state i).edges) :
      e.lo < e.hi ∧ e.target < a.minimize.size := by
    by_cases hi : i < a.leaders.length
    · rw [hstate i hi] at he
      refine hsize ▸ Minimize.moveTargets_inside (h.full _) (fun e he => ?_) e he
      exact List.idxOf_lt_length_of_mem (leader_mem_leaders h (List.getElem_mem hi) he)
    · rw [state_of_size_le (by omega)] at he
      cases he
  refine ⟨?_, fun i e he => (hedge i e he).1, fun i e he => (hedge i e he).2⟩
  obtain ⟨stops, hwalk⟩ : ∃ stops, walk a.size a.edgeCount (a.edgeWays a.leader) (a.leader 0) =
      ⟨a.leader 0, []⟩ :: stops := Walk.walk_eq_cons _ (leader_lt h.nonempty)
  rw [hsize, leaders, hwalk]
  simp

end Dfa

end GrammarCompiler
