/-
GrammarCompiler.Proofs.Paths — ways through an automaton with choices.

  §1 Paths    — putting paths together and taking them apart at a code unit.
  §2 Closures — a closure holds the relevant states that empty edges lead to,
                and no path to a relevant state misses it.
-/
import GrammarCompiler.Proofs.Lists
import GrammarCompiler.Proofs.Walking
import GrammarCompiler.Tokenizer.Nfa

namespace GrammarCompiler

namespace Nfa

variable {a : Nfa} {s t m : Nat} {word rest : List Nat}

/-! ## §1 Paths -/

theorem Path.append (h : a.Path s word m) (h' : a.Path m rest t) : a.Path s (word ++ rest) t := by
  induction h with
  | done => exact h'
  | empty hm _ ih => exact .empty hm (ih h')
  | edge he hlo hhi _ ih => exact .edge he hlo hhi (ih h')

/-- A path that reads a code unit takes an edge, after empty ones. -/
theorem Path.exists_edge {u : Nat} (h : a.Path s (u :: word) t) :
    ∃ p, a.Path s [] p ∧ ∃ e ∈ (a.state p).edges, e.lo ≤ u ∧ u < e.hi ∧
      a.Path e.target word t := by
  generalize hread : u :: word = read at h
  induction h with
  | done => cases hread
  | empty hm _ ih =>
    obtain ⟨p, hp, he⟩ := ih hread
    exact ⟨p, .empty hm hp, he⟩
  | @edge s t e u' word' he hlo hhi rest _ =>
    obtain ⟨rfl, rfl⟩ := List.cons.inj hread
    exact ⟨s, .done s, e, he, hlo, hhi, rest⟩

/-- Reading nothing means following empty edges. -/
theorem path_nil_iff :
    a.Path s [] t ↔ Relation.ReflTransGen (fun i j => j ∈ (a.state i).empty) s t := by
  constructor
  · intro h
    generalize hread : [] = read at h
    induction h with
    | done => exact .refl
    | empty hm _ ih => exact .head hm (ih hread)
    | edge => cases hread
  · intro h
    induction h using Relation.ReflTransGen.head_induction_on with
    | refl => exact .done t
    | head hm _ ih => exact .empty hm ih

/-! ## §2 Closures -/

theorem state_of_size_le {i : Nat} (h : a.size ≤ i) : a.state i = {} := by
  rw [state, Array.getElem?_eq_none h]
  rfl

theorem isRelevant_iff {i : Nat} :
    a.isRelevant i = true ↔ (a.state i).edges ≠ [] ∨ (a.state i).accepting ≠ [] := by
  simp [isRelevant]

theorem isRelevant_of_mem_edges {i : Nat} {e : UnitEdge} (he : e ∈ (a.state i).edges) :
    a.isRelevant i = true :=
  isRelevant_iff.mpr (.inl (List.ne_nil_of_mem he))

theorem isRelevant_of_mem_accepting {i : Nat} {token : Term} (h : token ∈ (a.state i).accepting) :
    a.isRelevant i = true :=
  isRelevant_iff.mpr (.inr (List.ne_nil_of_mem h))

theorem lt_size_of_isRelevant {i : Nat} (h : a.isRelevant i = true) : i < a.size := by
  by_contra hi
  rw [isRelevant_iff, state_of_size_le (by omega)] at h
  simp at h

/-- The ways out of the states, by their empty edges. -/
def emptyWays (a : Nfa) (i : Nat) : List (Nat × Nat) :=
  (a.state i).empty.map fun t => (0, t)

theorem hasWay_emptyWays : Walk.HasWay a.emptyWays = fun i j => j ∈ (a.state i).empty := by
  funext i j
  simp [Walk.HasWay, emptyWays]

theorem sum_emptyWays : ∑ i ∈ Finset.range a.size, (a.emptyWays i).length ≤ a.emptyCount := by
  have hcount : a.emptyCount = ∑ i ∈ Finset.range a.size, (a.state i).empty.length :=
    foldl_add_eq_sum (fun s : NfaState => s.empty.length) {} a.states
  simp [hcount, emptyWays]

/-- A closure holds the relevant states that empty edges lead to. -/
theorem mem_closure_iff : t ∈ a.closure s ↔ a.isRelevant t = true ∧ a.Path s [] t := by
  have hnext (i j : Nat) (h : Walk.HasWay a.emptyWays i j) : i < a.size := by
    by_contra hi
    rw [hasWay_emptyWays, state_of_size_le (by omega)] at h
    simp at h
  have hreached : t ∈ (walk a.size a.emptyCount a.emptyWays s).map Walk.Stop.node ↔
      t < a.size ∧ a.Path s [] t := by
    rw [path_nil_iff, ← hasWay_emptyWays]
    exact Walk.mem_walk_iff sum_emptyWays hnext
  have hmem : t ∈ a.closure s ↔
      t ∈ (walk a.size a.emptyCount a.emptyWays s).map Walk.Stop.node ∧
        a.isRelevant t = true := by
    rw [closure, List.mem_mergeSort, List.mem_filter]
    rfl
  rw [hmem, hreached]
  constructor
  · rintro ⟨⟨_, hpath⟩, hrelevant⟩
    exact ⟨hrelevant, hpath⟩
  · rintro ⟨hrelevant, hpath⟩
    exact ⟨⟨lt_size_of_isRelevant hrelevant, hpath⟩, hrelevant⟩

/-- The states of a closure are in ascending order, without repetition. -/
theorem pairwise_closure (a : Nfa) (s : Nat) : (a.closure s).Pairwise (· < ·) := by
  have hsorted : (a.closure s).Pairwise (· ≤ ·) := by
    rw [closure]
    simpa using @List.pairwise_mergeSort Nat (fun i j => decide (i ≤ j))
      (by simp; omega) (by simp; omega) _
  have hnodup : (a.closure s).Nodup :=
    (List.mergeSort_perm _ _).nodup_iff.mpr
      ((Walk.nodup_walk sum_emptyWays).filter _)
  exact hsorted.imp₂ (fun _ _ hle hne => Nat.lt_of_le_of_ne hle hne) hnodup

/-- Every path to a relevant state goes through the closure of its start. -/
theorem Path.exists_mem_closure (h : a.Path s word t) (ht : a.isRelevant t = true) :
    ∃ m ∈ a.closure s, a.Path m word t := by
  cases word with
  | nil => exact ⟨t, mem_closure_iff.mpr ⟨ht, h⟩, .done t⟩
  | cons u word =>
    obtain ⟨p, hp, e, he, hlo, hhi, hrest⟩ := h.exists_edge
    exact ⟨p, mem_closure_iff.mpr ⟨isRelevant_of_mem_edges he, hp⟩, .edge he hlo hhi hrest⟩

end Nfa

end GrammarCompiler
