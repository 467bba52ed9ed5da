/-
GrammarCompiler.Proofs.Lists — facts about lists, arrays and actions that have
nothing to do with grammars.
-/
import Mathlib

namespace GrammarCompiler

/-- What stands in one of two lists that go together has a partner in the other. -/
theorem exists_of_mem_forall₂ {α β : Type} {R : α → β → Prop} {as : List α} {bs : List β}
    (h : List.Forall₂ R as bs) {a : α} (ha : a ∈ as) : ∃ b ∈ bs, R a b := by
  induction h with
  | nil => cases ha
  | cons hab _ ih =>
    rcases List.mem_cons.mp ha with rfl | ha
    · exact ⟨_, List.mem_cons_self, hab⟩
    · obtain ⟨b, hb, hR⟩ := ih ha
      exact ⟨b, List.mem_cons_of_mem _ hb, hR⟩

/-- Where everything in a list has a partner, there is a list of partners. -/
theorem exists_forall₂ {α β : Type} {R : α → β → Prop} {as : List α} (h : ∀ a ∈ as, ∃ b, R a b) :
    ∃ bs, List.Forall₂ R as bs := by
  induction as with
  | nil => exact ⟨[], .nil⟩
  | cons a as ih =>
    obtain ⟨⟨b, hb⟩, has⟩ := List.forall_mem_cons.mp h
    obtain ⟨bs, hbs⟩ := ih has
    exact ⟨b :: bs, .cons hb hbs⟩

theorem length_le_length_flatMap {α β : Type} {f : α → List β} {as : List α}
    (h : ∀ a ∈ as, f a ≠ []) : as.length ≤ (as.flatMap f).length := by
  induction as with
  | nil => exact Nat.le_refl _
  | cons a as ih =>
    obtain ⟨ha, has⟩ := List.forall_mem_cons.mp h
    have := List.length_pos_iff.mpr ha
    have := ih has
    rw [List.flatMap_cons, List.length_append, List.length_cons]
    omega

theorem intercalate_cons {α : Type} (sep a : List α) (as : List (List α)) :
    sep.intercalate (a :: as) = a ++ as.flatMap (sep ++ ·) := by
  induction as generalizing a with
  | nil => simp
  | cons a' as ih =>
    rw [List.intercalate_cons_cons, ih, List.flatMap_cons, List.append_assoc, List.append_assoc]

theorem length_le_length_intercalate {α : Type} (sep : List α) {as : List (List α)} {a : List α}
    (h : a ∈ as) : a.length ≤ (sep.intercalate as).length := by
  cases as with
  | nil => cases h
  | cons first as =>
    rw [intercalate_cons, List.length_append]
    rcases List.mem_cons.mp h with rfl | h
    · exact Nat.le_add_right _ _
    · have hsub := (List.sublist_flatten_of_mem (List.mem_map_of_mem (f := (sep ++ ·)) h)).length_le
      rw [List.flatMap_def]
      rw [List.length_append] at hsub
      omega

theorem intercalate_nil {α : Type} (as : List (List α)) : [].intercalate as = as.flatten := by
  cases as with
  | nil => rfl
  | cons a as => simp [intercalate_cons, List.flatMap_id']

/-- A count over all elements of an array, as a sum over its places. -/
theorem foldl_add_eq_sum {α : Type} (f : α → Nat) (d : α) (xs : Array α) :
    xs.foldl (fun count x => count + f x) 0 =
      ∑ i ∈ Finset.range xs.size, f (xs[i]?.getD d) := by
  obtain ⟨l⟩ := xs
  have hfold (n : Nat) : l.foldl (fun count x => count + f x) n =
      n + ∑ i ∈ Finset.range l.length, f (l[i]?.getD d) := by
    induction l generalizing n with
    | nil => simp
    | cons x l ih =>
      rw [List.foldl_cons, ih, List.length_cons, Finset.sum_range_succ']
      simp
      omega
  simpa using hfold 0

/-- Where something is put into an array, and always the same, it is in the
end. -/
theorem getElem?_foldl_set {α : Type} {l : List (Nat × α)} {xs : Array α} {i : Nat} {x : α}
    (hi : i < xs.size) (hl : ∀ p ∈ l, p.1 = i → p.2 = x) (h : xs[i]? = some x ∨ ∃ p ∈ l, p.1 = i) :
    (l.foldl (fun xs p => xs.setIfInBounds p.1 p.2) xs)[i]? = some x := by
  induction l generalizing xs with
  | nil => simpa using h
  | cons p l ih =>
    obtain ⟨hp, hl⟩ := List.forall_mem_cons.mp hl
    refine ih (by simpa using hi) hl ?_
    by_cases heq : p.1 = i
    · exact .inl (by simp [heq, hi, hp heq])
    · refine h.imp (fun hold => ?_) fun ⟨q, hq, hkey⟩ => ?_
      · rw [Array.getElem?_setIfInBounds_ne heq, hold]
      · exact ⟨q, (List.mem_cons.mp hq).resolve_left fun hqp => heq (hqp ▸ hkey), hkey⟩

/-- What is in an array in the end was there or was put there. -/
theorem mem_of_getElem?_foldl_set {α : Type} {l : List (Nat × α)} {xs : Array α} {i : Nat} {x : α}
    (h : (l.foldl (fun xs p => xs.setIfInBounds p.1 p.2) xs)[i]? = some x) :
    xs[i]? = some x ∨ (i, x) ∈ l := by
  induction l generalizing xs with
  | nil => exact .inl h
  | cons p l ih =>
    rcases ih h with hold | hmem
    · rw [Array.getElem?_setIfInBounds] at hold
      split at hold
      next heq =>
        split at hold
        next => exact .inr (List.mem_cons.mpr (.inl (by rw [← heq, ← Option.some.inj hold])))
        next => cases hold
      next => exact .inl hold
    · exact .inr (List.mem_cons_of_mem p hmem)

theorem forall_mem_some {α : Type} {P : α → Prop} {x : α} (h : P x) : ∀ y ∈ some x, P y :=
  fun _ hy => Option.some.inj hy ▸ h

/-- Where a result passes a test, there is one. -/
theorem exists_ok_of_any {α ε : Type} {x : Except ε α} {p : α → Bool}
    (h : x.toOption.any p = true) : ∃ a, x = .ok a ∧ p a = true := by
  cases x with
  | error e => cases h
  | ok a => exact ⟨a, rfl, h⟩

/-- Where a result with notes passes a test, there is one. -/
theorem exists_ok_fst_of_any {α ε ν : Type} {x : Except ε α × ν} {p : α → Bool}
    (h : x.1.toOption.any p = true) : ∃ a notes, x = (.ok a, notes) ∧ p a = true := by
  obtain ⟨a, hok, hp⟩ := exists_ok_of_any h
  exact ⟨a, x.2, Prod.ext hok rfl, hp⟩

/-- Of two steps that succeed in a row, each succeeds. -/
theorem exists_ok_of_bind {α β ε : Type} {x : Except ε α} {f : α → Except ε β} {b : β}
    (h : x >>= f = .ok b) : ∃ a, x = .ok a ∧ f a = .ok b := by
  cases x with
  | error e => cases h
  | ok a => exact ⟨a, rfl, h⟩

/-- A step that succeeds for all of a list has succeeded for each of them. -/
theorem forall₂_of_mapM {α β ε : Type} {f : α → Except ε β} {as : List α} {bs : List β}
    (h : as.mapM f = .ok bs) : List.Forall₂ (fun a b => f a = .ok b) as bs := by
  induction as generalizing bs with
  | nil =>
    cases h
    exact .nil
  | cons a as ih =>
    rw [List.mapM_cons] at h
    obtain ⟨b, hb, h⟩ := exists_ok_of_bind h
    obtain ⟨bs', hbs, h⟩ := exists_ok_of_bind h
    cases h
    exact .cons hb (ih hbs)

/-- An action that does not fail consists of two that do not fail. -/
theorem exists_ok_of_stateT_bind {σ ε α β : Type} {m : StateT σ (Except ε) α}
    {f : α → StateT σ (Except ε) β} {s : σ} {r : β × σ} (h : (m >>= f) s = .ok r) :
    ∃ x s₁, m s = .ok (x, s₁) ∧ f x s₁ = .ok r := by
  have h : (m s >>= fun y => f y.1 y.2) = .ok r := h
  rcases hm : m s with e | y
  · rw [hm] at h
    cases h
  · rw [hm] at h
    exact ⟨y.1, y.2, rfl, h⟩

end GrammarCompiler
