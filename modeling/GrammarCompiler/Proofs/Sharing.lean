/-
GrammarCompiler.Proofs.Sharing — addresses of lists that share places.

A list is stored at the first place where it stands already, or else behind all
numbers. Numbers behind others can make a list stand earlier than where it was put:
when [2, 1] and then [1, 1] are stored, the second one is put at 2 and stands at 1
from then on. So the first address of a list can be larger than the later ones, but
it stays right, and the later ones agree.

  §1 Places — the first place where a list stands.
  §2 Steps  — storing one list.
  §3 Runs   — storing lists one after another.
-/
import GrammarCompiler.Proofs.Decoding
import Mathlib.Order.Bounds.Basic

namespace GrammarCompiler

namespace Words

variable {w w' : Words} {values : List Nat} {address place : Nat}

/-! ## §1 Places -/

theorem find?_eq_none_iff {data : List Nat} :
    find? values data = none ↔ ∀ place, ¬ values <+: data.drop place := by
  induction data with
  | nil => simp [find?]
  | cons word data ih =>
    rw [find?]
    split
    next hfirst =>
      simp only [reduceCtorEq, false_iff, not_forall, not_not]
      exact ⟨0, List.isPrefixOf_iff_prefix.mp hfirst⟩
    next hfirst =>
      rw [Option.map_eq_none_iff, ih]
      constructor
      · rintro hlater (_ | place)
        · exact fun h => hfirst (List.isPrefixOf_iff_prefix.mpr h)
        · exact hlater place
      · exact fun h place => h (place + 1)

theorem le_of_find? {data : List Nat} (h : find? values data = some address)
    (hplace : values <+: data.drop place) : address ≤ place := by
  induction data generalizing address place with
  | nil =>
    rw [find?] at h
    split at h <;> cases h
    exact Nat.zero_le _
  | cons word data ih =>
    rw [find?] at h
    split at h
    next =>
      cases h
      exact Nat.zero_le _
    next hfirst =>
      obtain ⟨later, hlater, rfl⟩ := Option.map_eq_some_iff.mp h
      cases place with
      | zero => exact absurd (List.isPrefixOf_iff_prefix.mpr hplace) hfirst
      | succ place => exact Nat.succ_le_succ (ih hlater hplace)

/-- A list is found at the first place where it stands. -/
theorem isLeast_of_find? (h : find? values w.data = some address) :
    IsLeast {place | w.Holds values place} address :=
  ⟨prefix_drop_of_find? h, fun _ hplace => le_of_find? h hplace⟩

theorem isInfix_iff_exists_holds : values <:+: w.data ↔ ∃ place, w.Holds values place := by
  constructor
  · rintro ⟨before, after, heq⟩
    refine ⟨before.length, after, ?_⟩
    rw [← heq, List.append_assoc, List.drop_left]
  · rintro ⟨place, hheld⟩
    exact hheld.isInfix.trans (List.drop_suffix _ _).isInfix

/-- A list that is not empty stands within the numbers. -/
theorem Holds.le_length (h : w.Holds values place) (hne : values ≠ []) :
    place + values.length ≤ w.data.length := by
  have hpos := List.length_pos_iff.mpr hne
  have hle := h.length_le
  rw [List.length_drop] at hle
  omega

/-- What stands within the first numbers stood there before others were added. -/
theorem Holds.of_prefix (h : w'.Holds values place) (hle : w.data <+: w'.data)
    (hwithin : place + values.length ≤ w.data.length) : w.Holds values place := by
  obtain ⟨more, heq⟩ := hle
  have hprefix : w.data.drop place <+: w'.data.drop place := by
    rw [← heq, List.drop_append_of_le_length (by omega)]
    exact List.prefix_append _ _
  exact List.prefix_of_prefix_length_le h hprefix (by rw [List.length_drop]; omega)

/-- The first place of a list stays the first one when numbers are added. -/
theorem isLeast_of_prefix (hne : values ≠ []) (hle : w.data <+: w'.data)
    (h : IsLeast {place | w.Holds values place} address) :
    IsLeast {place | w'.Holds values place} address := by
  refine ⟨h.1.mono hle, fun place hplace => ?_⟩
  by_contra hearlier
  have hwithin := Holds.le_length h.1 hne
  exact hearlier (h.2 (Holds.of_prefix hplace hle (by omega)))

/-! ## §2 Steps -/

/-- A list that stands somewhere is not stored again. -/
theorem store_of_isInfix (hne : values ≠ []) (h : values <:+: w.data) :
    (w.store values).2 = w ∧ IsLeast {place | w.Holds values place} (w.store values).1 := by
  have hisEmpty : values.isEmpty = false := by simpa using hne
  cases hfind : find? values w.data with
  | none =>
    obtain ⟨place, hheld⟩ := isInfix_iff_exists_holds.mp h
    exact absurd hheld (find?_eq_none_iff.mp hfind place)
  | some address =>
    rw [store, hisEmpty, if_neg Bool.false_ne_true, hfind]
    exact ⟨rfl, isLeast_of_find? hfind⟩

/-- Any other list is put behind all numbers. -/
theorem store_of_not_isInfix (h : values = [] ∨ ¬ values <:+: w.data) :
    w.store values = (w.data.length, ⟨w.data ++ values⟩) := by
  have hfind : (if values.isEmpty then none else find? values w.data) = none := by
    rcases h with rfl | h
    · rfl
    · have hnone : find? values w.data = none :=
        find?_eq_none_iff.mpr fun place hheld => h (isInfix_iff_exists_holds.mpr ⟨place, hheld⟩)
      rw [hnone, ite_self]
  rw [store, hfind]

/-- A list stands within the numbers from when it is stored. -/
theorem le_length_of_store (w : Words) (values : List Nat) :
    (w.store values).1 + values.length ≤ (w.store values).2.data.length := by
  by_cases h : values = [] ∨ ¬ values <:+: w.data
  · rw [store_of_not_isInfix h, List.length_append]
  · exact (holds_store (w.store values).eta.symm).1.le_length (not_or.mp h).1

/-- Numbers are added for a list exactly if it is not empty and stands nowhere yet, and then
exactly the numbers of the list. -/
theorem store_grows_iff (w : Words) (values : List Nat) :
    ((w.store values).2.data ≠ w.data ↔ values ≠ [] ∧ ¬ values <:+: w.data) ∧
      ((w.store values).2.data ≠ w.data → (w.store values).2.data = w.data ++ values) := by
  by_cases h : values = [] ∨ ¬ values <:+: w.data
  · rw [store_of_not_isInfix h]
    refine ⟨?_, fun _ => rfl⟩
    rw [ne_eq, List.append_right_eq_self]
    exact ⟨fun hne => ⟨hne, h.resolve_left hne⟩, And.left⟩
  · obtain ⟨hne, hfound⟩ := not_or.mp h
    have hsame := (store_of_isInfix hne (not_not.mp hfound)).1
    rw [hsame]
    exact ⟨⟨fun h => absurd rfl h, fun h => absurd h.2 hfound⟩, fun h => absurd rfl h⟩

/-- A list has the same address again when numbers have been added. -/
theorem store_eq_of_prefix (hne : values ≠ []) (h : values <:+: w.data)
    (hle : w.data <+: w'.data) : (w'.store values).1 = (w.store values).1 := by
  have hleast := isLeast_of_prefix hne hle (store_of_isInfix hne h).2
  exact (store_of_isInfix hne (h.trans hle.isInfix)).2.unique hleast

/-- A list that was stored has the same address or a smaller one when it is stored again. -/
theorem store_store_le (hne : values ≠ []) (hle : (w.store values).2.data <+: w'.data) :
    (w'.store values).1 ≤ (w.store values).1 := by
  have hheld := (holds_store (w.store values).eta.symm).1.mono hle
  exact (store_of_isInfix hne (isInfix_iff_exists_holds.mpr ⟨_, hheld⟩)).2.2 hheld

theorem finish_eq_ok_iff {data : List Nat} :
    w.finish = .ok data ↔ data = w.data ∧ ∀ value ∈ w.data, value ≤ 0xffff := by
  constructor
  · intro h
    obtain ⟨rfl, hsmall⟩ := finish_eq h
    exact ⟨rfl, hsmall⟩
  · rintro ⟨rfl, hsmall⟩
    have hnone : w.data.find? (0xffff < ·) = none :=
      List.find?_eq_none.mpr fun value hvalue => by simpa using hsmall value hvalue
    rw [finish, hnone]

end Words

/-! ## §3 Runs -/

namespace Records

variable {w : Words} {lists : List (List Nat)} {values : List Nat} {i j : Nat}

/-- What is stored after the first lists. -/
def storedAfter (w : Words) (lists : List (List Nat)) (count : Nat) : Words :=
  (storeAll w (lists.take count)).2

theorem storedAfter_cons_succ :
    storedAfter w (values :: lists) (i + 1) = storedAfter (w.store values).2 lists i :=
  rfl

/-- Each list is stored behind those before it. -/
theorem storeAll_step (h : lists[i]? = some values) :
    (storeAll w lists).1[i]? = some ((storedAfter w lists i).store values).1 ∧
      storedAfter w lists (i + 1) = ((storedAfter w lists i).store values).2 := by
  induction lists generalizing w i with
  | nil => cases h
  | cons first lists ih =>
    cases i with
    | zero =>
      obtain rfl := Option.some.inj h
      exact ⟨rfl, rfl⟩
    | succ i =>
      rw [storedAfter_cons_succ, storedAfter_cons_succ]
      exact ih h

/-- Numbers are only added, and only at the end. -/
theorem prefix_storedAfter (h : i ≤ j) :
    (storedAfter w lists i).data <+: (storedAfter w lists j).data := by
  induction lists generalizing w i j with
  | nil => simp [storedAfter]
  | cons first lists ih =>
    cases i with
    | zero => exact prefix_storeAll _ _
    | succ i =>
      cases j with
      | zero => cases h
      | succ j =>
        rw [storedAfter_cons_succ, storedAfter_cons_succ]
        exact ih (Nat.le_of_succ_le_succ h)

theorem length_storeAll : (storeAll w lists).1.length = lists.length := by
  induction lists generalizing w with
  | nil => rfl
  | cons first lists ih => exact congrArg Nat.succ ih

/-- A list stands at its address from when it is stored. -/
theorem holds_storedAfter {address : Nat} (h : lists[i]? = some values)
    (haddress : (storeAll w lists).1[i]? = some address) (hlater : i < j) :
    (storedAfter w lists j).Holds values address ∧
      address + values.length ≤ (storedAfter w lists j).data.length := by
  obtain ⟨hat, hnext⟩ := storeAll_step (w := w) h
  obtain rfl := Option.some.inj (hat.symm.trans haddress)
  have hle : (storedAfter w lists (i + 1)).data <+: (storedAfter w lists j).data :=
    prefix_storedAfter hlater
  rw [hnext] at hle
  exact ⟨(Words.holds_store (Words.store _ _).eta.symm).1.mono hle,
    (Words.le_length_of_store _ _).trans hle.length_le⟩

/-- When a list is stored again, it stands somewhere. -/
theorem isInfix_storedAfter (h : lists[i]? = some values) (hlater : i < j) :
    values <:+: (storedAfter w lists j).data :=
  Words.isInfix_iff_exists_holds.mpr
    ⟨_, (holds_storedAfter h (storeAll_step (w := w) h).1 hlater).1⟩

/-- All addresses of a list behind its first one agree. -/
theorem address_eq_of_lt {k : Nat} (hne : values ≠ []) (hi : lists[i]? = some values)
    (hij : i < j) (hjk : j ≤ k) :
    ((storedAfter w lists k).store values).1 = ((storedAfter w lists j).store values).1 :=
  Words.store_eq_of_prefix hne (isInfix_storedAfter hi hij) (prefix_storedAfter hjk)

/-- When lists are stored one after another, each one has an address and stands there from then on;
numbers are added for a list exactly if it is not empty and stands nowhere yet, and then exactly its
numbers behind all others; if it stands somewhere, its address is the first such place; all
addresses of a list but the first one agree and are not larger than that; and in the end the stored
numbers are handed out as they are, exactly if all of them fit 16 bits. -/
theorem storeAll_interns (w : Words) (lists : List (List Nat)) :
    let addresses := (storeAll w lists).1
    let stored := storedAfter w lists
    addresses.length = lists.length ∧
      (∀ (i : Nat) values address, lists[i]? = some values → addresses[i]? = some address →
        (∀ j, i < j → (stored j).Holds values address ∧
          address + values.length ≤ (stored j).data.length) ∧
        ((stored (i + 1)).data ≠ (stored i).data ↔
          values ≠ [] ∧ ¬ values <:+: (stored i).data) ∧
        ((stored (i + 1)).data ≠ (stored i).data →
          (stored (i + 1)).data = (stored i).data ++ values) ∧
        (values ≠ [] → values <:+: (stored i).data →
          IsLeast {place | (stored i).Holds values place} address)) ∧
      (∀ values, values ≠ [] → ∀ i j k : Nat, i < j → i < k → lists[i]? = some values →
        lists[j]? = some values → lists[k]? = some values → ∃ first later,
          addresses[i]? = some first ∧ addresses[j]? = some later ∧
            addresses[k]? = some later ∧ later ≤ first) ∧
      ∀ i data, (stored i).finish = .ok data ↔
        data = (stored i).data ∧ ∀ value ∈ (stored i).data, value ≤ 0xffff := by
  refine ⟨length_storeAll, fun i values address hi haddress => ?_, ?_,
    fun i data => Words.finish_eq_ok_iff⟩
  · obtain ⟨hat, hnext⟩ := storeAll_step (w := w) hi
    obtain rfl := Option.some.inj (hat.symm.trans haddress)
    refine ⟨fun j => holds_storedAfter hi haddress, ?_, ?_, fun hne hfound => ?_⟩
    · rw [hnext]
      exact (Words.store_grows_iff _ _).1
    · rw [hnext]
      exact (Words.store_grows_iff _ _).2
    · exact (Words.store_of_isInfix hne hfound).2
  · intro values hne i j k hij hik hi hj hk
    refine ⟨_, _, (storeAll_step hi).1, (storeAll_step hj).1, ?_, ?_⟩
    · rw [(storeAll_step hk).1]
      rcases Nat.le_total j k with hjk | hkj
      · exact congrArg some (address_eq_of_lt hne hi hij hjk)
      · exact congrArg some (address_eq_of_lt hne hi hik hkj).symm
    · have hle : (storedAfter w lists (i + 1)).data <+: (storedAfter w lists j).data :=
        prefix_storedAfter hij
      rw [(storeAll_step hi).2] at hle
      exact Words.store_store_le hne hle

/-- A list that is put at 2 stands at 1, too, together with the number before it. This is its address
from then on, and it still stands at 2. -/
theorem storeAll_interns_straddling :
    (storeAll {} [[2, 1], [1, 1], [1, 1]]).1 = [0, 2, 1] ∧
      ∀ j, 1 < j → (storedAfter {} [[2, 1], [1, 1], [1, 1]] j).Holds [1, 1] 2 :=
  ⟨by decide, fun j hj => (((storeAll_interns {} _).2.1 1 [1, 1] 2 rfl rfl).1 j hj).1⟩

end Records

end GrammarCompiler
