/-
GrammarCompiler.Proofs.Comparing — joins and the order of marks.

Marks with sorted ambiguities are a semilattice: a join says what either of two marks
says and nothing else, so it does not matter in which order the marks of a gap are
joined, or how often. `compare` puts all marks in one order. Marks that say more come
later in it, so a join comes after what is joined.

  §1 Joins — the laws of joins, and how to join by cases.
  §2 Lists — lists in order of their length.
  §3 Marks — the order of marks.
  §4 Rules — rules that compare as equal.
-/
import GrammarCompiler.Proofs.Merging
import GrammarCompiler.Proofs.Nesting

namespace GrammarCompiler

/-! ## §1 Joins -/

namespace Marks

variable {a b c : Marks}

theorem le_join_left (a b : Marks) : a.Le (a.join b) :=
  (join_le_iff.mp (.refl _)).1

theorem le_join_right (a b : Marks) : b.Le (a.join b) :=
  (join_le_iff.mp (.refl _)).2

theorem join_assoc (ha : a.IsSorted) : (a.join b).join c = a.join (b.join c) :=
  eq_of_le_iff ha.join.join ha.join fun m => by
    rw [join_le_iff, join_le_iff, join_le_iff, join_le_iff, and_assoc]

theorem join_self (ha : a.IsSorted) : a.join a = a :=
  eq_of_le_iff ha.join ha fun m => by rw [join_le_iff, and_self]

theorem join_none (ha : a.IsSorted) : a.join none = a :=
  eq_of_le_iff ha.join ha fun m => by rw [join_le_iff, and_iff_left (none_le m)]

theorem none_join (ha : a.IsSorted) : none.join a = a :=
  eq_of_le_iff isSorted_none.join ha fun m => by rw [join_le_iff, and_iff_right (none_le m)]

/-- Adds a name to the end of a list, unless it is there. -/
def addName (names : List String) (name : String) : List String :=
  if names.contains name then names else names ++ [name]

/-- Joins marks by cases: where one of them says nothing, or both say the same, nothing has to be
put together. Otherwise the ambiguities that are missing go to the end, and then all are sorted. -/
def joinByCases (a b : Marks) : Marks :=
  if a = none ∨ a = b then b
  else if b = none then a
  else
    { precedence := max a.precedence b.precedence
      ambiguities := (b.ambiguities.foldl addName a.ambiguities).mergeSort
      cut := max a.cut b.cut }

theorem mem_foldl_addName {names added : List String} {name : String} :
    name ∈ added.foldl addName names ↔ name ∈ names ∨ name ∈ added := by
  induction added generalizing names with
  | nil => simp
  | cons first added ih =>
    have hfirst : name ∈ addName names first ↔ name ∈ names ∨ name = first := by
      unfold addName
      split
      next h =>
        have h : first ∈ names := by simpa using h
        exact ⟨.inl, fun hname => hname.elim id fun heq => heq ▸ h⟩
      next => simp
    rw [List.foldl_cons, ih, hfirst, List.mem_cons, or_assoc]

theorem nodup_foldl_addName {names added : List String} (h : names.Nodup) :
    (added.foldl addName names).Nodup := by
  refine List.foldlRecOn added addName h fun names h name _ => ?_
  unfold addName
  split
  next => exact h
  next hname =>
    have hname : name ∉ names := by simpa using hname
    exact List.concat_eq_append ▸ h.concat hname

/-- Names that are sorted and of which none is listed twice are in strict order. -/
theorem pairwise_lt_mergeSort {names : List String} (h : names.Nodup) :
    names.mergeSort.Pairwise (· < ·) := by
  have hsorted : names.mergeSort.Pairwise fun x y => decide (x ≤ y) = true :=
    List.pairwise_mergeSort (fun x y z => by simpa using le_trans) (fun x y => by
      simpa using le_total x y) names
  have hnodup : names.mergeSort.Nodup := (List.mergeSort_perm names _).nodup_iff.mpr h
  refine (hsorted.and hnodup).imp fun ⟨hle, hne⟩ => ?_
  exact lt_of_le_of_ne (of_decide_eq_true hle) hne

theorem joinByCases_eq_join (ha : a.IsSorted) (hb : b.IsSorted) : a.joinByCases b = a.join b := by
  unfold joinByCases
  split
  next h =>
    rcases h with rfl | rfl
    · exact (none_join hb).symm
    · exact (join_self ha).symm
  next =>
    split
    next h => rw [h, join_none ha]
    next =>
      have hambiguities : (b.ambiguities.foldl addName a.ambiguities).mergeSort =
          unionNames a.ambiguities b.ambiguities := by
        have hnodup : a.ambiguities.Nodup := ha.imp ne_of_lt
        refine (pairwise_lt_mergeSort (nodup_foldl_addName hnodup)).eq_of_mem_iff
          (pairwise_unionNames ha) fun name => ?_
        rw [List.mem_mergeSort, mem_foldl_addName, mem_unionNames]
      rw [hambiguities]
      rfl

end Marks

/-! ## §2 Lists -/

section

universe u
variable {α : Type u} {compareItem : α → α → Ordering}

theorem firstDifference_eq_compareLex {as bs : List α} (h : as.length = bs.length) :
    firstDifference compareItem as bs = List.compareLex compareItem as bs := by
  induction as generalizing bs with
  | nil =>
    obtain rfl := List.length_eq_zero_iff.mp h.symm
    rfl
  | cons a as ih =>
    obtain ⟨b, bs, rfl⟩ := List.exists_cons_of_length_eq_add_one h.symm
    rw [firstDifference, List.compareLex_cons_cons, ih (Nat.succ.inj h)]

/-- Lists of one length are in the order of a dictionary. -/
theorem compareByLength_eq : compareByLength compareItem =
    compareLex (compareOn List.length) (List.compareLex compareItem) := by
  funext as bs
  rw [compareByLength, compareLex, compareOn]
  cases h : compare as.length bs.length with
  | lt => rfl
  | eq => exact firstDifference_eq_compareLex (Std.compare_eq_iff_eq.mp h)
  | gt => rfl

instance [Std.TransCmp compareItem] : Std.TransCmp (compareByLength compareItem) := by
  rw [compareByLength_eq]
  infer_instance

end

/-! ## §3 Marks -/

namespace Marks

variable {a b : Marks}

theorem transCmp_compareByLength :
    Std.TransCmp (compareByLength (Ord.compare : String → String → Ordering)) :=
  inferInstance

/-- The order of the ambiguities that marks allow. -/
def compareAmbiguities (a b : Marks) : Ordering :=
  compareByLength Ord.compare a.ambiguities b.ambiguities

instance : Std.TransCmp compareAmbiguities where
  eq_swap := transCmp_compareByLength.eq_swap
  isLE_trans := transCmp_compareByLength.isLE_trans

instance : Std.TransCmp compare :=
  inferInstanceAs (Std.TransCmp (compareLex (compareOn precedence)
    (compareLex compareAmbiguities (compareOn cut))))

/-- Marks that say no more than others come first. -/
theorem Le.isLE_compare (ha : a.IsSorted) (hb : b.IsSorted) (h : a.Le b) :
    (a.compare b).isLE = true := by
  have hnodup : a.ambiguities.Nodup := ha.imp ne_of_lt
  have hsubperm := List.subperm_of_subset hnodup h.ambiguities
  rw [compare, Ordering.isLE_then_iff_or, Ordering.isLE_then_iff_or]
  rcases Nat.lt_or_eq_of_le h.precedence with hlt | heq
  · exact .inl (Nat.compare_eq_lt.mpr hlt)
  refine .inr ⟨Nat.compare_eq_eq.mpr heq, ?_⟩
  rcases Nat.lt_or_eq_of_le hsubperm.length_le with hlt | heq
  · left
    rw [compareByLength, Nat.compare_eq_lt.mpr hlt]
    rfl
  · -- As many ambiguities are all of them.
    have hsame : a.ambiguities = b.ambiguities :=
      (hsubperm.perm_of_length_le heq.ge).eq_of_pairwise
        (fun _ _ _ _ hlt hgt => absurd hlt (lt_asymm hgt)) ha hb
    refine .inr ⟨(compareByLength_eq_iff fun _ _ => Std.compare_eq_iff_eq).mpr hsame, ?_⟩
    exact Nat.isLE_compare.mpr h.cut

end Marks

/-! ## §4 Rules -/

theorem Rule.compareBody_eq_iff_parts {r s : Rule} :
    r.compareBody s = .eq ↔ r.parts = s.parts ∧ r.skip = s.skip ∧ r.marks = s.marks := by
  rw [compareBody_eq_iff, and_comm (a := r.skip = s.skip), ← and_assoc]
  refine and_congr_left fun _ => ⟨fun h => ⟨congrArg Phrase.parts h, congrArg Phrase.marks h⟩, ?_⟩
  rintro ⟨hparts, hmarks⟩
  exact congrArg₂ Phrase.mk hparts hmarks

/-- Marks whose ambiguities are sorted form a semilattice: joins can be regrouped, exchanged and
repeated, and what says nothing adds nothing. A join has the higher precedence and cut, and all
ambiguities, sorted and each of them once. It can be found by cases, and comes behind both in the
order of marks. This order is total, and only equal marks compare as equal. So rules compare as
equal exactly if they have the same parts, skip the same and have the same marks in every gap. -/
theorem Marks.join_isSemilattice :
    (∀ a b c : Marks, a.IsSorted → b.IsSorted → c.IsSorted →
      (a.join b).join c = a.join (b.join c) ∧ a.join b = b.join a ∧ a.join a = a ∧
      a.join none = a ∧ none.join a = a ∧
      (a.join b).IsSorted ∧
      (∀ name, name ∈ (a.join b).ambiguities ↔ name ∈ a.ambiguities ∨ name ∈ b.ambiguities) ∧
      (a.join b).precedence = max a.precedence b.precedence ∧
      (a.join b).cut = max a.cut b.cut ∧
      a.joinByCases b = a.join b ∧
      (a.compare (a.join b)).isLE = true ∧ (b.compare (a.join b)).isLE = true) ∧
    Std.TransCmp compare ∧ (∀ a b : Marks, a.compare b = .eq ↔ a = b) ∧
    ∀ r s : Rule, r.compareBody s = .eq ↔
      r.parts = s.parts ∧ r.skip = s.skip ∧ r.marks = s.marks := by
  refine ⟨fun a b c ha hb _ => ?_, inferInstance, fun _ _ => compare_eq_iff,
    fun _ _ => Rule.compareBody_eq_iff_parts⟩
  have hleft := (le_join_left a b).isLE_compare ha ha.join
  have hright := (le_join_right a b).isLE_compare hb ha.join
  exact ⟨join_assoc ha, join_comm ha hb, join_self ha, join_none ha, none_join ha, ha.join,
    fun _ => mem_unionNames, rfl, rfl, joinByCases_eq_join ha hb, hleft, hright⟩

/-- Three marks, joined in two ways. The join lists the ambiguities of all, sorted. -/
theorem Marks.join_isSemilattice_threeMarks :
    let a : Marks := ⟨4, ["x"], 0⟩
    let b : Marks := ⟨2, ["a", "x"], 1⟩
    let c : Marks := ⟨0, ["b"], 0⟩
    a.IsSorted ∧ b.IsSorted ∧ c.IsSorted ∧ (a.join b).join c = a.join (b.join c) ∧
      a.join b = b.join a ∧ a.joinByCases b = ⟨4, ["a", "x"], 1⟩ := by
  intro a b c
  have ha : a.IsSorted := List.pairwise_singleton _ _
  have hb : b.IsSorted := List.pairwise_pair.mpr (by decide)
  have hc : c.IsSorted := List.pairwise_singleton _ _
  obtain ⟨hassoc, hcomm, -, -, -, -, -, -, -, hcases, -⟩ :=
    join_isSemilattice.1 a b c ha hb hc
  exact ⟨ha, hb, hc, hassoc, hcomm, hcases.trans (by decide)⟩

end GrammarCompiler
