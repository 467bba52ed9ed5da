/-
GrammarCompiler.Proofs.Normalizing — one list of ranges for every set of numbers.

A list of ranges is normal if the ranges are not empty, stand in order and leave a gap
between one another. Every set that ranges can cover has exactly one normal list:
normalizing finds it, and the complement of a normal list is normal again.

  §1 Members      — the numbers that ranges cover.
  §2 Normal lists — lists that cover the same numbers are the same.
  §3 Normalizing  — sorting, and joining what overlaps or touches.
  §4 Complements  — the gaps of a normal list, below the number of code points.
-/
import GrammarCompiler.CharSet
import Mathlib.Data.List.Basic

namespace GrammarCompiler.CharSet

variable {r current : CodeRange} {ranges ranges' : List CodeRange} {n start : Nat}

/-! ## §1 Members -/

theorem contains_iff : contains ranges n = true ↔ ∃ r ∈ ranges, r.lo ≤ n ∧ n < r.hi := by
  simp [contains]

theorem contains_cons :
    contains (r :: ranges) n = true ↔ (r.lo ≤ n ∧ n < r.hi) ∨ contains ranges n = true := by
  rw [contains_iff, contains_iff, List.exists_mem_cons_iff]

theorem contains_perm (h : ranges.Perm ranges') : contains ranges n = contains ranges' n := by
  rw [Bool.eq_iff_iff, contains_iff, contains_iff]
  simp only [h.mem_iff]

/-- Ranges that hold at least one number each. -/
def AreWide (ranges : List CodeRange) : Prop :=
  ∀ r ∈ ranges, r.lo < r.hi

/-- Ranges of code points. -/
def AreWithin (ranges : List CodeRange) : Prop :=
  ∀ r ∈ ranges, r.hi ≤ codePoints

instance : DecidablePred AreWide :=
  fun ranges => inferInstanceAs (Decidable (∀ r ∈ ranges, r.lo < r.hi))

instance : DecidablePred AreWithin :=
  fun ranges => inferInstanceAs (Decidable (∀ r ∈ ranges, r.hi ≤ codePoints))

theorem AreWithin.lt_codePoints (h : AreWithin ranges) (hn : contains ranges n = true) :
    n < codePoints := by
  obtain ⟨r, hr, -, hlt⟩ := contains_iff.mp hn
  exact Nat.lt_of_lt_of_le hlt (h r hr)

/-! ## §2 Normal lists -/

/-- Ranges in order, with a gap in front of each but the first. -/
structure IsNormal (ranges : List CodeRange) : Prop where
  wide : AreWide ranges
  apart : ranges.Pairwise fun r r' => r.hi < r'.lo

theorem isNormal_nil : IsNormal [] :=
  ⟨nofun, .nil⟩

theorem isNormal_cons : IsNormal (r :: ranges) ↔
    r.lo < r.hi ∧ (∀ r' ∈ ranges, r.hi < r'.lo) ∧ IsNormal ranges := by
  constructor
  · rintro ⟨hwide, hapart⟩
    obtain ⟨hr, hranges⟩ := List.forall_mem_cons.mp hwide
    obtain ⟨hrest, hapart⟩ := List.pairwise_cons.mp hapart
    exact ⟨hr, hrest, hranges, hapart⟩
  · rintro ⟨hr, hrest, hranges, hapart⟩
    exact ⟨List.forall_mem_cons.mpr ⟨hr, hranges⟩, List.pairwise_cons.mpr ⟨hrest, hapart⟩⟩

/-- What lies in a later range lies behind the end of the first one. -/
theorem IsNormal.hi_lt (h : IsNormal (r :: ranges)) (hn : contains ranges n = true) :
    r.hi < n := by
  obtain ⟨r', hr', hlo, -⟩ := contains_iff.mp hn
  exact Nat.lt_of_lt_of_le ((isNormal_cons.mp h).2.1 r' hr') hlo

/-- The first range begins with the least number. -/
theorem IsNormal.lo_le (h : IsNormal (r :: ranges)) (hn : contains (r :: ranges) n = true) :
    r.lo ≤ n := by
  rcases contains_cons.mp hn with ⟨hlo, -⟩ | hlater
  · exact hlo
  · have hwide := (isNormal_cons.mp h).1
    have := h.hi_lt hlater
    omega

/-- The first range ends in a gap. -/
theorem IsNormal.not_contains_hi (h : IsNormal (r :: ranges)) :
    ¬ contains (r :: ranges) r.hi = true := by
  intro hn
  rcases contains_cons.mp hn with ⟨-, hlt⟩ | hlater
  · exact Nat.lt_irrefl _ hlt
  · exact Nat.lt_irrefl _ (h.hi_lt hlater)

theorem IsNormal.contains_tail (h : IsNormal (r :: ranges)) :
    contains ranges n = true ↔ contains (r :: ranges) n = true ∧ r.hi ≤ n := by
  rw [contains_cons]
  constructor
  · intro hn
    exact ⟨.inr hn, Nat.le_of_lt (h.hi_lt hn)⟩
  · rintro ⟨⟨-, hlt⟩ | hn, hle⟩
    · exact absurd hlt (Nat.not_lt.mpr hle)
    · exact hn

/-- The first of two first ranges begins no later than the other one. -/
theorem IsNormal.lo_le_lo {r' : CodeRange} (h : IsNormal (r :: ranges))
    (h' : IsNormal (r' :: ranges'))
    (hsame : ∀ n, contains (r :: ranges) n = contains (r' :: ranges') n) : r.lo ≤ r'.lo := by
  have hwide := (isNormal_cons.mp h').1
  exact h.lo_le (hsame r'.lo ▸ contains_cons.mpr (.inl ⟨Nat.le_refl _, hwide⟩))

/-- The first of two first ranges that begin together ends no earlier than the other one. -/
theorem IsNormal.hi_le_hi {r' : CodeRange} (h : IsNormal (r :: ranges)) (hlo : r'.lo ≤ r.lo)
    (hsame : ∀ n, contains (r :: ranges) n = contains (r' :: ranges') n) : r'.hi ≤ r.hi := by
  by_contra hlt
  have hwide := (isNormal_cons.mp h).1
  have hgap : contains (r' :: ranges') r.hi = true :=
    contains_cons.mpr (.inl ⟨by omega, by omega⟩)
  exact h.not_contains_hi (hsame r.hi ▸ hgap)

/-- Normal lists that cover the same numbers are the same. -/
theorem IsNormal.ext (h : IsNormal ranges) (h' : IsNormal ranges')
    (hsame : ∀ n, contains ranges n = contains ranges' n) : ranges = ranges' := by
  induction ranges generalizing ranges' with
  | nil =>
    cases ranges' with
    | nil => rfl
    | cons r' ranges' =>
      have hfirst : contains (r' :: ranges') r'.lo = true :=
        contains_cons.mpr (.inl ⟨Nat.le_refl _, (isNormal_cons.mp h').1⟩)
      rw [← hsame] at hfirst
      cases hfirst
  | cons r ranges ih =>
    cases ranges' with
    | nil =>
      have hfirst : contains (r :: ranges) r.lo = true :=
        contains_cons.mpr (.inl ⟨Nat.le_refl _, (isNormal_cons.mp h).1⟩)
      rw [hsame] at hfirst
      cases hfirst
    | cons r' ranges' =>
      have hsame' := fun n => (hsame n).symm
      have hlo : r.lo = r'.lo :=
        Nat.le_antisymm (h.lo_le_lo h' hsame) (h'.lo_le_lo h hsame')
      have hhi : r.hi = r'.hi :=
        Nat.le_antisymm (h'.hi_le_hi (Nat.le_of_eq hlo) hsame')
          (h.hi_le_hi (Nat.le_of_eq hlo.symm) hsame)
      have htail : ranges = ranges' := by
        refine ih (isNormal_cons.mp h).2.2 (isNormal_cons.mp h').2.2 fun n => ?_
        rw [Bool.eq_iff_iff, h.contains_tail, h'.contains_tail, hsame, hhi]
      rw [htail, show r = r' by cases r; cases r'; simp_all]

/-! ## §3 Normalizing -/

theorem pairwise_lo_mergeSort (ranges : List CodeRange) :
    (ranges.mergeSort before).Pairwise fun r r' => r.lo ≤ r'.lo := by
  refine (List.pairwise_mergeSort (fun a b c h h' => ?_) (fun a b => ?_) ranges).imp fun h => ?_
  all_goals
    simp only [before, Bool.or_eq_true, Bool.and_eq_true, decide_eq_true_eq, beq_iff_eq] at *
    omega

/-- Joining ranges that come in the order of their beginnings. -/
theorem isNormal_joinFrom (hcurrent : current.lo < current.hi) (hranges : AreWide ranges)
    (hsorted : (current :: ranges).Pairwise fun r r' => r.lo ≤ r'.lo) :
    IsNormal (joinFrom current ranges) ∧ ∀ r ∈ joinFrom current ranges, current.lo ≤ r.lo := by
  induction ranges generalizing current with
  | nil => exact ⟨isNormal_cons.mpr ⟨hcurrent, nofun, isNormal_nil⟩, by simp [joinFrom]⟩
  | cons next ranges ih =>
    obtain ⟨hnext, hrest⟩ := List.forall_mem_cons.mp hranges
    obtain ⟨hfirst, hlater⟩ := List.pairwise_cons.mp hsorted
    obtain ⟨hle, hall⟩ := List.forall_mem_cons.mp hfirst
    rw [joinFrom]
    split
    next =>
      refine ih ?_ hrest (List.pairwise_cons.mpr ⟨hall, (List.pairwise_cons.mp hlater).2⟩)
      exact Nat.lt_of_lt_of_le hcurrent (Nat.le_max_left _ _)
    next hapart =>
      obtain ⟨hnormal, hlo⟩ := ih hnext hrest hlater
      refine ⟨isNormal_cons.mpr ⟨hcurrent, fun r hr => ?_, hnormal⟩,
        List.forall_mem_cons.mpr ⟨Nat.le_refl _, fun r hr => Nat.le_trans hle (hlo r hr)⟩⟩
      exact Nat.lt_of_lt_of_le (Nat.lt_of_not_le hapart) (hlo r hr)

/-- Joining neither adds numbers nor loses any. -/
theorem contains_joinFrom (hsorted : (current :: ranges).Pairwise fun r r' => r.lo ≤ r'.lo) :
    contains (joinFrom current ranges) n = contains (current :: ranges) n := by
  induction ranges generalizing current with
  | nil => rfl
  | cons next ranges ih =>
    obtain ⟨hfirst, hlater⟩ := List.pairwise_cons.mp hsorted
    obtain ⟨hle, hall⟩ := List.forall_mem_cons.mp hfirst
    rw [joinFrom, Bool.eq_iff_iff]
    split
    next htouch =>
      have hjoined : contains (joinFrom ⟨current.lo, max current.hi next.hi⟩ ranges) n =
          contains (⟨current.lo, max current.hi next.hi⟩ :: ranges) n :=
        ih (List.pairwise_cons.mpr ⟨hall, (List.pairwise_cons.mp hlater).2⟩)
      rw [hjoined, contains_cons, contains_cons, contains_cons, ← or_assoc]
      refine or_congr_left ?_
      simp only
      omega
    next => rw [contains_cons, ih hlater, contains_cons (r := current)]

theorem areWithin_joinFrom (h : AreWithin (current :: ranges)) :
    AreWithin (joinFrom current ranges) := by
  induction ranges generalizing current with
  | nil => exact h
  | cons next ranges ih =>
    obtain ⟨hcurrent, hlater⟩ := List.forall_mem_cons.mp h
    obtain ⟨hnext, hrest⟩ := List.forall_mem_cons.mp hlater
    rw [joinFrom]
    split
    · exact ih (List.forall_mem_cons.mpr ⟨Nat.max_le.mpr ⟨hcurrent, hnext⟩, hrest⟩)
    · exact List.forall_mem_cons.mpr ⟨hcurrent, ih hlater⟩

theorem isNormal_normalize (h : AreWide ranges) : IsNormal (normalize ranges) := by
  have hsorted := pairwise_lo_mergeSort ranges
  have hwide : AreWide (ranges.mergeSort before) :=
    fun r hr => h r ((List.mergeSort_perm ranges before).mem_iff.mp hr)
  rw [normalize]
  cases hranges : ranges.mergeSort before with
  | nil => exact isNormal_nil
  | cons first rest =>
    rw [hranges] at hsorted hwide
    obtain ⟨hfirst, hrest⟩ := List.forall_mem_cons.mp hwide
    exact (isNormal_joinFrom hfirst hrest hsorted).1

theorem contains_normalize (ranges : List CodeRange) (n : Nat) :
    contains (normalize ranges) n = contains ranges n := by
  have hsorted := pairwise_lo_mergeSort ranges
  rw [normalize, ← contains_perm (List.mergeSort_perm ranges before)]
  cases hranges : ranges.mergeSort before with
  | nil => rfl
  | cons first rest =>
    rw [hranges] at hsorted
    exact contains_joinFrom hsorted

theorem areWithin_normalize (h : AreWithin ranges) : AreWithin (normalize ranges) := by
  have hwithin : AreWithin (ranges.mergeSort before) :=
    fun r hr => h r ((List.mergeSort_perm ranges before).mem_iff.mp hr)
  rw [normalize]
  cases hranges : ranges.mergeSort before with
  | nil => exact nofun
  | cons first rest => exact areWithin_joinFrom (hranges ▸ hwithin)

/-- Normal lists are what normalizing leaves as it is. -/
theorem IsNormal.normalize_eq (h : IsNormal ranges) : normalize ranges = ranges :=
  (isNormal_normalize h.wide).ext h (contains_normalize ranges)

/-! ## §4 Complements -/

/-- The gaps of a normal list from a place before its first range on. -/
theorem isNormal_complementFrom (h : IsNormal ranges) (hstart : ∀ r ∈ ranges, start ≤ r.lo) :
    IsNormal (complementFrom start ranges) ∧
      ∀ r ∈ complementFrom start ranges, start ≤ r.lo := by
  induction ranges generalizing start with
  | nil =>
    rw [complementFrom]
    split
    next hlt => exact ⟨isNormal_cons.mpr ⟨hlt, nofun, isNormal_nil⟩, by simp⟩
    next => exact ⟨isNormal_nil, nofun⟩
  | cons r ranges ih =>
    obtain ⟨hwide, hrest, hranges⟩ := isNormal_cons.mp h
    have hle : start ≤ r.lo := hstart r List.mem_cons_self
    obtain ⟨hnormal, hlo⟩ := ih hranges fun r' hr' => Nat.le_of_lt (hrest r' hr')
    have hbehind : ∀ r' ∈ complementFrom r.hi ranges, r.lo < r'.lo :=
      fun r' hr' => Nat.lt_of_lt_of_le hwide (hlo r' hr')
    rw [complementFrom]
    split
    next hlt =>
      exact ⟨isNormal_cons.mpr ⟨hlt, hbehind, hnormal⟩, List.forall_mem_cons.mpr
        ⟨Nat.le_refl _, fun r' hr' => Nat.le_trans hle (Nat.le_of_lt (hbehind r' hr'))⟩⟩
    next => exact ⟨hnormal, fun r' hr' => Nat.le_trans hle (Nat.le_of_lt (hbehind r' hr'))⟩

theorem contains_complementFrom (h : IsNormal ranges) (hwithin : AreWithin ranges)
    (hstart : ∀ r ∈ ranges, start ≤ r.lo) : contains (complementFrom start ranges) n = true ↔
      start ≤ n ∧ n < codePoints ∧ ¬ contains ranges n = true := by
  induction ranges generalizing start with
  | nil =>
    rw [complementFrom]
    split
    next => simp [contains]
    next hle =>
      simp [contains]
      omega
  | cons r ranges ih =>
    obtain ⟨hwide, hrest, hranges⟩ := isNormal_cons.mp h
    obtain ⟨hhi, hwithin⟩ := List.forall_mem_cons.mp hwithin
    have hle : start ≤ r.lo := hstart r List.mem_cons_self
    have hlater : contains ranges n = true → r.hi < n := h.hi_lt
    have hcontains := ih hranges hwithin fun r' hr' => Nat.le_of_lt (hrest r' hr')
    rw [contains_cons, complementFrom]
    split
    next hlt =>
      rw [contains_cons, hcontains]
      cases hn : contains ranges n with
      | true =>
        have := hlater hn
        simp only [not_true_eq_false, and_false, or_false, or_true, iff_false]
        omega
      | false =>
        simp only [Bool.false_eq_true, not_false_eq_true, and_true, or_false]
        omega
    next =>
      rw [hcontains]
      cases contains ranges n with
      | true => simp
      | false =>
        simp only [Bool.false_eq_true, not_false_eq_true, and_true, or_false]
        omega

theorem areWithin_complementFrom (h : AreWithin ranges) (hwide : AreWide ranges) :
    AreWithin (complementFrom start ranges) := by
  induction ranges generalizing start with
  | nil =>
    rw [complementFrom]
    split
    · exact List.forall_mem_singleton.mpr (Nat.le_refl _)
    · exact nofun
  | cons r ranges ih =>
    obtain ⟨hhi, hwithin⟩ := List.forall_mem_cons.mp h
    obtain ⟨hlt, hwide⟩ := List.forall_mem_cons.mp hwide
    rw [complementFrom]
    split
    · exact List.forall_mem_cons.mpr
        ⟨Nat.le_trans (Nat.le_of_lt hlt) hhi, ih hwithin hwide⟩
    · exact ih hwithin hwide

section

variable (h : IsNormal ranges) (hwithin : AreWithin ranges)
include h

theorem isNormal_complement : IsNormal (complement ranges) :=
  (isNormal_complementFrom h fun _ _ => Nat.zero_le _).1

include hwithin

theorem areWithin_complement : AreWithin (complement ranges) :=
  areWithin_complementFrom hwithin h.wide

theorem contains_complement_iff :
    contains (complement ranges) n = true ↔ n < codePoints ∧ ¬ contains ranges n = true := by
  rw [complement, contains_complementFrom h hwithin fun _ _ => Nat.zero_le _]
  simp

/-- What lies outside of what lies outside lies inside. -/
theorem complement_complement : complement (complement ranges) = ranges := by
  have hnormal := isNormal_complement h
  have hwithin' := areWithin_complement h hwithin
  refine (isNormal_complement hnormal).ext h fun n => ?_
  rw [Bool.eq_iff_iff, contains_complement_iff hnormal hwithin',
    contains_complement_iff h hwithin]
  constructor
  · rintro ⟨hlt, hnot⟩
    by_contra hn
    exact hnot ⟨hlt, hn⟩
  · intro hn
    exact ⟨hwithin.lt_codePoints hn, fun hnot => hnot.2 hn⟩

end

/-- Normalizing finds the one normal list of a set of numbers. The complement of a normal list of
code points is the normal list of all other code points, and its complement is the list again. -/
theorem normalize_isUnique :
    (∀ ranges, AreWide ranges →
      IsNormal (normalize ranges) ∧ ∀ n, contains (normalize ranges) n = contains ranges n) ∧
    (∀ ranges ranges', AreWide ranges → AreWide ranges' →
      ((∀ n, contains ranges n = contains ranges' n) ↔ normalize ranges = normalize ranges')) ∧
    ∀ ranges, IsNormal ranges → AreWithin ranges →
      IsNormal (complement ranges) ∧
      (∀ n, contains (complement ranges) n = true ↔ n < codePoints ∧ contains ranges n = false) ∧
      complement (complement ranges) = ranges := by
  refine ⟨fun ranges h => ⟨isNormal_normalize h, contains_normalize ranges⟩,
    fun ranges ranges' h h' => ⟨fun hsame => ?_, fun heq n => ?_⟩,
    fun ranges h hwithin => ⟨isNormal_complement h, fun n => ?_, complement_complement h hwithin⟩⟩
  · refine (isNormal_normalize h).ext (isNormal_normalize h') fun n => ?_
    rw [contains_normalize, contains_normalize, hsame]
  · rw [← contains_normalize ranges, ← contains_normalize ranges', heq]
  · rw [contains_complement_iff h hwithin, Bool.not_eq_true]

/-- Digits and small letters, in pieces that overlap, touch and come twice. -/
def scatteredRanges : List CodeRange :=
  [⟨97, 105⟩, ⟨48, 53⟩, ⟨100, 123⟩, ⟨53, 58⟩, ⟨97, 105⟩]

/-- The pieces make up two ranges, which are also what the complement of their complement is. -/
theorem normalize_scatteredRanges :
    AreWide scatteredRanges ∧ IsNormal (normalize scatteredRanges) ∧
      (∀ n, contains (normalize scatteredRanges) n = contains scatteredRanges n) ∧
      normalize scatteredRanges = normalize [⟨97, 123⟩, ⟨48, 58⟩] ∧
      AreWithin (normalize scatteredRanges) ∧
      complement (complement (normalize scatteredRanges)) = normalize scatteredRanges := by
  have hwide : AreWide scatteredRanges := by decide
  have hwithin : AreWithin scatteredRanges := by decide
  obtain ⟨hnormal, hsame⟩ := normalize_isUnique.1 scatteredRanges hwide
  have htwo := (normalize_isUnique.2.1 scatteredRanges [⟨97, 123⟩, ⟨48, 58⟩] hwide (by decide)).mp
  have htwice := normalize_isUnique.2.2 _ hnormal (areWithin_normalize hwithin)
  refine ⟨hwide, hnormal, hsame, htwo fun n => ?_, areWithin_normalize hwithin, htwice.2.2⟩
  rw [Bool.eq_iff_iff, contains_iff, contains_iff]
  simp only [scatteredRanges, List.mem_cons, List.not_mem_nil, or_false, exists_eq_or_imp,
    exists_eq_left]
  omega

end GrammarCompiler.CharSet
