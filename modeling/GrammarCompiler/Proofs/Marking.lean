/-
GrammarCompiler.Proofs.Marking — where the marks of a sequence land.

A sequence stands for one phrase for each choice of phrases for its elements. Markers
stand in the gaps between elements, marks in the gaps between symbols: as elements
contribute any number of symbols, several gaps of a sequence can fall on one gap of the
phrase. What lands there is joined. Marks are joined in any order, since joins are
least upper bounds.

  §1 Joins     — marks in the order of what they say.
  §2 Phrases   — phrases with marks in every gap.
  §3 Landing   — what lands on a gap of the phrase for a choice.
  §4 Sequences — the phrases of a sequence.
  §5 Builds    — the phrases of all expressions.
-/
import GrammarCompiler.Proofs.Drafting
import GrammarCompiler.Proofs.Enumerating
import Mathlib.Data.List.Sort

namespace GrammarCompiler

/-! ## §1 Joins -/

namespace Marks

/-- The ambiguities that marks allow are sorted, and none is listed twice. -/
def IsSorted (m : Marks) : Prop :=
  m.ambiguities.Pairwise (· < ·)

/-- Marks that say no more than others. -/
structure Le (a b : Marks) : Prop where
  precedence : a.precedence ≤ b.precedence
  ambiguities : a.ambiguities ⊆ b.ambiguities
  cut : a.cut ≤ b.cut

variable {a b c : Marks} {l l' : List Marks}

theorem Le.refl (a : Marks) : a.Le a :=
  ⟨Nat.le_refl _, List.Subset.refl _, Nat.le_refl _⟩

theorem Le.trans (h : a.Le b) (h' : b.Le c) : a.Le c :=
  ⟨h.precedence.trans h'.precedence, List.Subset.trans h.ambiguities h'.ambiguities,
    h.cut.trans h'.cut⟩

theorem none_le (a : Marks) : none.Le a :=
  ⟨Nat.zero_le _, List.nil_subset _, Nat.zero_le _⟩

theorem join_le_iff : (a.join b).Le c ↔ a.Le c ∧ b.Le c := by
  constructor
  · rintro ⟨hprecedence, hambiguities, hcut⟩
    obtain ⟨hprecedence, hprecedence'⟩ := Nat.max_le.mp hprecedence
    obtain ⟨hcut, hcut'⟩ := Nat.max_le.mp hcut
    exact ⟨⟨hprecedence, fun _ h => hambiguities (mem_unionNames.mpr (.inl h)), hcut⟩,
      ⟨hprecedence', fun _ h => hambiguities (mem_unionNames.mpr (.inr h)), hcut'⟩⟩
  · rintro ⟨ha, hb⟩
    refine ⟨Nat.max_le.mpr ⟨ha.precedence, hb.precedence⟩, fun name h => ?_,
      Nat.max_le.mpr ⟨ha.cut, hb.cut⟩⟩
    exact (mem_unionNames.mp h).elim (ha.ambiguities ·) (hb.ambiguities ·)

theorem joinAll_le_iff : (joinAll l).Le c ↔ ∀ a ∈ l, a.Le c := by
  have hfold (a : Marks) : (l.foldl join a).Le c ↔ a.Le c ∧ ∀ b ∈ l, b.Le c := by
    induction l generalizing a with
    | nil => simp
    | cons b l ih => rw [List.foldl_cons, ih, join_le_iff, List.forall_mem_cons, and_assoc]
  rw [joinAll, hfold]
  exact and_iff_right (none_le c)

theorem IsSorted.join (ha : a.IsSorted) : (a.join b).IsSorted :=
  pairwise_unionNames ha

theorem isSorted_none : none.IsSorted :=
  List.Pairwise.nil

theorem isSorted_joinAll : (joinAll l).IsSorted :=
  List.foldlRecOn l join isSorted_none fun _ h _ _ => h.join

/-- Marks are the same if they say no more than the same others. -/
theorem eq_of_le_iff (ha : a.IsSorted) (hb : b.IsSorted) (h : ∀ c, a.Le c ↔ b.Le c) : a = b := by
  have hab : a.Le b := (h b).mpr (.refl b)
  have hba : b.Le a := (h a).mp (.refl a)
  have hambiguities : a.ambiguities = b.ambiguities :=
    List.Subset.antisymm_of_pairwise ha hb hab.ambiguities hba.ambiguities
  have hprecedence := Nat.le_antisymm hab.precedence hba.precedence
  have hcut := Nat.le_antisymm hab.cut hba.cut
  cases a
  cases b
  cases hprecedence
  cases hambiguities
  cases hcut
  rfl

/-- Joining more marks changes nothing exactly if they say no more than the others do. -/
theorem joinAll_append_eq_iff : joinAll (l ++ l') = joinAll l ↔ ∀ a ∈ l', a.Le (joinAll l) := by
  constructor
  · intro h a ha
    have hle : (joinAll (l ++ l')).Le (joinAll l) := by
      rw [h]
      exact .refl _
    exact joinAll_le_iff.mp hle a (List.mem_append_right _ ha)
  · intro h
    refine eq_of_le_iff isSorted_joinAll isSorted_joinAll fun c => ?_
    rw [joinAll_le_iff, List.forall_mem_append, ← joinAll_le_iff]
    exact and_iff_left_of_imp fun hle a ha => (h a ha).trans hle

end Marks

/-! ## §2 Phrases -/

namespace Phrase

/-- There are marks before each symbol and at the end. -/
def HasGaps (p : Phrase) : Prop :=
  p.marks.length = p.parts.length + 1

/-- There are sorted marks before each symbol and at the end. -/
structure IsMarked (p : Phrase) : Prop where
  length_eq : p.marks.length = p.parts.length + 1
  sorted : ∀ m ∈ p.marks, m.IsSorted

variable {p q : Phrase} {m c : Marks} {k : Nat}

theorem IsMarked.hasGaps (hp : p.IsMarked) : p.HasGaps :=
  hp.length_eq

theorem isMarked_empty : empty.IsMarked :=
  ⟨rfl, by simp [empty, Marks.isSorted_none]⟩

theorem isMarked_single (t : Term) : (single t).IsMarked :=
  ⟨rfl, by simp [single, Marks.isSorted_none]⟩

theorem IsMarked.sorted_marksAt (hp : p.IsMarked) (k : Nat) : (p.marksAt k).IsSorted := by
  rw [marksAt]
  cases hk : p.marks[k]? with
  | none => exact Marks.isSorted_none
  | some m => exact hp.sorted m (List.mem_of_getElem? hk)

theorem HasGaps.marksAt_le_of_lt (hp : p.HasGaps) (hk : p.parts.length < k) :
    (p.marksAt k).Le c := by
  rw [marksAt, List.getElem?_eq_none (by rw [hp]; omega)]
  exact Marks.none_le c

/-- Phrases with the same symbols and marks that say the same are the same. -/
theorem IsMarked.ext (hp : p.IsMarked) (hq : q.IsMarked) (hparts : p.parts = q.parts)
    (h : ∀ k ≤ p.parts.length, ∀ c, (p.marksAt k).Le c ↔ (q.marksAt k).Le c) : p = q := by
  have hmarks : p.marks = q.marks := by
    refine List.ext_getElem (by rw [hp.length_eq, hq.length_eq, hparts]) fun k hk hk' => ?_
    have heq := Marks.eq_of_le_iff (hp.sorted_marksAt k) (hq.sorted_marksAt k)
      (h k (by rw [hp.length_eq] at hk; omega))
    simpa [marksAt, hk, hk'] using heq
  cases p
  cases q
  cases hparts
  cases hmarks
  rfl

theorem HasGaps.exists_last (hp : p.HasGaps) :
    ∃ init, p.marks = init ++ [p.lastMarks] ∧ init.length = p.parts.length := by
  have hne : p.marks ≠ [] := List.ne_nil_of_length_eq_add_one hp
  refine ⟨p.marks.dropLast, ?_, by rw [List.length_dropLast, hp, Nat.add_sub_cancel]⟩
  rw [lastMarks, List.getLast?_eq_some_getLast hne, Option.getD_some, List.dropLast_append_getLast]

theorem HasGaps.exists_first (hp : p.HasGaps) :
    ∃ later, p.marks = p.marks.headD .none :: later ∧ later.length = p.parts.length := by
  rw [HasGaps] at hp
  cases hmarks : p.marks with
  | nil => simp [hmarks] at hp
  | cons first later => exact ⟨later, rfl, by simpa [hmarks] using hp⟩

theorem HasGaps.markEnd (hp : p.HasGaps) (m : Marks) : (p.markEnd m).HasGaps := by
  obtain ⟨init, hmarks, hlength⟩ := hp.exists_last
  simp [HasGaps, Phrase.markEnd, hmarks, hlength]

theorem HasGaps.append (hp : p.HasGaps) (hq : q.HasGaps) : (p.append q).HasGaps := by
  obtain ⟨init, hmarks, hlength⟩ := hp.exists_last
  obtain ⟨later, hmarks', hlength'⟩ := hq.exists_first
  rw [HasGaps, Phrase.append, hmarks, hmarks', List.dropLast_concat]
  simp [hlength, hlength', Nat.add_assoc]

theorem IsMarked.sorted_lastMarks (hp : p.IsMarked) : p.lastMarks.IsSorted := by
  obtain ⟨init, hmarks, -⟩ := hp.hasGaps.exists_last
  exact hp.sorted _ (hmarks ▸ List.mem_append_right _ (List.mem_singleton_self _))

theorem IsMarked.markEnd (hp : p.IsMarked) (m : Marks) : (p.markEnd m).IsMarked := by
  refine ⟨hp.hasGaps.markEnd m, fun m' hm' => ?_⟩
  obtain ⟨init, hmarks, -⟩ := hp.hasGaps.exists_last
  rw [Phrase.markEnd, hmarks, List.dropLast_concat] at hm'
  rcases List.mem_append.mp hm' with hm' | hm'
  · exact hp.sorted m' (hmarks ▸ List.mem_append_left _ hm')
  · exact List.mem_singleton.mp hm' ▸ hp.sorted_lastMarks.join

theorem IsMarked.append (hp : p.IsMarked) (hq : q.IsMarked) : (p.append q).IsMarked := by
  refine ⟨hp.hasGaps.append hq.hasGaps, fun m hm => ?_⟩
  obtain ⟨init, hmarks, -⟩ := hp.hasGaps.exists_last
  obtain ⟨later, hmarks', -⟩ := hq.hasGaps.exists_first
  rw [Phrase.append, hmarks, hmarks', List.dropLast_concat] at hm
  rcases List.mem_append.mp hm with hm | hm
  · exact hp.sorted m (hmarks ▸ List.mem_append_left _ hm)
  · rcases List.mem_cons.mp hm with rfl | hm
    · exact hp.sorted_lastMarks.join
    · exact hq.sorted m (hmarks' ▸ List.mem_cons_of_mem _ hm)

/-- Marks for the end go to the last gap. -/
theorem HasGaps.marksAt_markEnd_le (hp : p.HasGaps) : ((p.markEnd m).marksAt k).Le c ↔
    (p.marksAt k).Le c ∧ (k = p.parts.length → m.Le c) := by
  obtain ⟨init, hmarks, hlength⟩ := hp.exists_last
  rw [marksAt, marksAt, Phrase.markEnd, hmarks, List.dropLast_concat, ← hlength]
  rcases Nat.lt_trichotomy k init.length with hlt | rfl | hgt
  · simp [List.getElem?_append_left hlt, Nat.ne_of_lt hlt]
  · simp [Marks.join_le_iff]
  · obtain ⟨j, rfl⟩ := Nat.exists_eq_add_of_lt hgt
    simp [Nat.add_assoc]

/-- Where phrases meet, the marks of both fall on one gap. -/
theorem HasGaps.marksAt_append_le (hp : p.HasGaps) (hq : q.HasGaps) :
    ((p.append q).marksAt k).Le c ↔
      (p.marksAt k).Le c ∧ (p.parts.length ≤ k → (q.marksAt (k - p.parts.length)).Le c) := by
  obtain ⟨init, hmarks, hlength⟩ := hp.exists_last
  obtain ⟨later, hmarks', -⟩ := hq.exists_first
  rw [marksAt, marksAt, marksAt, Phrase.append, hmarks, List.dropLast_concat, ← hlength]
  rcases Nat.lt_trichotomy k init.length with hlt | rfl | hgt
  · simp [List.getElem?_append_left hlt, Nat.not_le_of_lt hlt]
  · rw [hmarks']
    simp [Marks.join_le_iff]
  · obtain ⟨j, rfl⟩ := Nat.exists_eq_add_of_lt hgt
    have hsub : init.length + j + 1 - init.length = j + 1 := by omega
    rw [hmarks']
    simp [List.getElem?_append_right hgt.le, hsub, hgt.le, Marks.none_le]

end Phrase

/-! ## §3 Landing -/

/-- What several markers say. -/
def GapMarks.joinAll (said : List GapMarks) : GapMarks :=
  said.foldl GapMarks.join {}

/-- The gap that the gap before an element falls on: the symbols of the elements before it are
before the gap. -/
def Phrase.offset (chosen : List Phrase) (element : Nat) : Nat :=
  ((chosen.take element).map fun p => p.parts.length).sum

/-- What lands on a gap of the phrase for a choice: marks of the chosen phrases, and what the
markers in gaps of the sequence say about their gap. -/
def Phrase.landing (chosen : List Phrase) (said : List (List GapMarks)) (gap : Nat) : List Marks :=
  (chosen.zipIdx.flatMap fun (p, element) =>
    ((List.range (p.parts.length + 1)).filter fun k => offset chosen element + k == gap).map
      p.marksAt) ++
  (said.zipIdx.filter fun (_, element) => offset chosen element == gap).flatMap fun (here, _) =>
    here.map GapMarks.here

/-- The phrase for a choice, by what lands on each of its gaps. Marks for the end of the rule land
on its last gap. -/
def Phrase.ofLandings (chosen : List Phrase) (said : List (List GapMarks)) (atEnd : List Marks) :
    Phrase :=
  let parts := chosen.flatMap Phrase.parts
  { parts
    marks := (List.range parts.length).map (fun gap => Marks.joinAll (landing chosen said gap)) ++
      [Marks.joinAll (landing chosen said parts.length ++ atEnd)] }

namespace GapMarks

theorem here_joinAll (said : List GapMarks) :
    (joinAll said).here = Marks.joinAll (said.map here) := by
  rw [joinAll, Marks.joinAll, List.foldl_map]
  exact (List.foldl_hom here fun _ _ => rfl).symm

theorem atEnd_joinAll (said : List GapMarks) :
    (joinAll said).atEnd = Marks.joinAll (said.map atEnd) := by
  rw [joinAll, Marks.joinAll, List.foldl_map]
  exact (List.foldl_hom atEnd fun _ _ => rfl).symm

end GapMarks

namespace Phrase

variable {p : Phrase} {chosen : List Phrase} {gap : List GapMarks} {said : List (List GapMarks)}
  {k : Nat} {P : Marks → Prop}

theorem offset_succ (p : Phrase) (chosen : List Phrase) (element : Nat) :
    offset (p :: chosen) (element + 1) = p.parts.length + offset chosen element := by
  simp [offset]

theorem offset_zero (chosen : List Phrase) : offset chosen 0 = 0 := rfl

theorem forall_landing_iff : (∀ m ∈ landing chosen said k, P m) ↔
    (∀ j p, chosen[j]? = some p → ∀ i ≤ p.parts.length, offset chosen j + i = k → P (p.marksAt i)) ∧
      ∀ j gap, said[j]? = some gap → offset chosen j = k → ∀ g ∈ gap, P g.here := by
  simp only [landing, List.forall_mem_append, List.forall_mem_flatMap, List.forall_mem_map,
    List.mem_filter, List.mem_range, beq_iff_eq, Prod.forall, List.mem_zipIdx_iff_getElem?,
    Nat.lt_succ_iff, and_imp]
  refine and_congr ?_ ?_
  · exact ⟨fun h j p => h p j, fun h p j => h j p⟩
  · exact ⟨fun h j gap => h gap j, fun h gap j => h j gap⟩

/-- What lands on a gap: what markers before the first element say, marks of its phrase, and what
lands behind it. -/
theorem forall_landing_cons : (∀ m ∈ landing (p :: chosen) (gap :: said) k, P m) ↔
    (k = 0 → ∀ g ∈ gap, P g.here) ∧ (k ≤ p.parts.length → P (p.marksAt k)) ∧
      (p.parts.length ≤ k → ∀ m ∈ landing chosen said (k - p.parts.length), P m) := by
  simp only [forall_landing_iff]
  constructor
  · rintro ⟨hparts, hgaps⟩
    refine ⟨fun hk => hgaps 0 gap rfl hk.symm,
      fun hk => hparts 0 p rfl k hk (by rw [offset_zero, Nat.zero_add]), fun hk => ⟨?_, ?_⟩⟩
    · intro j q hj i hi heq
      exact hparts (j + 1) q hj i hi (by rw [offset_succ]; omega)
    · intro j gap' hj heq
      exact hgaps (j + 1) gap' hj (by rw [offset_succ]; omega)
  · rintro ⟨hfirst, hp, hlater⟩
    constructor
    · intro j q hj i hi heq
      cases j with
      | zero =>
        obtain rfl := Option.some.inj hj
        rw [offset_zero, Nat.zero_add] at heq
        exact heq ▸ hp (heq ▸ hi)
      | succ j =>
        rw [offset_succ] at heq
        exact (hlater (by omega)).1 j q hj i hi (by omega)
    · intro j gap' hj heq
      cases j with
      | zero =>
        obtain rfl := Option.some.inj hj
        exact hfirst heq.symm
      | succ j =>
        rw [offset_succ] at heq
        exact (hlater (by omega)).2 j gap' hj (by omega)

theorem forall_landing_nil : (∀ m ∈ landing [] [gap] k, P m) ↔ (k = 0 → ∀ g ∈ gap, P g.here) := by
  rw [forall_landing_iff]
  constructor
  · exact fun h hk => h.2 0 gap rfl hk.symm
  · refine fun h => ⟨nofun, fun j gap' hj heq => ?_⟩
    obtain ⟨-, rfl⟩ : j = 0 ∧ gap = gap' := by simpa [List.getElem?_singleton] using hj
    exact h (by simpa [offset] using heq.symm)

end Phrase

/-! ## §4 Sequences -/

/-- The phrase for a choice, element by element. -/
def Phrase.ofChoice : (chosen : List Phrase) → (gaps : List GapMarks) → (done : Phrase) →
    (atEnd : Marks) → Phrase
  | [], gaps, done, atEnd => done.markEnd ((gaps.headD {}).here.join atEnd)
  | p :: chosen, gaps, done, atEnd =>
    let gap := gaps.headD {}
    ofChoice chosen gaps.tail ((done.markEnd gap.here).append p) (atEnd.join gap.atEnd)

/-- A sequence stands for one phrase for each choice. -/
theorem mem_sequencePhrases_iff {elements : List (List Phrase)} {gaps : List GapMarks}
    {done p : Phrase} {atEnd : Marks} : p ∈ sequencePhrases elements gaps done atEnd ↔
      ∃ chosen, List.Forall₂ (· ∈ ·) chosen elements ∧ p = .ofChoice chosen gaps done atEnd := by
  induction elements generalizing gaps done atEnd with
  | nil => simp [sequencePhrases, Phrase.ofChoice]
  | cons phrases elements ih =>
    simp only [sequencePhrases, List.mem_flatMap, ih]
    constructor
    · rintro ⟨q, hq, chosen, hchosen, rfl⟩
      exact ⟨q :: chosen, .cons hq hchosen, rfl⟩
    · rintro ⟨_, _ | ⟨hq, hchosen⟩, rfl⟩
      exact ⟨_, hq, _, hchosen, rfl⟩

namespace Phrase

variable {chosen : List Phrase} {said : List (List GapMarks)} {done : Phrase} {atEnd : Marks}

theorem isMarked_ofChoice {gaps : List GapMarks} (hchosen : ∀ p ∈ chosen, p.IsMarked)
    (hdone : done.IsMarked) : (ofChoice chosen gaps done atEnd).IsMarked := by
  induction chosen generalizing gaps done atEnd with
  | nil => exact hdone.markEnd _
  | cons p chosen ih =>
    obtain ⟨hp, hchosen⟩ := List.forall_mem_cons.mp hchosen
    exact ih hchosen ((hdone.markEnd _).append hp)

/-- What the phrase for a choice says in each of its gaps. Markers of all gaps but the last one say
something about the end of the rule. -/
theorem ofChoice_spec (hchosen : ∀ p ∈ chosen, p.IsMarked)
    (hlength : said.length = chosen.length + 1) (hdone : done.IsMarked) :
    let p := ofChoice chosen (said.map GapMarks.joinAll) done atEnd
    p.parts = done.parts ++ chosen.flatMap parts ∧
      ∀ k c, (p.marksAt k).Le c ↔ (done.marksAt k).Le c ∧
        (done.parts.length ≤ k → ∀ m ∈ landing chosen said (k - done.parts.length), m.Le c) ∧
        (k = p.parts.length → atEnd.Le c ∧ ∀ g ∈ said.dropLast.flatten, g.atEnd.Le c) := by
  induction chosen generalizing said done atEnd with
  | nil =>
    obtain ⟨gap, rfl⟩ := List.length_eq_one_iff.mp hlength
    refine ⟨by simp [ofChoice, markEnd], fun k c => ?_⟩
    rw [ofChoice, hdone.hasGaps.marksAt_markEnd_le, Marks.join_le_iff]
    simp only [List.map_singleton, List.headD_cons, GapMarks.here_joinAll, Marks.joinAll_le_iff,
      List.forall_mem_map, forall_landing_nil, markEnd]
    have hk : done.parts.length ≤ k → k - done.parts.length = 0 → k = done.parts.length := by omega
    constructor
    · rintro ⟨hmarks, hend⟩
      exact ⟨hmarks, fun hle hzero => (hend (hk hle hzero)).1, fun heq => ⟨(hend heq).2, by simp⟩⟩
    · rintro ⟨hmarks, hhere, hend⟩
      exact ⟨hmarks, fun heq => ⟨hhere heq.ge (by omega), (hend heq).1⟩⟩
  | cons p chosen ih =>
    obtain ⟨gap, said, rfl⟩ := List.exists_cons_of_length_eq_add_one hlength
    obtain ⟨hp, hchosen⟩ := List.forall_mem_cons.mp hchosen
    have hdone' := (hdone.markEnd (GapMarks.joinAll gap).here).append hp
    have hsaid : said ≠ [] := by
      rintro rfl
      simp at hlength
    obtain ⟨hparts, hle⟩ :=
      @ih said _ (atEnd.join (GapMarks.joinAll gap).atEnd) hchosen (by simpa using hlength) hdone'
    simp only [List.map_cons, ofChoice, List.headD_cons, List.tail_cons]
    refine ⟨hparts.trans (by simp [append, markEnd]), fun k c => ?_⟩
    have hlengthDone : ((done.markEnd (GapMarks.joinAll gap).here).append p).parts.length =
        done.parts.length + p.parts.length := by
      simp [append, markEnd]
    rw [hle, (hdone.markEnd _).hasGaps.marksAt_append_le hp.hasGaps,
      hdone.hasGaps.marksAt_markEnd_le, hlengthDone, Marks.join_le_iff, GapMarks.here_joinAll,
      GapMarks.atEnd_joinAll, Marks.joinAll_le_iff, Marks.joinAll_le_iff, List.forall_mem_map,
      List.forall_mem_map, forall_landing_cons, List.dropLast_cons_of_ne_nil hsaid,
      List.flatten_cons, List.forall_mem_append]
    have hwithin := (le_or_gt (k - done.parts.length) p.parts.length).imp_right
      (hp.hasGaps.marksAt_le_of_lt (c := c))
    have hsub : k - (done.parts.length + p.parts.length) =
        k - done.parts.length - p.parts.length := by omega
    rw [hsub, markEnd]
    constructor
    · rintro ⟨⟨⟨h₁, h₂⟩, h₃⟩, h₄, h₅⟩
      refine ⟨h₁, fun hk => ⟨fun hzero => h₂ (by omega), fun _ => h₃ hk, fun hk' => h₄ (by omega)⟩,
        fun hk => ?_⟩
      obtain ⟨⟨h₆, h₇⟩, h₈⟩ := h₅ hk
      exact ⟨h₆, h₇, h₈⟩
    · rintro ⟨h₁, h₂, h₃⟩
      refine ⟨⟨⟨h₁, fun hk => (h₂ (by omega)).1 (by omega)⟩, fun hk => ?_⟩, fun hk => ?_, fun hk => ?_⟩
      · exact hwithin.elim (h₂ hk).2.1 id
      · exact (h₂ (by omega)).2.2 (by omega)
      · obtain ⟨h₆, h₇, h₈⟩ := h₃ hk
        exact ⟨⟨h₆, h₇⟩, h₈⟩

theorem marksAt_ofLandings_of_lt {atEnd : List Marks} {k : Nat}
    (hk : k < (chosen.flatMap parts).length) :
    (ofLandings chosen said atEnd).marksAt k = Marks.joinAll (landing chosen said k) := by
  have hlt : k < ((List.range (chosen.flatMap parts).length).map fun gap =>
      Marks.joinAll (landing chosen said gap)).length := by simpa using hk
  rw [marksAt, ofLandings, List.getElem?_append_left hlt, List.getElem?_map,
    List.getElem?_range hk, Option.map_some, Option.getD_some]

theorem lastMarks_ofLandings {atEnd : List Marks} : (ofLandings chosen said atEnd).lastMarks =
    Marks.joinAll (landing chosen said (chosen.flatMap parts).length ++ atEnd) := by
  simp [lastMarks, ofLandings]

theorem marksAt_length_ofLandings {atEnd : List Marks} :
    (ofLandings chosen said atEnd).marksAt (chosen.flatMap parts).length =
      Marks.joinAll (landing chosen said (chosen.flatMap parts).length ++ atEnd) := by
  simp [marksAt, ofLandings]

theorem isMarked_ofLandings {atEnd : List Marks} : (ofLandings chosen said atEnd).IsMarked := by
  constructor
  · simp [ofLandings]
  · intro m hm
    rw [ofLandings] at hm
    rcases List.mem_append.mp hm with hm | hm
    · obtain ⟨k, -, rfl⟩ := List.mem_map.mp hm
      exact Marks.isSorted_joinAll
    · exact List.mem_singleton.mp hm ▸ Marks.isSorted_joinAll

/-- The phrase for a choice has the symbols of the chosen phrases, and marks by what lands on its
gaps. -/
theorem ofChoice_eq_ofLandings (hchosen : ∀ p ∈ chosen, p.IsMarked)
    (hlength : said.length = chosen.length + 1) :
    ofChoice chosen (said.map GapMarks.joinAll) .empty .none =
      ofLandings chosen said (said.dropLast.flatten.map GapMarks.atEnd) := by
  obtain ⟨hparts, hle⟩ := @ofChoice_spec _ said .empty .none hchosen hlength isMarked_empty
  rw [empty, List.nil_append] at hparts
  refine (isMarked_ofChoice hchosen isMarked_empty).ext isMarked_ofLandings hparts fun k hk c => ?_
  have hempty : (empty.marksAt k).Le c := by
    cases k <;> exact Marks.none_le c
  rw [hle, and_iff_right hempty]
  simp only [empty, List.length_nil, Nat.zero_le, true_imp_iff, Nat.sub_zero, Marks.none_le,
    true_and]
  change _ ∧ (k = (ofChoice chosen (said.map GapMarks.joinAll) .empty .none).parts.length → _) ↔ _
  change k ≤ (ofChoice chosen (said.map GapMarks.joinAll) .empty .none).parts.length at hk
  rw [empty, hparts] at hk ⊢
  rcases Nat.lt_or_eq_of_le hk with hlt | rfl
  · rw [marksAt_ofLandings_of_lt hlt, Marks.joinAll_le_iff]
    exact and_iff_left fun heq => absurd heq (Nat.ne_of_lt hlt)
  · rw [marksAt_length_ofLandings, Marks.joinAll_le_iff, List.forall_mem_append, List.forall_mem_map]
    simp

end Phrase

/-! ## §5 Builds -/

namespace GapMarks

variable {items : List PrecedenceItem}

/-- What each marker says, gap by gap. -/
def ofGaps (items : List PrecedenceItem) (markers : List (List Marker)) :
    Except (GrammarFault × Option Nat) (List (List GapMarks)) :=
  markers.mapM fun here => here.mapM (ofMarker items)

/-- What the markers of a gap say is joined. -/
theorem ofMarkers_eq (markers : List Marker) :
    ofMarkers items markers = joinAll <$> markers.mapM (ofMarker items) := by
  have hfold (g : GapMarks) : markers.foldlM (fun g m => do return g.join (← ofMarker items m)) g =
      List.foldl join g <$> markers.mapM (ofMarker items) := by
    induction markers generalizing g with
    | nil => rfl
    | cons m markers ih =>
      rw [List.foldlM_cons, List.mapM_cons]
      cases ofMarker items m with
      | error e => rfl
      | ok g' =>
        refine (ih (g.join g')).trans ?_
        cases markers.mapM (ofMarker items) <;> rfl
  exact hfold {}

theorem mapM_ofMarkers_eq (markers : List (List Marker)) :
    markers.mapM (ofMarkers items) = List.map joinAll <$> ofGaps items markers := by
  rw [ofGaps]
  induction markers with
  | nil => rfl
  | cons here markers ih =>
    rw [List.mapM_cons, List.mapM_cons, ofMarkers_eq, ih]
    cases here.mapM (ofMarker items) with
    | error e => rfl
    | ok g =>
      cases markers.mapM fun here => here.mapM (ofMarker items) <;> rfl

/-- A marker says nothing but a precedence about the end of the rule. -/
theorem atEnd_le_iff {m : Marker} {g : GapMarks} (h : ofMarker items m = .ok g) {c : Marks} :
    g.atEnd.Le c ↔ g.atEnd.precedence ≤ c.precedence := by
  have hplain : g.atEnd.ambiguities = [] ∧ g.atEnd.cut = 0 := by
    rw [ofMarker.eq_def] at h
    split at h
    · cases h
      exact ⟨rfl, rfl⟩
    · split at h
      · cases h
      · cases h
        rw [ofPrecedence.eq_def]
        split <;> exact ⟨rfl, rfl⟩
  refine ⟨Marks.Le.precedence, fun hle => ⟨hle, ?_, ?_⟩⟩
  · rw [hplain.1]
    exact List.nil_subset _
  · rw [hplain.2]
    exact Nat.zero_le _

end GapMarks

/-- The items of the list of precedences, those that win first. -/
def GrammarDecl.precedenceItems (decl : GrammarDecl) : List PrecedenceItem :=
  (decl.precedences.map PrecedenceDecl.items).getD []

namespace Build

variable {ctx : Declared} {d : Draft} {again : Normalizer}

theorem yields_isMarked_mapM (hagain : ∀ skip e d, Yields ctx d (again skip e) fun phrases _ =>
      ∀ p ∈ phrases, p.IsMarked) (skip : Term) (es : List Expr) :
    Yields ctx d (es.mapM (again skip)) fun found _ => found.length = es.length ∧
      ∀ phrases ∈ found, ∀ p ∈ phrases, p.IsMarked := by
  induction es generalizing d with
  | nil => exact yields_pure ⟨rfl, nofun⟩
  | cons e es ih =>
    rw [List.mapM_cons]
    refine (hagain skip e d).bind fun phrases d₁ hphrases => ?_
    exact ih.bind fun found d₂ ⟨hlength, hfound⟩ =>
      yields_pure ⟨congrArg (· + 1) hlength, List.forall_mem_cons.mpr ⟨hphrases, hfound⟩⟩

/-- All phrases have marks in every gap. -/
theorem yields_isMarked_normalizeWith (hagain : ∀ skip e d, Yields ctx d (again skip e)
      fun phrases _ => ∀ p ∈ phrases, p.IsMarked) (skip : Term) (e : Expr) :
    Yields ctx d (normalizeWith again skip e) fun phrases _ => ∀ p ∈ phrases, p.IsMarked := by
  have hall (es : List Expr) := yields_isMarked_mapM (d := d) hagain skip es
  have hany {α : Type} (m : Build α) (d : Draft) : Yields ctx d m fun _ _ => True :=
    fun _ _ _ => trivial
  have hsingle {m : Build Term} {d : Draft} : Yields ctx d (do return [Phrase.single (← m)])
      fun phrases _ => ∀ p ∈ phrases, p.IsMarked :=
    (hany m d).bind fun t _ _ =>
      yields_pure (List.forall_mem_singleton.mpr (Phrase.isMarked_single t))
  unfold normalizeWith
  split
  · exact (hagain _ _ _).bind fun phrases _ hphrases =>
      yields_pure (List.forall_mem_cons.mpr ⟨Phrase.isMarked_empty, hphrases⟩)
  · exact hsingle
  · exact (hany _ _).bind fun t _ _ => yields_pure (List.forall_mem_cons.mpr
      ⟨Phrase.isMarked_empty, List.forall_mem_singleton.mpr (Phrase.isMarked_single t)⟩)
  · refine (hall _).bind fun found _ ⟨_, hfound⟩ => yields_pure fun p hp => ?_
    obtain ⟨phrases, hphrases, hp⟩ := List.mem_flatten.mp hp
    exact hfound phrases hphrases p hp
  · refine (hall _).bind fun found _ ⟨_, hfound⟩ => yields_read_bind (yields_check_bind fun gaps _ =>
      yields_pure fun p hp => ?_)
    obtain ⟨chosen, hchosen, rfl⟩ := mem_sequencePhrases_iff.mp hp
    refine Phrase.isMarked_ofChoice (fun p hp => ?_) Phrase.isMarked_empty
    obtain ⟨phrases, hphrases, hmem⟩ := exists_of_mem_forall₂ hchosen hp
    exact hfound phrases hphrases p hmem
  · exact hsingle
  · exact hsingle
  · exact yields_read_bind (yields_check_bind fun info _ => (hany _ _).bind fun _ _ _ => hsingle)
  · exact hsingle
  · exact yields_pure (List.forall_mem_singleton.mpr (Phrase.isMarked_single _))
  all_goals exact yields_raise _ _

theorem yields_isMarked_normalizeTo (fuel : Nat) (skip : Term) (e : Expr) :
    Yields ctx d (normalizeTo fuel skip e) fun phrases _ => ∀ p ∈ phrases, p.IsMarked := by
  induction fuel generalizing d skip e with
  | zero => exact yields_raise _ _
  | succ fuel ih => exact yields_isMarked_normalizeWith (fun skip e d => ih skip e) skip e

theorem yields_sequence (fuel : Nat) (skip : Term) (start : Nat) (elements : List Expr)
    (markers : List (List Marker)) : Yields ctx d
      (normalizeTo (fuel + 1) skip (.sequence start elements markers)) fun phrases d' =>
        ∃ choices gaps, elements.mapM (normalizeTo fuel skip) ctx d = .ok choices d' ∧
          markers.mapM (GapMarks.ofMarkers ctx.decl.precedenceItems) = .ok gaps ∧
          phrases = sequencePhrases choices gaps .empty .none := by
  have hchoices : Yields ctx d (elements.mapM (normalizeTo fuel skip)) fun choices d₁ =>
      elements.mapM (normalizeTo fuel skip) ctx d = .ok choices d₁ := fun _ _ h => h
  exact hchoices.bind fun choices d₁ hchoices => yields_read_bind (yields_check_bind
    fun gaps hgaps => yields_pure ⟨choices, gaps, hchoices, hgaps, rfl⟩)

/-- The phrases of a sequence, by what lands on their gaps. -/
theorem exists_landings {fuel : Nat} {skip : Term} {start : Nat} {elements : List Expr}
    {markers : List (List Marker)} {phrases : List Phrase} {d' : Draft}
    (hlength : markers.length = elements.length + 1)
    (h : normalizeTo (fuel + 1) skip (.sequence start elements markers) ctx d = .ok phrases d') :
    ∃ choices said, elements.mapM (normalizeTo fuel skip) ctx d = .ok choices d' ∧
      GapMarks.ofGaps ctx.decl.precedenceItems markers = .ok said ∧
      ∀ p, p ∈ phrases ↔ ∃ chosen, List.Forall₂ (· ∈ ·) chosen choices ∧
        p = .ofLandings chosen said (said.dropLast.flatten.map GapMarks.atEnd) := by
  obtain ⟨choices, gaps, hchoices, hgaps, rfl⟩ :=
    yields_sequence fuel skip start elements markers _ _ h
  obtain ⟨hcount, hmarked⟩ := yields_isMarked_mapM
    (fun skip e _ => yields_isMarked_normalizeTo fuel skip e) skip elements _ _ hchoices
  rw [GapMarks.mapM_ofMarkers_eq] at hgaps
  cases hsaid : GapMarks.ofGaps ctx.decl.precedenceItems markers with
  | error e =>
    rw [hsaid] at hgaps
    cases hgaps
  | ok said =>
    rw [hsaid] at hgaps
    obtain rfl : said.map GapMarks.joinAll = gaps := Except.ok.inj hgaps
    have hsame : said.length = choices.length + 1 := by
      rw [← (forall₂_of_mapM hsaid).length_eq, hlength, hcount]
    refine ⟨choices, said, hchoices, rfl, fun p => ?_⟩
    rw [mem_sequencePhrases_iff]
    refine exists_congr fun chosen => and_congr_right fun hchosen => ?_
    rw [Phrase.ofChoice_eq_ofLandings (fun p hp => ?_) (by rw [hsame, hchosen.length_eq])]
    obtain ⟨phrases, hphrases, hmem⟩ := exists_of_mem_forall₂ hchosen hp
    exact hmarked phrases hphrases p hmem

/-- Every phrase of a sequence has the symbols of one choice of phrases for the elements, and one
entry of marks for each gap. An entry joins what lands on the gap: marks of the chosen phrases, and
what all markers in gaps of the sequence that fall on this gap say about it. The last entry also
joins what the markers say about the end of the rule, except for those in the last gap. So it joins
what all markers say about the end exactly if those in the last gap say nothing more about it. -/
theorem normalizeTo_sequence {fuel : Nat} {skip : Term} {start : Nat} {elements : List Expr}
    {markers : List (List Marker)} {phrases : List Phrase} {d' : Draft}
    (hlength : markers.length = elements.length + 1)
    (h : normalizeTo (fuel + 1) skip (.sequence start elements markers) ctx d = .ok phrases d') :
    ∃ choices said, elements.mapM (normalizeTo fuel skip) ctx d = .ok choices d' ∧
      GapMarks.ofGaps ctx.decl.precedenceItems markers = .ok said ∧
      (∀ p, p ∈ phrases ↔ ∃ chosen, List.Forall₂ (· ∈ ·) chosen choices ∧
        p = .ofLandings chosen said (said.dropLast.flatten.map GapMarks.atEnd)) ∧
      ∀ chosen, List.Forall₂ (· ∈ ·) chosen choices →
        let p := Phrase.ofLandings chosen said (said.dropLast.flatten.map GapMarks.atEnd)
        p.parts = chosen.flatMap Phrase.parts ∧ p.marks.length = p.parts.length + 1 ∧
          (∀ gap < p.parts.length,
            p.marksAt gap = Marks.joinAll (Phrase.landing chosen said gap)) ∧
          (p.lastMarks = Marks.joinAll (Phrase.landing chosen said p.parts.length ++
              said.flatten.map GapMarks.atEnd) ↔
            ∀ last ∈ said.getLast?, ∀ g ∈ last, g.atEnd.precedence ≤ p.lastMarks.precedence) := by
  obtain ⟨choices, said, hchoices, hsaid, hphrases⟩ := exists_landings hlength h
  refine ⟨choices, said, hchoices, hsaid, hphrases, fun chosen hchosen => ?_⟩
  refine ⟨rfl, Phrase.isMarked_ofLandings.length_eq,
    fun gap hgap => Phrase.marksAt_ofLandings_of_lt hgap, ?_⟩
  have hne : said ≠ [] := by
    rintro rfl
    have := (forall₂_of_mapM hsaid).length_eq
    simp [hlength] at this
  obtain ⟨init, last, rfl⟩ := List.eq_nil_or_concat' said |>.resolve_left hne
  have hend (g : GapMarks) (hg : g ∈ last) (c : Marks) :
      g.atEnd.Le c ↔ g.atEnd.precedence ≤ c.precedence := by
    obtain ⟨here, -, hhere⟩ := exists_of_mem_forall₂ (forall₂_of_mapM hsaid).flip
      (List.mem_append_right init (List.mem_singleton_self last))
    obtain ⟨m, -, hm⟩ := exists_of_mem_forall₂ (forall₂_of_mapM hhere).flip hg
    exact GapMarks.atEnd_le_iff hm
  rw [Phrase.lastMarks_ofLandings, List.dropLast_concat, List.getLast?_concat, List.flatten_append,
    List.flatten_singleton, List.map_append, ← List.append_assoc, eq_comm]
  refine Marks.joinAll_append_eq_iff.trans ?_
  simp only [List.forall_mem_map, Option.mem_some_iff, forall_eq']
  exact forall₂_congr fun g hg => hend g hg _

end Build

/-- Works through the sequence that is the body of a rule, when everything is built, and checks the
phrases. -/
def checksSequence (source : Text.Source) (name : String)
    (p : GrammarDecl → List (List Marker) → List Phrase → Bool) : Bool :=
  (Blueprint.ofSource source).1.toOption.any fun b => b.decl.rules.any fun rule =>
    rule.id.name == name &&
      match rule.body with
      | .sequence start elements markers =>
        decide (markers.length = elements.length + 1) &&
          match Build.normalizeTo 3 b.draft.noSkip (.sequence start elements markers)
            ⟨source, b.decl⟩ b.draft with
          | .ok phrases _ => p b.decl markers phrases
          | .error _ _ => false
      | _ => false

theorem exists_of_checksSequence {source : Text.Source} {name : String}
    {p : GrammarDecl → List (List Marker) → List Phrase → Bool}
    (h : checksSequence source name p = true) : ∃ b journal,
      Blueprint.ofSource source = (.ok b, journal) ∧ ∃ rule ∈ b.decl.rules, rule.id.name = name ∧
        ∃ start elements markers phrases d', rule.body = .sequence start elements markers ∧
          markers.length = elements.length + 1 ∧
          Build.normalizeTo 3 b.draft.noSkip rule.body ⟨source, b.decl⟩ b.draft = .ok phrases d' ∧
          p b.decl markers phrases = true := by
  obtain ⟨b, journal, hsource, h⟩ := exists_ok_fst_of_any h
  obtain ⟨rule, hrule, h⟩ := List.any_eq_true.mp h
  obtain ⟨hname, h⟩ := (Bool.and_eq_true _ _).mp h
  split at h
  next start elements markers hbody =>
    obtain ⟨hlength, h⟩ := (Bool.and_eq_true _ _).mp h
    split at h
    next phrases d' hrun =>
      exact ⟨b, journal, hsource, rule, hrule, beq_iff_eq.mp hname, start, elements, markers,
        phrases, d', hbody, of_decide_eq_true hlength, hbody ▸ hrun, h⟩
    next => cases h
  next => cases h

/-- Two operators on one level that associate to the left. One of them has its marker in front of
the operator, the other one has it at the end. -/
def markerAtEnd : Text.Source :=
  ⟨"", "@precedence \x7b p @left \x7d @top T \x7b e \x7d e \x7b s | m | \"x\" \x7d " ++
    "s \x7b e !p \"+\" e \x7d m \x7b e \"*\" e !p \x7d"⟩

/-- The marker in front of the operator says something about the end of the rule. -/
theorem normalizeTo_markerInFront : ∃ b journal,
    Blueprint.ofSource markerAtEnd = (.ok b, journal) ∧ ∃ rule ∈ b.decl.rules, rule.id.name = "s" ∧
      ∃ start elements markers phrases d', rule.body = .sequence start elements markers ∧
        markers.length = elements.length + 1 ∧
        Build.normalizeTo 3 b.draft.noSkip rule.body ⟨markerAtEnd, b.decl⟩ b.draft =
          .ok phrases d' ∧ ∃ said, GapMarks.ofGaps b.decl.precedenceItems markers = .ok said ∧
            ∃ chosen, ∃ p ∈ phrases, p.lastMarks.precedence = 5 ∧
              p.lastMarks = Marks.joinAll (Phrase.landing chosen said p.parts.length ++
                said.flatten.map GapMarks.atEnd) := by
  have hcheck : checksSequence markerAtEnd "s" (fun decl markers phrases =>
      !phrases.isEmpty && (phrases.all (fun p => p.lastMarks.precedence == 5) &&
        (GapMarks.ofGaps decl.precedenceItems markers).toOption.any fun said =>
          said.getLast?.all List.isEmpty)) = true := by
    decide +kernel
  obtain ⟨b, journal, hsource, rule, hrule, hname, start, elements, markers, phrases, d', hbody,
    hlength, hrun, hcheck⟩ := exists_of_checksSequence hcheck
  obtain ⟨hsome, hcheck⟩ := (Bool.and_eq_true _ _).mp hcheck
  obtain ⟨hlast, hcheck⟩ := (Bool.and_eq_true _ _).mp hcheck
  obtain ⟨said, hsaid, hempty⟩ := exists_ok_of_any hcheck
  obtain ⟨choices, _, hchoices, hsame, hphrases, hmarks⟩ :=
    Build.normalizeTo_sequence hlength (hbody ▸ hrun)
  obtain rfl := Except.ok.inj (hsaid.symm.trans hsame)
  obtain ⟨p, hp⟩ := List.exists_mem_of_ne_nil phrases (by simpa using hsome)
  obtain ⟨chosen, hchosen, rfl⟩ := (hphrases p).mp hp
  refine ⟨b, journal, hsource, rule, hrule, hname, start, elements, markers, phrases, d', hbody,
    hlength, hrun, said, hsaid, chosen, _, hp, beq_iff_eq.mp (List.all_eq_true.mp hlast _ hp),
    (hmarks chosen hchosen).2.2.2.mpr fun last h => ?_⟩
  rw [Option.mem_def.mp h] at hempty
  rw [List.isEmpty_iff.mp hempty]
  exact nofun

/-- The marker at the end says nothing about it. -/
theorem normalizeTo_markerAtEnd : ∃ b journal,
    Blueprint.ofSource markerAtEnd = (.ok b, journal) ∧ ∃ rule ∈ b.decl.rules, rule.id.name = "m" ∧
      ∃ start elements markers phrases d', rule.body = .sequence start elements markers ∧
        markers.length = elements.length + 1 ∧
        Build.normalizeTo 3 b.draft.noSkip rule.body ⟨markerAtEnd, b.decl⟩ b.draft =
          .ok phrases d' ∧ ∃ choices d'' said chosen,
            elements.mapM (Build.normalizeTo 2 b.draft.noSkip) ⟨markerAtEnd, b.decl⟩ b.draft =
              .ok choices d'' ∧
            GapMarks.ofGaps b.decl.precedenceItems markers = .ok said ∧
            List.Forall₂ (· ∈ ·) chosen choices ∧
            ∃ p ∈ phrases, p.parts = chosen.flatMap Phrase.parts ∧
              p.lastMarks ≠ Marks.joinAll (Phrase.landing chosen said p.parts.length ++
                said.flatten.map GapMarks.atEnd) := by
  have hcheck : checksSequence markerAtEnd "m" (fun decl markers phrases =>
      !phrases.isEmpty && (phrases.all (fun p => p.lastMarks.precedence == 4) &&
        (GapMarks.ofGaps decl.precedenceItems markers).toOption.any fun said =>
          said.flatten.any fun g => g.atEnd.precedence == 5)) = true := by
    decide +kernel
  obtain ⟨b, journal, hsource, rule, hrule, hname, start, elements, markers, phrases, d', hbody,
    hlength, hrun, hcheck⟩ := exists_of_checksSequence hcheck
  obtain ⟨hsome, hcheck⟩ := (Bool.and_eq_true _ _).mp hcheck
  obtain ⟨hlast, hcheck⟩ := (Bool.and_eq_true _ _).mp hcheck
  obtain ⟨said, hsaid, hcheck⟩ := exists_ok_of_any hcheck
  obtain ⟨g, hg, hend⟩ := List.any_eq_true.mp hcheck
  obtain ⟨choices, _, hchoices, hsame, hphrases⟩ := Build.exists_landings hlength (hbody ▸ hrun)
  obtain rfl := Except.ok.inj (hsaid.symm.trans hsame)
  obtain ⟨p, hp⟩ := List.exists_mem_of_ne_nil phrases (by simpa using hsome)
  obtain ⟨chosen, hchosen, hparts⟩ := (hphrases p).mp hp
  refine ⟨b, journal, hsource, rule, hrule, hname, start, elements, markers, phrases, d', hbody,
    hlength, hrun, choices, d', said, chosen, hchoices, hsaid, hchosen, p, hp, hparts ▸ rfl, ?_⟩
  intro heq
  have hle : g.atEnd.Le p.lastMarks := by
    rw [heq]
    exact Marks.joinAll_le_iff.mp (.refl _) _
      (List.mem_append_right _ (List.mem_map_of_mem hg))
  have hprecedence := hle.precedence
  rw [beq_iff_eq.mp (List.all_eq_true.mp hlast p hp), beq_iff_eq.mp hend] at hprecedence
  omega

end GrammarCompiler
