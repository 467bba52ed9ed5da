/-
GrammarCompiler.Proofs.Nesting — phrases of sequences within sequences.

A sequence is taken for its pieces in order: what the markers say, and the phrases of
the elements. To choose a phrase for each element gives a row of marks and phrases,
which are put together. A sequence in a sequence can be replaced by its pieces, unless
what its markers say about the end of the rule gets lost: its own phrases end earlier
than those of the sequence around it. So either its markers say nothing about the end,
or no element comes behind it.

  §1 Phrases  — marks between phrases, as phrases without symbols.
  §2 Rows     — the phrase that a row of marks and phrases comes to.
  §3 Choices  — all rows for given pieces.
  §4 Elements — the phrases of a sequence, from its pieces.
-/
import GrammarCompiler.Proofs.Marking

namespace GrammarCompiler

/-! ## §1 Phrases -/

namespace Marks

variable {a b : Marks} {l l' : List Marks}

theorem join_comm (ha : a.IsSorted) (hb : b.IsSorted) : a.join b = b.join a :=
  eq_of_le_iff ha.join hb.join fun c => by rw [join_le_iff, join_le_iff, and_comm]

theorem join_joinAll (l l' : List Marks) : (joinAll l).join (joinAll l') = joinAll (l ++ l') := by
  refine eq_of_le_iff isSorted_joinAll.join isSorted_joinAll fun c => ?_
  rw [join_le_iff, joinAll_le_iff, joinAll_le_iff, joinAll_le_iff, List.forall_mem_append]

theorem joinAll_append_comm : joinAll (l ++ l') = joinAll (l' ++ l) := by
  rw [← join_joinAll, ← join_joinAll, join_comm isSorted_joinAll isSorted_joinAll]

end Marks

namespace Phrase

/-- The phrase without symbols that has marks. -/
def gap (m : Marks) : Phrase := ⟨[], [m]⟩

variable {p q r : Phrase} {m m' : Marks}

theorem isMarked_gap (h : m.IsSorted) : (gap m).IsMarked :=
  ⟨rfl, List.forall_mem_singleton.mpr h⟩

theorem markEnd_eq (p : Phrase) (m : Marks) : p.markEnd m = p.append (gap m) := by
  simp [markEnd, append, gap]

theorem gap_append_gap (m m' : Marks) : (gap m).append (gap m') = gap (m.join m') := rfl

theorem gap_append_comm (h : m.IsSorted) (h' : m'.IsSorted) :
    (gap m).append (gap m') = (gap m').append (gap m) := by
  rw [gap_append_gap, gap_append_gap, Marks.join_comm h h']

theorem IsMarked.append_empty (hp : p.IsMarked) : p.append empty = p := by
  refine (hp.append isMarked_empty).ext hp (List.append_nil _) fun k _ c => ?_
  rw [hp.hasGaps.marksAt_append_le isMarked_empty.hasGaps]
  refine and_iff_left fun _ => ?_
  cases k - p.parts.length <;> exact Marks.none_le c

theorem IsMarked.empty_append (hp : p.IsMarked) : empty.append p = p := by
  refine (isMarked_empty.append hp).ext hp rfl fun k _ c => ?_
  rw [isMarked_empty.hasGaps.marksAt_append_le hp.hasGaps]
  have hempty : (empty.marksAt k).Le c := by
    cases k <;> exact Marks.none_le c
  rw [and_iff_right hempty]
  simp [empty]

theorem IsMarked.append_assoc (hp : p.IsMarked) (hq : q.IsMarked) (hr : r.IsMarked) :
    (p.append q).append r = p.append (q.append r) := by
  refine ((hp.append hq).append hr).ext (hp.append (hq.append hr)) (List.append_assoc ..)
    fun k _ c => ?_
  have hlength : (p.append q).parts.length = p.parts.length + q.parts.length :=
    List.length_append
  rw [(hp.append hq).hasGaps.marksAt_append_le hr.hasGaps,
    hp.hasGaps.marksAt_append_le hq.hasGaps, hp.hasGaps.marksAt_append_le (hq.append hr).hasGaps,
    hq.hasGaps.marksAt_append_le hr.hasGaps, hlength, Nat.sub_add_eq]
  constructor
  · rintro ⟨⟨h₁, h₂⟩, h₃⟩
    exact ⟨h₁, fun hk => ⟨h₂ hk, fun hk' => h₃ (by omega)⟩⟩
  · rintro ⟨h₁, h₂⟩
    exact ⟨⟨h₁, fun hk => (h₂ hk).1⟩, fun hk => (h₂ (by omega)).2 (by omega)⟩

/-! ## §2 Rows -/

/-- What markers say, and phrases, in a row. Marks are sorted, and phrases have marks in every
gap. -/
def IsRow (row : List (GapMarks ⊕ Phrase)) : Prop :=
  (∀ g, .inl g ∈ row → g.here.IsSorted) ∧ ∀ p, .inr p ∈ row → p.IsMarked

/-- The phrases of a row, and the marks between them. -/
def joinRow : List (GapMarks ⊕ Phrase) → Phrase
  | [] => empty
  | .inl g :: row => (gap g.here).append (joinRow row)
  | .inr p :: row => p.append (joinRow row)

/-- What the markers of a row say about the end of the rule. Those behind the last phrase have no
say in it. -/
def saidOfEnd : List (GapMarks ⊕ Phrase) → List Marks
  | [] => []
  | .inl g :: row => if row.any Sum.isRight then g.atEnd :: saidOfEnd row else saidOfEnd row
  | .inr _ :: row => saidOfEnd row

/-- The phrase that a row comes to. -/
def ofRow (row : List (GapMarks ⊕ Phrase)) : Phrase :=
  (joinRow row).append (gap (Marks.joinAll (saidOfEnd row)))

variable {row row' inner : List (GapMarks ⊕ Phrase)}

@[simp] theorem isRow_nil : IsRow [] :=
  ⟨nofun, nofun⟩

theorem isRow_append : IsRow (row ++ row') ↔ IsRow row ∧ IsRow row' := by
  simp only [IsRow, List.mem_append, or_imp, forall_and]
  tauto

theorem isRow_inl {g : GapMarks} : IsRow (.inl g :: row) ↔ g.here.IsSorted ∧ IsRow row := by
  simp [IsRow, and_assoc]

theorem isRow_inr : IsRow (.inr p :: row) ↔ p.IsMarked ∧ IsRow row := by
  simp [IsRow, and_left_comm]

theorem IsRow.isMarked (h : IsRow row) : (joinRow row).IsMarked := by
  induction row with
  | nil => exact isMarked_empty
  | cons part row ih =>
    cases part with
    | inl g => exact (isMarked_gap (isRow_inl.mp h).1).append (ih (isRow_inl.mp h).2)
    | inr p => exact (isRow_inr.mp h).1.append (ih (isRow_inr.mp h).2)

theorem IsRow.joinRow_append (h : IsRow row) (h' : IsRow row') :
    joinRow (row ++ row') = (joinRow row).append (joinRow row') := by
  induction row with
  | nil => exact h'.isMarked.empty_append.symm
  | cons part row ih =>
    cases part with
    | inl g =>
      obtain ⟨hg, h⟩ := isRow_inl.mp h
      rw [List.cons_append, joinRow, joinRow, ih h,
        (isMarked_gap hg).append_assoc h.isMarked h'.isMarked]
    | inr p =>
      obtain ⟨hp, h⟩ := isRow_inr.mp h
      rw [List.cons_append, joinRow, joinRow, ih h, hp.append_assoc h.isMarked h'.isMarked]

theorem isMarked_ofRow (h : IsRow row) : (ofRow row).IsMarked :=
  h.isMarked.append (isMarked_gap Marks.isSorted_joinAll)

/-- Without phrases, there are only marks. -/
theorem IsRow.exists_gap (h : IsRow row) (hmarks : row.any Sum.isRight = false) :
    ∃ m, m.IsSorted ∧ joinRow row = gap m := by
  induction row with
  | nil => exact ⟨.none, Marks.isSorted_none, rfl⟩
  | cons part row ih =>
    cases part with
    | inl g =>
      obtain ⟨hg, h⟩ := isRow_inl.mp h
      obtain ⟨m, hm, heq⟩ := ih h (by simpa using hmarks)
      exact ⟨g.here.join m, hg.join, by rw [joinRow, heq, gap_append_gap]⟩
    | inr p => simp at hmarks

/-- What the markers before a phrase say about the end of the rule counts. -/
theorem saidOfEnd_append_of_any (h : row'.any Sum.isRight = true) : saidOfEnd (row ++ row') =
    row.flatMap (Sum.elim (fun g => [g.atEnd]) fun _ => []) ++ saidOfEnd row' := by
  induction row with
  | nil => rfl
  | cons part row ih =>
    cases part with
    | inl g =>
      have hany : (row ++ row').any Sum.isRight = true := by rw [List.any_append, h, Bool.or_true]
      rw [List.cons_append, saidOfEnd, hany, if_pos rfl, ih]
      rfl
    | inr p => exact ih

/-- What the markers behind the last phrase say does not. -/
theorem saidOfEnd_eq_nil (h : row.any Sum.isRight = false) : saidOfEnd row = [] := by
  induction row with
  | nil => rfl
  | cons part row ih =>
    cases part with
    | inl g =>
      have hrow : row.any Sum.isRight = false := by simpa using h
      rw [saidOfEnd, hrow, if_neg Bool.false_ne_true, ih hrow]
    | inr p => simp at h

theorem saidOfEnd_append_of_marks (h : row'.any Sum.isRight = false) :
    saidOfEnd (row ++ row') = saidOfEnd row := by
  induction row with
  | nil => rw [List.nil_append, saidOfEnd_eq_nil h, saidOfEnd]
  | cons part row ih =>
    have hany : (row ++ row').any Sum.isRight = row.any Sum.isRight := by
      rw [List.any_append, h, Bool.or_false]
    cases part with
    | inl g => rw [List.cons_append, saidOfEnd, saidOfEnd, hany, ih]
    | inr p => exact ih

/-- Markers that say nothing about the end add nothing to what is said of it. -/
theorem forall_saidOfEnd_append_iff (hquiet : ∀ g, .inl g ∈ inner → g.atEnd = .none) {c : Marks} :
    (∀ m ∈ saidOfEnd (inner ++ row'), m.Le c) ↔ ∀ m ∈ saidOfEnd row', m.Le c := by
  induction inner with
  | nil => rfl
  | cons part inner ih =>
    have ih := ih fun g hg => hquiet g (List.mem_cons_of_mem _ hg)
    cases part with
    | inl g =>
      rw [List.cons_append, saidOfEnd]
      split
      · rw [List.forall_mem_cons, ih, hquiet g List.mem_cons_self]
        exact and_iff_right (Marks.none_le c)
      · exact ih
    | inr p => exact ih

/-- A row in a row can be replaced by its parts, if it has phrases, and if its markers say nothing
about the end of the rule or if there is no phrase behind it. -/
theorem ofRow_nested (h : IsRow row) (hinner : IsRow inner) (h' : IsRow row')
    (hany : inner.any Sum.isRight = true)
    (hquiet : (∀ g, .inl g ∈ inner → g.atEnd = .none) ∨ row'.any Sum.isRight = false) :
    ofRow (row ++ .inr (ofRow inner) :: row') = ofRow (row ++ (inner ++ row')) := by
  obtain ⟨whole, hwhole⟩ : ∃ whole, whole = ofRow inner := ⟨_, rfl⟩
  have hmarked : whole.IsMarked := hwhole ▸ isMarked_ofRow hinner
  have hbehind : (.inr whole :: row').any Sum.isRight = true := rfl
  have hany' : (inner ++ row').any Sum.isRight = true := by
    rw [List.any_append, hany, Bool.true_or]
  rw [← hwhole, ofRow, ofRow, h.joinRow_append (isRow_inr.mpr ⟨hmarked, h'⟩),
    h.joinRow_append (isRow_append.mpr ⟨hinner, h'⟩), hinner.joinRow_append h',
    saidOfEnd_append_of_any hbehind, saidOfEnd_append_of_any hany', joinRow, saidOfEnd]
  rcases hquiet with hquiet | hmarks
  · have hnone : Marks.joinAll (saidOfEnd inner) = .none := by
      refine Marks.eq_of_le_iff Marks.isSorted_joinAll Marks.isSorted_none fun c => ?_
      rw [Marks.joinAll_le_iff, ← List.append_nil inner, forall_saidOfEnd_append_iff hquiet]
      exact iff_of_true nofun (Marks.none_le c)
    have hsaid (before : List Marks) : Marks.joinAll (before ++ saidOfEnd row') =
        Marks.joinAll (before ++ saidOfEnd (inner ++ row')) := by
      refine Marks.eq_of_le_iff Marks.isSorted_joinAll Marks.isSorted_joinAll fun c => ?_
      rw [Marks.joinAll_le_iff, Marks.joinAll_le_iff, List.forall_mem_append,
        List.forall_mem_append, forall_saidOfEnd_append_iff hquiet]
    have hinner' : whole = joinRow inner := by
      rw [hwhole, ofRow, hnone]
      exact hinner.isMarked.append_empty
    rw [hsaid, hinner']
  · obtain ⟨m, hm, hgap⟩ := h'.exists_gap hmarks
    have hend : (gap (Marks.joinAll (saidOfEnd inner))).IsMarked :=
      isMarked_gap Marks.isSorted_joinAll
    have hmarks' := isMarked_gap hm
    have hbefore (l : List Marks) : (gap (Marks.joinAll l)).IsMarked :=
      isMarked_gap Marks.isSorted_joinAll
    -- The end of the inner row is the end of the whole, so both say the same about it.
    have hsame : whole.append (gap m) =
        ((joinRow inner).append (gap m)).append (gap (Marks.joinAll (saidOfEnd inner))) := by
      rw [hwhole, ofRow, hinner.isMarked.append_assoc hend hmarks',
        gap_append_comm Marks.isSorted_joinAll hm, hinner.isMarked.append_assoc hmarks' hend]
    rw [hgap, saidOfEnd_eq_nil hmarks, List.append_nil, saidOfEnd_append_of_marks hmarks, hsame,
      Marks.joinAll_append_comm, ← Marks.join_joinAll, ← gap_append_gap,
      ← h.isMarked.append_assoc (hinner.isMarked.append hmarks') hend,
      (h.isMarked.append (hinner.isMarked.append hmarks')).append_assoc hend (hbefore _)]

/-! ## §3 Choices -/

/-- What markers say, and phrases to choose from, in a row. -/
def ArePieces (pieces : List (GapMarks ⊕ List Phrase)) : Prop :=
  (∀ g, .inl g ∈ pieces → g.here.IsSorted) ∧ ∀ ps, .inr ps ∈ pieces → ∀ p ∈ ps, p.IsMarked

/-- All ways to choose phrases. The first choice changes last. -/
def rows : List (GapMarks ⊕ List Phrase) → List (List (GapMarks ⊕ Phrase))
  | [] => [[]]
  | .inl g :: pieces => (rows pieces).map (.inl g :: ·)
  | .inr ps :: pieces => ps.flatMap fun p => (rows pieces).map (.inr p :: ·)

/-- The phrases that pieces come to. -/
def phrasesOf (pieces : List (GapMarks ⊕ List Phrase)) : List Phrase :=
  (rows pieces).map ofRow

variable {xs ys inside : List (GapMarks ⊕ List Phrase)}

theorem arePieces_nil : ArePieces [] :=
  ⟨nofun, nofun⟩

theorem arePieces_append : ArePieces (xs ++ ys) ↔ ArePieces xs ∧ ArePieces ys := by
  simp only [ArePieces, List.mem_append, or_imp, forall_and]
  tauto

theorem arePieces_inl {g : GapMarks} :
    ArePieces (.inl g :: xs) ↔ g.here.IsSorted ∧ ArePieces xs := by
  simp [ArePieces, and_assoc]

theorem arePieces_inr {ps : List Phrase} :
    ArePieces (.inr ps :: xs) ↔ (∀ p ∈ ps, p.IsMarked) ∧ ArePieces xs := by
  simp [ArePieces, and_left_comm]

theorem rows_append (xs ys : List (GapMarks ⊕ List Phrase)) :
    rows (xs ++ ys) = (rows xs).flatMap fun row => (rows ys).map (row ++ ·) := by
  induction xs with
  | nil => simp [rows]
  | cons x xs ih =>
    cases x with
    | inl g => simp [rows, ih, List.map_flatMap, List.flatMap_map, Function.comp_def]
    | inr ps =>
      simp [rows, ih, List.map_flatMap, List.flatMap_map, List.flatMap_assoc, Function.comp_def]

theorem rows_marks (gaps : List GapMarks) : rows (gaps.map .inl) = [gaps.map .inl] := by
  induction gaps with
  | nil => rfl
  | cons g gaps ih =>
    rw [List.map_cons, rows, ih]
    rfl

/-- A choice of phrases leaves marks where they are. -/
theorem ArePieces.isRow (h : ArePieces xs) (hrow : row ∈ rows xs) :
    IsRow row ∧ row.any Sum.isRight = xs.any Sum.isRight ∧
      ∀ g, .inl g ∈ row → .inl g ∈ xs := by
  induction xs generalizing row with
  | nil =>
    obtain rfl := List.mem_singleton.mp hrow
    exact ⟨isRow_nil, rfl, nofun⟩
  | cons x xs ih =>
    cases x with
    | inl g =>
      obtain ⟨hg, h⟩ := arePieces_inl.mp h
      obtain ⟨row, hmem, rfl⟩ := List.mem_map.mp hrow
      obtain ⟨hsound, hany, hmarks⟩ := ih h hmem
      refine ⟨isRow_inl.mpr ⟨hg, hsound⟩, by simpa using hany, fun g' hg' => ?_⟩
      rcases List.mem_cons.mp hg' with heq | hg'
      · exact Sum.inl.inj heq ▸ List.mem_cons_self
      · exact List.mem_cons_of_mem _ (hmarks g' hg')
    | inr ps =>
      obtain ⟨hps, h⟩ := arePieces_inr.mp h
      obtain ⟨p, hp, hrow⟩ := List.mem_flatMap.mp hrow
      obtain ⟨row, hmem, rfl⟩ := List.mem_map.mp hrow
      obtain ⟨hsound, -, hmarks⟩ := ih h hmem
      refine ⟨isRow_inr.mpr ⟨hps p hp, hsound⟩, rfl, fun g' hg' => ?_⟩
      rcases List.mem_cons.mp hg' with heq | hg'
      · cases heq
      · exact List.mem_cons_of_mem _ (hmarks g' hg')

theorem ArePieces.isMarked (h : ArePieces xs) : ∀ p ∈ phrasesOf xs, p.IsMarked := by
  intro p hp
  obtain ⟨row, hrow, rfl⟩ := List.mem_map.mp hp
  exact isMarked_ofRow (h.isRow hrow).1

/-- A sequence in a sequence can be replaced by its pieces, if it has elements, and if its markers
say nothing about the end of the rule or if there is no element behind it. -/
theorem phrasesOf_nested (h : ArePieces xs) (hinside : ArePieces inside) (h' : ArePieces ys)
    (hany : inside.any Sum.isRight = true)
    (hquiet : (∀ g, .inl g ∈ inside → g.atEnd = .none) ∨ ys.any Sum.isRight = false) :
    phrasesOf (xs ++ .inr (phrasesOf inside) :: ys) = phrasesOf (xs ++ (inside ++ ys)) := by
  simp only [phrasesOf, rows_append, rows, List.map_flatMap, List.flatMap_map, List.map_map]
  refine List.flatMap_congr fun row hrow => List.flatMap_congr fun inner hinner => ?_
  refine List.map_congr_left fun row' hrow' => ?_
  obtain ⟨hrow, -, -⟩ := h.isRow hrow
  obtain ⟨hinner, hany', hmarks⟩ := hinside.isRow hinner
  obtain ⟨hrow', hbehind, -⟩ := h'.isRow hrow'
  exact ofRow_nested hrow hinner hrow' (hany'.trans hany)
    (hquiet.imp (fun hquiet g hg => hquiet g (hmarks g hg)) hbehind.trans)

/-! ## §4 Elements -/

/-- The elements of a sequence, and what the markers say in the gaps around them, in order. -/
def between : List (List Phrase) → List (List GapMarks) → List (GapMarks ⊕ List Phrase)
  | [], said => said.flatten.map .inl
  | ps :: elements, said => (said.headD []).map .inl ++ .inr ps :: between elements said.tail

theorem joinRow_marks {gaps : List GapMarks} (h : ∀ g ∈ gaps, g.here.IsSorted) :
    joinRow (gaps.map .inl) = gap (Marks.joinAll (gaps.map GapMarks.here)) := by
  induction gaps with
  | nil => rfl
  | cons g gaps ih =>
    obtain ⟨hg, h⟩ := List.forall_mem_cons.mp h
    rw [List.map_cons, joinRow, ih h, gap_append_gap, List.map_cons]
    refine congrArg gap (Marks.eq_of_le_iff hg.join Marks.isSorted_joinAll fun c => ?_)
    rw [Marks.join_le_iff, Marks.joinAll_le_iff, Marks.joinAll_le_iff, List.forall_mem_cons]

/-- The phrases of a sequence behind what is done. -/
theorem sequencePhrases_eq_map {elements : List (List Phrase)} {said : List (List GapMarks)}
    {done : Phrase} {before : List Marks} (hlength : said.length = elements.length + 1)
    (h : ArePieces (between elements said)) (hdone : done.IsMarked) :
    sequencePhrases elements (said.map GapMarks.joinAll) done (Marks.joinAll before) =
      (rows (between elements said)).map fun row => (done.append (joinRow row)).append
        (gap (Marks.joinAll (before ++ saidOfEnd row))) := by
  have hgap (l : List Marks) : (gap (Marks.joinAll l)).IsMarked :=
    isMarked_gap Marks.isSorted_joinAll
  induction elements generalizing said done before with
  | nil =>
    obtain ⟨here, rfl⟩ := List.length_eq_one_iff.mp hlength
    rw [between, List.flatten_singleton] at h ⊢
    have hhere : ∀ g ∈ here, g.here.IsSorted := fun g hg => h.1 g (List.mem_map_of_mem hg)
    have hmarks : (here.map Sum.inl : List (GapMarks ⊕ Phrase)).any Sum.isRight = false := by simp
    rw [rows_marks, List.map_singleton, List.map_singleton, saidOfEnd_eq_nil hmarks, List.append_nil,
      joinRow_marks hhere, hdone.append_assoc (hgap _) (hgap _), gap_append_gap,
      ← GapMarks.here_joinAll, ← markEnd_eq]
    rfl
  | cons ps elements ih =>
    obtain ⟨here, said, rfl⟩ := List.exists_cons_of_length_eq_add_one hlength
    rw [between, List.headD_cons, List.tail_cons] at h ⊢
    obtain ⟨hheres, h⟩ := arePieces_append.mp h
    obtain ⟨hps, h⟩ := arePieces_inr.mp h
    have hhere : ∀ g ∈ here, g.here.IsSorted := fun g hg => hheres.1 g (List.mem_map_of_mem hg)
    rw [rows_append, rows_marks, List.flatMap_singleton, rows, List.map_flatMap, List.map_flatMap]
    refine List.flatMap_congr fun p hp => ?_
    have hdone' := hdone.append (hgap (here.map GapMarks.here))
    rw [List.map_cons, List.headD_cons, List.tail_cons, GapMarks.here_joinAll,
      GapMarks.atEnd_joinAll, Marks.join_joinAll, markEnd_eq,
      ih (Nat.succ.inj hlength) h (hdone'.append (hps p hp)), List.map_map, List.map_map]
    refine List.map_congr_left fun row hrow => ?_
    have hrow := (h.isRow hrow).1
    have hbehind : (.inr p :: row).any Sum.isRight = true := rfl
    have hsaid : (here.map Sum.inl : List (GapMarks ⊕ Phrase)).flatMap
        (Sum.elim (fun g => [g.atEnd]) fun _ => []) = here.map GapMarks.atEnd := by
      rw [List.flatMap_map, List.map_eq_flatMap]
      rfl
    have hmarks : IsRow (here.map Sum.inl) := ⟨by simpa using hhere, by simp⟩
    simp only [Function.comp_apply]
    rw [hmarks.joinRow_append (isRow_inr.mpr ⟨hps p hp, hrow⟩), joinRow_marks hhere,
      saidOfEnd_append_of_any hbehind, hsaid, joinRow, saidOfEnd, List.append_assoc,
      ← hdone.append_assoc (hgap _) ((hps p hp).append hrow.isMarked),
      hdone'.append_assoc (hps p hp) hrow.isMarked]

/-- The phrases of a sequence are those of its pieces. -/
theorem sequencePhrases_eq {elements : List (List Phrase)} {said : List (List GapMarks)}
    (hlength : said.length = elements.length + 1) (h : ArePieces (between elements said)) :
    sequencePhrases elements (said.map GapMarks.joinAll) .empty .none =
      phrasesOf (between elements said) := by
  have hmap : sequencePhrases elements (said.map GapMarks.joinAll) .empty (Marks.joinAll []) = _ :=
    sequencePhrases_eq_map hlength h isMarked_empty
  refine hmap.trans (List.map_congr_left fun row hrow => ?_)
  rw [(h.isRow hrow).1.isMarked.empty_append]
  rfl

end Phrase

end GrammarCompiler
