/-
GrammarCompiler.Proofs.Multiplying — the rules that come out of inlining.

A rule becomes one rule for every way to choose a phrase for each of its parts. A part
that is replaced can be the phrase of any of its rules, any other part only stands for
itself. Phrases bring marks with them, and those at their borders fall on gaps of the
rule. A phrase without parts lets the gaps around it fall on one gap, and several such
phrases in a row all gaps between them. What falls on one gap is joined.

  §1 Choices — the ways to choose phrases, in order.
  §2 Pieces  — the phrase for one choice, and what lands on its gaps.
  §3 Rules   — the rules for all choices.
-/
import GrammarCompiler.Proofs.Inlining
import GrammarCompiler.Proofs.Marking

namespace GrammarCompiler

namespace Replacements

/-! ## §1 Choices -/

/-- The phrases that a part can become. -/
def options (chosen : Replacements) (part : Term) : List Phrase :=
  match chosen.lookup part with
  | none => [.single part]
  | some rules => rules.map Rule.toPhrase

/-- All ways to choose a phrase for each part. The choice for the last part changes first. -/
def choices (chosen : Replacements) : List Term → List (List Phrase)
  | [] => [[]]
  | part :: parts =>
    (chosen.options part).flatMap fun p => (chosen.choices parts).map fun pieces => p :: pieces

variable {chosen : Replacements} {part : Term} {parts : List Term} {pieces : List Phrase}

theorem mem_choices_iff :
    pieces ∈ chosen.choices parts ↔ List.Forall₂ (fun p t => p ∈ chosen.options t) pieces parts := by
  induction parts generalizing pieces with
  | nil => simp [choices]
  | cons part parts ih =>
    simp only [choices, List.mem_flatMap, List.mem_map]
    constructor
    · rintro ⟨p, hp, pieces, hpieces, rfl⟩
      exact .cons hp (ih.mp hpieces)
    · rintro (_ | ⟨hp, hpieces⟩)
      exact ⟨_, hp, _, ih.mpr hpieces, rfl⟩

theorem length_choices : (chosen.choices parts).length =
    (parts.map fun t => (chosen.options t).length).prod := by
  induction parts with
  | nil => rfl
  | cons part parts ih => simp [choices, ih]

/-- A property of the phrases of all rules, and of those that only have one part. -/
theorem forall_mem_options {P : Phrase → Prop} (hsingle : ∀ t, P (.single t))
    (hrules : ∀ entry ∈ chosen, ∀ inner ∈ entry.2, P inner.toPhrase) :
    ∀ p ∈ chosen.options part, P p := by
  unfold options
  split
  next => exact List.forall_mem_singleton.mpr (hsingle part)
  next rules hl => exact List.forall_mem_map.mpr (hrules _ (mem_of_lookup hl))

theorem forall_mem_choice {P : Phrase → Prop} (hsingle : ∀ t, P (.single t))
    (hrules : ∀ entry ∈ chosen, ∀ inner ∈ entry.2, P inner.toPhrase)
    (hpieces : pieces ∈ chosen.choices parts) : ∀ p ∈ pieces, P p := by
  intro p hp
  obtain ⟨t, -, hoptions⟩ := exists_of_mem_forall₂ (mem_choices_iff.mp hpieces) hp
  exact forall_mem_options hsingle hrules p hoptions

end Replacements

/-! ## §2 Pieces -/

namespace Phrase

/-- Pieces one after another behind `done`, each with the marks of the gap behind it. -/
def splice : (done : Phrase) → (pieces : List Phrase) → (gaps : List Marks) → Phrase
  | done, [], _ => done
  | done, p :: pieces, gaps =>
    splice ((done.append p).markEnd (gaps.headD Marks.none)) pieces gaps.tail

/-- What lands on a gap when pieces take the places of the parts of a rule: marks of the pieces,
and marks of the gaps of the rule that fall on this gap. -/
def landingOn (pieces : List Phrase) (marks : List Marks) (gap : Nat) : List Marks :=
  landing pieces (marks.map fun m => [{ here := m }]) gap

variable {done p : Phrase} {pieces : List Phrase} {gaps : List Marks} {m c : Marks} {k : Nat}

theorem parts_splice (done : Phrase) (pieces : List Phrase) (gaps : List Marks) :
    (done.splice pieces gaps).parts = done.parts ++ pieces.flatMap parts := by
  induction pieces generalizing done gaps with
  | nil => simp [splice]
  | cons p pieces ih => simp [splice, ih, append, Phrase.markEnd]

/-- What appending and marking keep of phrases holds of spliced pieces. -/
theorem splice_induction {P : Phrase → Prop}
    (hnext : ∀ p q m, P p → P q → P ((p.append q).markEnd m)) (hdone : P done)
    (hpieces : ∀ p ∈ pieces, P p) : P (done.splice pieces gaps) := by
  induction pieces generalizing done gaps with
  | nil => exact hdone
  | cons p pieces ih =>
    obtain ⟨hp, hpieces⟩ := List.forall_mem_cons.mp hpieces
    exact ih (hnext _ _ _ hdone hp) hpieces

theorem HasGaps.splice (hdone : done.HasGaps) (hpieces : ∀ p ∈ pieces, p.HasGaps) :
    (done.splice pieces gaps).HasGaps :=
  splice_induction (fun _ _ _ hp hq => (hp.append hq).markEnd _) hdone hpieces

theorem IsMarked.splice (hdone : done.IsMarked) (hpieces : ∀ p ∈ pieces, p.IsMarked) :
    (done.splice pieces gaps).IsMarked :=
  splice_induction (fun _ _ _ hp hq => (hp.append hq).markEnd _) hdone hpieces

/-- The marks of the first gap land on the first gap. -/
theorem forall_landingOn_cons {P : Marks → Prop} :
    (∀ a ∈ landingOn pieces (m :: gaps) k, P a) ↔
      (k = 0 → P m) ∧ ∀ a ∈ landing pieces ([] :: gaps.map fun m => [{ here := m }]) k, P a := by
  rw [landingOn, List.map_cons, forall_landing_iff, forall_landing_iff]
  constructor
  · rintro ⟨hpieces, hgaps⟩
    refine ⟨fun hk => hgaps 0 _ rfl hk.symm _ (.head _), hpieces, fun j gap hj heq => ?_⟩
    cases j with
    | zero =>
      obtain rfl := Option.some.inj hj
      nofun
    | succ j => exact hgaps (j + 1) gap hj heq
  · rintro ⟨hfirst, hpieces, hgaps⟩
    refine ⟨hpieces, fun j gap hj heq => ?_⟩
    cases j with
    | zero =>
      obtain rfl := Option.some.inj hj
      exact List.forall_mem_singleton.mpr (hfirst heq.symm)
    | succ j => exact hgaps (j + 1) gap hj heq

/-- The marks of spliced pieces say what lands on each gap, and nothing else. -/
theorem HasGaps.marksAt_splice_le (hdone : done.HasGaps) (hpieces : ∀ p ∈ pieces, p.HasGaps)
    (hlength : gaps.length = pieces.length) : ((done.splice pieces gaps).marksAt k).Le c ↔
      (done.marksAt k).Le c ∧ (done.parts.length ≤ k →
        ∀ a ∈ landing pieces ([] :: gaps.map fun m => [{ here := m }]) (k - done.parts.length),
          a.Le c) := by
  induction pieces generalizing done gaps with
  | nil =>
    obtain rfl := List.eq_nil_of_length_eq_zero hlength
    simp [Phrase.splice, forall_landing_nil]
  | cons p pieces ih =>
    obtain ⟨gap, gaps, rfl⟩ := List.exists_cons_of_length_eq_add_one hlength
    obtain ⟨hp, hpieces⟩ := List.forall_mem_cons.mp hpieces
    have hbefore := hdone.append hp
    have hparts : (done.append p).parts.length = done.parts.length + p.parts.length :=
      List.length_append
    have hlands := @forall_landingOn_cons pieces gaps gap (k - done.parts.length - p.parts.length)
      fun a => a.Le c
    rw [landingOn, List.map_cons] at hlands
    rw [Phrase.splice, List.headD_cons, List.tail_cons,
      ih (hbefore.markEnd gap) hpieces (Nat.succ.inj hlength), hbefore.marksAt_markEnd_le,
      hdone.marksAt_append_le hp, Phrase.markEnd, hparts, List.map_cons, forall_landing_cons, hlands,
      Nat.sub_sub]
    constructor
    · rintro ⟨⟨⟨h₁, h₂⟩, h₃⟩, h₄⟩
      exact ⟨h₁, fun hk => ⟨fun _ _ h => absurd h List.not_mem_nil, fun _ => h₂ hk, fun hk' =>
        ⟨fun hzero => h₃ (by omega), h₄ (by omega)⟩⟩⟩
    · rintro ⟨h₁, h₂⟩
      refine ⟨⟨⟨h₁, fun hk => ?_⟩, fun hk => ?_⟩, fun hk => ?_⟩
      · rcases le_or_gt (k - done.parts.length) p.parts.length with hle | hlt
        · exact (h₂ hk).2.1 hle
        · exact hp.marksAt_le_of_lt hlt
      · exact ((h₂ (by omega)).2.2 (by omega)).1 (by omega)
      · exact ((h₂ (by omega)).2.2 (by omega)).2

end Phrase

/-! ## §3 Rules -/

namespace Replacements

variable {chosen : Replacements} {r : Rule}

/-- What a rule starts with: the marks of its first gap. -/
def opening (r : Rule) : Phrase :=
  ⟨[], [r.marks.headD Marks.none]⟩

theorem expandFrom_eq_map (done : Phrase) (parts : List Term) (gaps : List Marks) :
    expandFrom chosen done parts gaps =
      (chosen.choices parts).map fun pieces => done.splice pieces gaps := by
  induction parts generalizing done gaps with
  | nil => rfl
  | cons part parts ih =>
    rw [expandFrom, choices, List.map_flatMap, options]
    cases chosen.lookup part with
    | none => simp [ih, Phrase.splice]
    | some rules => simp [ih, Phrase.splice, List.flatMap_map, Function.comp_def]

theorem expand_eq_map : chosen.expand r =
    (chosen.choices r.parts).map fun pieces => (opening r).splice pieces r.marks.tail :=
  expandFrom_eq_map _ _ _

theorem marksAt_expand_le (hr : r.HasGaps) {pieces : List Phrase}
    (hpieces : ∀ p ∈ pieces, p.HasGaps) (hlength : pieces.length = r.parts.length) (k : Nat)
    (c : Marks) : (((opening r).splice pieces r.marks.tail).marksAt k).Le c ↔
      ∀ m ∈ Phrase.landingOn pieces r.marks k, m.Le c := by
  obtain ⟨gaps, hmarks, hgaps⟩ := hr.exists_first
  have hopening : ((opening r).marksAt k).Le c ↔ (k = 0 → (r.marks.headD Marks.none).Le c) := by
    cases k with
    | zero => simp [opening, Phrase.marksAt]
    | succ k => simp [opening, Phrase.marksAt, Marks.none_le]
  have htail : r.marks.tail = gaps := by rw [hmarks, List.tail_cons]
  have hrest : (opening r).HasGaps := rfl
  rw [hrest.marksAt_splice_le hpieces (by rw [htail, hgaps, hlength]), hopening, htail, hmarks,
    Phrase.forall_landingOn_cons]
  simp [opening]

theorem name_of_mem_apply {next : Nat} {s : Rule} (hs : s ∈ chosen.apply next r) :
    s.name = r.name ∧ s.skip = r.skip := by
  unfold apply at hs
  split at hs
  next => cases hs
  next =>
    split at hs
    next =>
      obtain ⟨⟨body, i⟩, -, rfl⟩ := List.mem_map.mp hs
      exact ⟨rfl, rfl⟩
    next =>
      obtain rfl := List.mem_singleton.mp hs
      exact ⟨rfl, rfl⟩

theorem map_toPhrase_apply {next : Nat} (hname : chosen.has r.name = false)
    (hparts : r.parts.any chosen.has = true) :
    (chosen.apply next r).map Rule.toPhrase = chosen.expand r := by
  rw [apply, hname, hparts, if_neg Bool.false_ne_true, if_pos rfl, List.map_map]
  exact List.zipIdx_map_fst 0 _

/-- A rule becomes one rule for each choice of phrases for its parts, in order. The symbols are
those of the chosen phrases, and there is one entry of marks for each gap. An entry says what all
entries of the rule and of the chosen phrases say that fall on the gap, and nothing else. So it is
their join, where ambiguities are sorted. All rules have the name and the skipped tokens of the
rule that they come from. -/
theorem expand_multiplies (hr : r.HasGaps)
    (hchosen : ∀ entry ∈ chosen, ∀ inner ∈ entry.2, inner.HasGaps) :
    List.Forall₂ (fun p pieces =>
        p.parts = pieces.flatMap Phrase.parts ∧ p.marks.length = p.parts.length + 1 ∧
        (∀ k c, (p.marksAt k).Le c ↔ ∀ m ∈ Phrase.landingOn pieces r.marks k, m.Le c) ∧
        (r.IsMarked → (∀ entry ∈ chosen, ∀ inner ∈ entry.2, inner.IsMarked) →
          ∀ k, p.marksAt k = Marks.joinAll (Phrase.landingOn pieces r.marks k)))
      (chosen.expand r) (chosen.choices r.parts) ∧
    (∀ pieces, pieces ∈ chosen.choices r.parts ↔
      List.Forall₂ (fun p t => p ∈ chosen.options t) pieces r.parts) ∧
    (chosen.expand r).length = (r.parts.map fun t => (chosen.options t).length).prod ∧
    ∀ next, (∀ s ∈ chosen.apply next r, s.name = r.name ∧ s.skip = r.skip) ∧
      (chosen.has r.name = false → r.parts.any chosen.has = true →
        (chosen.apply next r).map Rule.toPhrase = chosen.expand r) := by
  refine ⟨?_, fun _ => mem_choices_iff, by rw [expand_eq_map, List.length_map, length_choices],
    fun next => ⟨fun s hs => name_of_mem_apply hs, map_toPhrase_apply⟩⟩
  rw [expand_eq_map, List.forall₂_map_left_iff, List.forall₂_same]
  intro pieces hmem
  have hpieces := forall_mem_choice (P := Phrase.HasGaps) (fun _ => rfl) hchosen hmem
  have hle := marksAt_expand_le hr hpieces (mem_choices_iff.mp hmem).length_eq
  have hopening : (opening r).HasGaps := rfl
  refine ⟨Phrase.parts_splice _ _ _, hopening.splice hpieces, hle, fun hsorted hall k => ?_⟩
  have hpieces := forall_mem_choice (P := Phrase.IsMarked) Phrase.isMarked_single hall hmem
  have hfirst : (opening r).IsMarked := by
    obtain ⟨gaps, hmarks, -⟩ := hr.exists_first
    exact ⟨rfl, List.forall_mem_singleton.mpr (hsorted.sorted _ (hmarks ▸ List.mem_cons_self))⟩
  refine Marks.eq_of_le_iff ((hfirst.splice hpieces).sorted_marksAt k) Marks.isSorted_joinAll
    fun c => ?_
  rw [hle, Marks.joinAll_le_iff]

/-- A rule in which two parts side by side are replaced. -/
def sideBySide : Rule where
  parts := [⟨2⟩, ⟨4⟩, ⟨5⟩, ⟨3⟩]
  marks := [.none, ⟨1, [], 0⟩, ⟨0, ["b"], 0⟩, ⟨2, [], 0⟩, .none]
  id := 0
  name := ⟨6⟩
  skip := ⟨7⟩

/-- Both of the parts can be empty, the second one in one of two ways. -/
def emptyOrNot : Replacements :=
  [(⟨4⟩, [{ parts := [], marks := [⟨0, ["a"], 0⟩], id := 1, name := ⟨4⟩, skip := ⟨7⟩ }]),
    (⟨5⟩, [{ parts := [], marks := [⟨0, [], 3⟩], id := 2, name := ⟨5⟩, skip := ⟨7⟩ },
      { parts := [⟨3⟩], marks := [.none, ⟨7, [], 0⟩], id := 3, name := ⟨5⟩, skip := ⟨7⟩ }])]

/-- Where both are empty, five entries are joined. -/
theorem expand_multiplies_sideBySide : ∃ p q, emptyOrNot.expand sideBySide = [p, q] ∧
    p.parts = [⟨2⟩, ⟨3⟩] ∧ p.marksAt 1 = ⟨2, ["a", "b"], 3⟩ ∧
    q.parts = [⟨2⟩, ⟨3⟩, ⟨3⟩] ∧ q.marksAt 1 = ⟨1, ["a", "b"], 0⟩ ∧ q.marksAt 2 = ⟨7, [], 0⟩ := by
  have hrule : sideBySide.IsMarked := ⟨rfl, by simp [sideBySide, Marks.IsSorted, Marks.none]⟩
  have hinner : ∀ entry ∈ emptyOrNot, ∀ inner ∈ entry.2, inner.IsMarked := by
    simp only [emptyOrNot, List.forall_mem_cons]
    refine ⟨⟨⟨rfl, ?_⟩, nofun⟩, ⟨⟨rfl, ?_⟩, ⟨rfl, ?_⟩, nofun⟩, nofun⟩ <;>
      simp [Marks.IsSorted, Marks.none]
  obtain ⟨hall, -, -, -⟩ := expand_multiplies hrule.hasGaps
    fun entry hentry inner h => (hinner entry hentry inner h).hasGaps
  obtain ⟨p, rest, hp, hall, hexpand⟩ := List.forall₂_cons_right_iff.mp hall
  obtain ⟨q, rest, hq, hall, hrest⟩ := List.forall₂_cons_right_iff.mp hall
  obtain rfl := List.forall₂_nil_right_iff.mp hall
  obtain ⟨hparts, -, -, hmarks⟩ := hp
  obtain ⟨hparts', -, -, hmarks'⟩ := hq
  refine ⟨p, q, by rw [hexpand, hrest], hparts, (hmarks hrule hinner 1).trans (by decide), hparts',
    (hmarks' hrule hinner 1).trans (by decide), (hmarks' hrule hinner 2).trans (by decide)⟩

end Replacements

end GrammarCompiler
