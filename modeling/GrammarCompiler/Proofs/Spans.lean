/-
GrammarCompiler.Proofs.Spans — disjoint ranges in place of overlapping edges.

No edge begins or ends strictly between two consecutive borders. So all code
units between them lead to the same states, those that a single one of them
leads to.

  §1 Unions  — ascending lists without repetition.
  §2 Targets — the states that a code unit leads to.
  §3 Joining — a range in front of others.
  §4 Spans   — the ranges between all borders.
-/
import GrammarCompiler.Tokenizer.Dfa
import Mathlib

namespace GrammarCompiler

namespace Subset

/-! ## §1 Unions -/

theorem mem_union {as bs : List Nat} {x : Nat} : x ∈ union as bs ↔ x ∈ as ∨ x ∈ bs := by
  fun_induction union as bs with
  | case1 => simp
  | case2 => simp
  | case3 a as b bs h ih => simp [ih]; tauto
  | case4 a as b bs h h' ih => simp [ih]; tauto
  | case5 a as b bs h h' ih =>
    obtain rfl : a = b := by omega
    simp [ih]
    tauto

theorem pairwise_union {as bs : List Nat} (has : as.Pairwise (· < ·)) (hbs : bs.Pairwise (· < ·)) :
    (union as bs).Pairwise (· < ·) := by
  fun_induction union as bs with
  | case1 => exact hbs
  | case2 => exact has
  | case3 a as b bs h ih =>
    obtain ⟨ha, has⟩ := List.pairwise_cons.mp has
    have hb := (List.pairwise_cons.mp hbs).1
    refine List.pairwise_cons.mpr ⟨fun x hx => ?_, ih has hbs⟩
    rcases mem_union.mp hx with hx | hx
    · exact ha x hx
    · rcases List.mem_cons.mp hx with rfl | hx
      · exact h
      · exact Nat.lt_trans h (hb x hx)
  | case4 a as b bs h h' ih =>
    obtain ⟨hb, hbs⟩ := List.pairwise_cons.mp hbs
    have ha := (List.pairwise_cons.mp has).1
    refine List.pairwise_cons.mpr ⟨fun x hx => ?_, ih has hbs⟩
    rcases mem_union.mp hx with hx | hx
    · rcases List.mem_cons.mp hx with rfl | hx
      · exact h'
      · exact Nat.lt_trans h' (ha x hx)
    · exact hb x hx
  | case5 a as b bs h h' ih =>
    obtain rfl : a = b := by omega
    obtain ⟨ha, has⟩ := List.pairwise_cons.mp has
    obtain ⟨hb, hbs⟩ := List.pairwise_cons.mp hbs
    refine List.pairwise_cons.mpr ⟨fun x hx => ?_, ih has hbs⟩
    exact (mem_union.mp hx).elim (ha x) (hb x)

/-- What folding unions over a list gathers. -/
theorem mem_foldl_union {α : Type} {f : α → List Nat} {l : List α} {found : List Nat} {x : Nat} :
    x ∈ l.foldl (fun found y => union found (f y)) found ↔ x ∈ found ∨ ∃ y ∈ l, x ∈ f y := by
  induction l generalizing found with
  | nil => simp
  | cons y l ih => simp [ih, mem_union, or_assoc]

theorem pairwise_foldl_union {α : Type} {f : α → List Nat} {l : List α} {found : List Nat}
    (hfound : found.Pairwise (· < ·)) (hf : ∀ y ∈ l, (f y).Pairwise (· < ·)) :
    (l.foldl (fun found y => union found (f y)) found).Pairwise (· < ·) := by
  induction l generalizing found with
  | nil => exact hfound
  | cons y l ih =>
    obtain ⟨hy, hl⟩ := List.forall_mem_cons.mp hf
    exact ih (pairwise_union hfound hy) hl

theorem mem_borders {edges : List UnitEdge} {x : Nat} :
    x ∈ borders edges ↔ ∃ e ∈ edges, x = e.lo ∨ x = e.hi := by
  simp [borders, mem_foldl_union, mem_union]

theorem pairwise_borders (edges : List UnitEdge) : (borders edges).Pairwise (· < ·) :=
  pairwise_foldl_union .nil fun _ _ => pairwise_union (List.pairwise_singleton _ _)
    (List.pairwise_singleton _ _)

/-! ## §2 Targets -/

variable {closure : Nat → List Nat} {edges : List UnitEdge}

theorem targets_eq (closure : Nat → List Nat) (edges : List UnitEdge) (lo hi : Nat) :
    targets closure edges lo hi = edges.foldl (fun found e =>
      union found (if lo < e.hi ∧ e.lo < hi then closure e.target else [])) [] := by
  have hstep (found : List Nat) (e : UnitEdge) :
      (if lo < e.hi && e.lo < hi then union found (closure e.target) else found) =
        union found (if lo < e.hi ∧ e.lo < hi then closure e.target else []) := by
    by_cases h : lo < e.hi ∧ e.lo < hi
    · simp [h]
    · have hnil : union found [] = found := by cases found <;> simp [union]
      simp [h, hnil]
  simp only [targets, hstep]

/-- The states that a code unit leads to. -/
def targetsAt (closure : Nat → List Nat) (edges : List UnitEdge) (unit : Nat) : List Nat :=
  targets closure edges unit (unit + 1)

theorem mem_targetsAt {unit x : Nat} : x ∈ targetsAt closure edges unit ↔
    ∃ e ∈ edges, e.lo ≤ unit ∧ unit < e.hi ∧ x ∈ closure e.target := by
  simp only [targetsAt, targets_eq, mem_foldl_union, List.not_mem_nil, false_or]
  refine exists_congr fun e => and_congr_right fun _ => ?_
  by_cases h : unit < e.hi ∧ e.lo < unit + 1
  · simp [h]
    omega
  · simp only [if_neg h, List.not_mem_nil, false_iff]
    omega

theorem pairwise_targetsAt (hclosure : ∀ i, (closure i).Pairwise (· < ·)) (unit : Nat) :
    (targetsAt closure edges unit).Pairwise (· < ·) := by
  rw [targetsAt, targets_eq]
  refine pairwise_foldl_union .nil fun e _ => ?_
  split
  · exact hclosure e.target
  · exact .nil

/-- Between two borders without another one between them, all code units lead
to the same states. -/
theorem targets_eq_targetsAt {lo hi unit : Nat} (hlo : lo ≤ unit) (hhi : unit < hi)
    (hapart : ∀ x ∈ borders edges, x ≤ lo ∨ hi ≤ x) :
    targets closure edges lo hi = targetsAt closure edges unit := by
  rw [targetsAt, targets_eq, targets_eq]
  refine List.foldl_ext _ _ _ fun found e he => ?_
  have hbegins := hapart e.lo (mem_borders.mpr ⟨e, he, .inl rfl⟩)
  have hends := hapart e.hi (mem_borders.mpr ⟨e, he, .inr rfl⟩)
  have hsame : (lo < e.hi ∧ e.lo < hi) ↔ (unit < e.hi ∧ e.lo < unit + 1) := by omega
  simp only [hsame]

/-! ## §3 Joining -/

/-- One of the ranges covers the code unit and leads to the states. -/
def Covers (spans : List Span) (unit : Nat) (found : List Nat) : Prop :=
  ∃ s ∈ spans, s.lo ≤ unit ∧ unit < s.hi ∧ s.targets = found

/-- Ranges from a place on, not empty, in ascending order and disjoint. -/
structure Ascending (start : Nat) (spans : List Span) : Prop where
  from_start : ∀ s ∈ spans, start ≤ s.lo
  nonempty : ∀ s ∈ spans, s.lo < s.hi
  disjoint : spans.Pairwise fun s t => s.hi ≤ t.lo

theorem Ascending.nil (start : Nat) : Ascending start [] :=
  ⟨by simp, by simp, .nil⟩

theorem Ascending.weaken {start start' : Nat} {spans : List Span} (h : Ascending start spans)
    (hle : start' ≤ start) : Ascending start' spans :=
  ⟨fun s hs => Nat.le_trans hle (h.from_start s hs), h.nonempty, h.disjoint⟩

theorem Ascending.cons {span : Span} {spans : List Span} (h : Ascending span.hi spans)
    (hspan : span.lo < span.hi) : Ascending span.lo (Subset.cons span spans) := by
  cases spans with
  | nil => exact ⟨by simp [Subset.cons], by simpa [Subset.cons] using hspan, by simp [Subset.cons]⟩
  | cons next rest =>
    obtain ⟨hnext, hrest⟩ := List.forall_mem_cons.mp h.from_start
    obtain ⟨hfull, hfulls⟩ := List.forall_mem_cons.mp h.nonempty
    obtain ⟨happart, hdisjoint⟩ := List.pairwise_cons.mp h.disjoint
    rw [Subset.cons]
    split
    next htouch =>
      simp only [Bool.and_eq_true, decide_eq_true_eq] at htouch
      refine ⟨?_, ?_, List.pairwise_cons.mpr ⟨happart, hdisjoint⟩⟩
      · exact List.forall_mem_cons.mpr ⟨Nat.le_refl _, fun s hs => by have := hrest s hs; omega⟩
      · exact List.forall_mem_cons.mpr ⟨by simp only; omega, hfulls⟩
    next =>
      refine ⟨?_, ?_, List.pairwise_cons.mpr ⟨h.from_start, h.disjoint⟩⟩
      · exact List.forall_mem_cons.mpr
          ⟨Nat.le_refl _, fun s hs => by have := h.from_start s hs; omega⟩
      · exact List.forall_mem_cons.mpr ⟨hspan, h.nonempty⟩

theorem covers_cons {span : Span} {spans : List Span} (h : Ascending span.hi spans)
    (hspan : span.lo < span.hi) {unit : Nat} {found : List Nat} :
    Covers (cons span spans) unit found ↔
      (span.lo ≤ unit ∧ unit < span.hi ∧ span.targets = found) ∨ Covers spans unit found := by
  cases spans with
  | nil => simp [cons, Covers]
  | cons next rest =>
    have hfull := (List.forall_mem_cons.mp h.nonempty).1
    rw [cons]
    split
    next htouch =>
      simp only [Bool.and_eq_true, decide_eq_true_eq] at htouch
      obtain ⟨htouch, hsame⟩ := htouch
      simp only [Covers, List.mem_cons, exists_eq_or_imp, hsame]
      rw [← or_assoc]
      refine or_congr_left ?_
      -- The joined range covers what either of the two does.
      rw [← and_assoc, ← and_assoc, ← and_assoc, ← or_and_right]
      refine and_congr_left fun _ => ?_
      omega
    next => simp [Covers]

/-! ## §4 Spans -/

/-- The ranges between the borders from one on. -/
theorem spansBetween_spec {b : Nat} {rest : List Nat} (hsorted : (b :: rest).Pairwise (· < ·))
    (hborders : ∀ x ∈ borders edges, x ≤ b ∨ x ∈ rest) :
    Ascending b (spansBetween closure edges (b :: rest)) ∧ ∀ unit found,
      Covers (spansBetween closure edges (b :: rest)) unit found ↔
        b ≤ unit ∧ found = targetsAt closure edges unit ∧ found ≠ [] := by
  induction rest generalizing b with
  | nil =>
    refine ⟨.nil b, fun unit found => ?_⟩
    simp only [spansBetween, Covers, List.not_mem_nil, false_and, exists_false, false_iff]
    rintro ⟨hb, rfl, hne⟩
    obtain ⟨x, hx⟩ := List.exists_mem_of_ne_nil _ hne
    obtain ⟨e, he, _, hhi, _⟩ := mem_targetsAt.mp hx
    have := hborders e.hi (mem_borders.mpr ⟨e, he, .inr rfl⟩)
    simp at this
    omega
  | cons hi rest ih =>
    obtain ⟨hb, hrest⟩ := List.pairwise_cons.mp hsorted
    have hlt : b < hi := hb hi List.mem_cons_self
    obtain ⟨hascending, hcovers⟩ := ih hrest fun x hx => by
      rcases hborders x hx with hle | hmem
      · exact .inl (by omega)
      · rcases List.mem_cons.mp hmem with rfl | hmem
        · exact .inl (Nat.le_refl x)
        · exact .inr hmem
    have htargets {unit : Nat} (hlo : b ≤ unit) (hhi : unit < hi) :
        targets closure edges b hi = targetsAt closure edges unit := by
      refine targets_eq_targetsAt hlo hhi fun x hx => (hborders x hx).imp_right fun hmem => ?_
      rcases List.mem_cons.mp hmem with rfl | hmem
      · exact Nat.le_refl x
      · exact Nat.le_of_lt ((List.pairwise_cons.mp hrest).1 x hmem)
    rw [spansBetween]
    split
    next hempty =>
      refine ⟨hascending.weaken (by omega), fun unit found => ?_⟩
      rw [hcovers]
      refine ⟨fun ⟨hlo, hfound⟩ => ⟨by omega, hfound⟩, fun ⟨hlo, hfound, hne⟩ => ?_⟩
      refine ⟨?_, hfound, hne⟩
      by_contra hhi
      rw [hfound, ← htargets hlo (by omega)] at hne
      exact hne (List.isEmpty_iff.mp hempty)
    next hempty =>
      have hjoined : Ascending (Span.mk b hi (targets closure edges b hi)).hi
        (spansBetween closure edges (hi :: rest)) := hascending
      refine ⟨hjoined.cons hlt, fun unit found => ?_⟩
      rw [covers_cons hjoined hlt, hcovers]
      constructor
      · rintro (⟨hlo, hhi, rfl⟩ | ⟨hhi, hfound⟩)
        · exact ⟨hlo, htargets hlo hhi, fun hnil => hempty (List.isEmpty_iff.mpr hnil)⟩
        · exact ⟨by omega, hfound⟩
      · rintro ⟨hlo, hfound, hne⟩
        by_cases hhi : unit < hi
        · exact .inl ⟨hlo, hhi, (htargets hlo hhi).trans hfound.symm⟩
        · exact .inr ⟨by omega, hfound, hne⟩

/-- The ranges are disjoint, a range covers a code unit exactly if it leads
somewhere, and then both lead to the same states. -/
theorem spans_spec (closure : Nat → List Nat) (edges : List UnitEdge) :
    Ascending 0 (spans closure edges) ∧ ∀ unit found,
      Covers (spans closure edges) unit found ↔
        found = targetsAt closure edges unit ∧ found ≠ [] := by
  have hsorted := pairwise_borders edges
  have hbegins {unit : Nat} (hne : targetsAt closure edges unit ≠ []) :
      ∃ x ∈ borders edges, x ≤ unit := by
    obtain ⟨x, hx⟩ := List.exists_mem_of_ne_nil _ hne
    obtain ⟨e, he, hlo, _⟩ := mem_targetsAt.mp hx
    exact ⟨e.lo, mem_borders.mpr ⟨e, he, .inl rfl⟩, hlo⟩
  rw [spans]
  cases hfound : borders edges with
  | nil =>
    refine ⟨.nil 0, fun unit found => ?_⟩
    simp only [spansBetween, Covers, List.not_mem_nil, false_and, exists_false, false_iff]
    rintro ⟨rfl, hne⟩
    obtain ⟨x, hx, _⟩ := hbegins hne
    simp [hfound] at hx
  | cons b rest =>
    rw [hfound] at hsorted hbegins
    have hfirst : ∀ x ∈ b :: rest, b ≤ x :=
      List.forall_mem_cons.mpr ⟨Nat.le_refl b, fun x hx =>
        Nat.le_of_lt ((List.pairwise_cons.mp hsorted).1 x hx)⟩
    obtain ⟨hascending, hcovers⟩ := @spansBetween_spec closure edges b rest hsorted
      fun x hx => (List.mem_cons.mp (hfound ▸ hx)).imp_left Nat.le_of_eq
    refine ⟨hascending.weaken (Nat.zero_le b), fun unit found => ?_⟩
    rw [hcovers]
    refine and_iff_right_of_imp fun ⟨hat, hne⟩ => ?_
    obtain ⟨x, hx, hle⟩ := hbegins (hat ▸ hne)
    exact Nat.le_trans (hfirst x hx) hle

end Subset

end GrammarCompiler
