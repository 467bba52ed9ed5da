/-
GrammarCompiler.Proofs.Refining — splitting classes ends with classes that
edges respect.

A round puts two states into one class exactly if they were in one class and
have the same edges, read with the classes from before. So a round makes
classes smaller or leaves them as they are. There is a state in each class, so
their number tells which of the two it was: if it stays the same, so do the
classes.

  §1 Splits — the class that an old class and a key make.
  §2 Rounds — classes that are split by edges.
  §3 Stable classes — why there is an end, and what holds then.
-/
import GrammarCompiler.Proofs.Minimizing

namespace GrammarCompiler

namespace Minimize

/-! ## §1 Splits -/

section

variable {κ : Type} [BEq κ]

/-- The class that states of an old class with this key are put into. -/
def Splitting.class? (s : Splitting κ) (old : Nat) (key : κ) : Option Nat :=
  (s.known[old]?.getD []).lookup key

theorem Splitting.size_known_add (s : Splitting κ) (old : Nat) (key : κ) :
    (s.add old key).known.size = s.known.size := by
  rw [Splitting.add]
  split <;> simp

variable {s : Splitting κ} {old : Nat} {key : κ}

theorem Splitting.add_of_some {i : Nat} (h : s.class? old key = some i) :
    s.add old key = { s with ofState := s.ofState.push i } := by
  rw [Splitting.class?] at h
  simp [Splitting.add, h]

theorem Splitting.add_of_none (h : s.class? old key = none) :
    s.add old key = {
      ofState := s.ofState.push s.count
      count := s.count + 1
      known := s.known.modify old fun keys => (key, s.count) :: keys } := by
  rw [Splitting.class?] at h
  simp [Splitting.add, h]

/-- A key that is new in its old class makes a new class, and no other one. -/
theorem Splitting.class?_add_of_none [LawfulBEq κ] (hold : old < s.known.size)
    (h : s.class? old key = none)
    {old' : Nat} {key' : κ} {i : Nat} :
    (s.add old key).class? old' key' = some i ↔
      s.class? old' key' = some i ∨ old' = old ∧ key' = key ∧ i = s.count := by
  rw [Splitting.add_of_none h]
  simp only [Splitting.class?] at h ⊢
  by_cases hold' : old' = old
  · subst hold'
    simp only [Array.getElem?_modify, if_true, Array.getElem?_eq_getElem hold, Option.map_some,
      Option.getD_some, List.lookup_cons] at h ⊢
    by_cases hkey : key' = key
    · subst hkey
      simp [h, eq_comm]
    · have hne : (key' == key) = false := by simpa using hkey
      simp only [hne]
      simp [hkey]
  · simp [Array.getElem?_modify, hold', Ne.symm hold']

/-- Classes under way after these states, each with its old class and its
key. An old class and a key make one class, and each class is made by one old
class and one key, those of one of the states. -/
structure Splitting.Has (s : Splitting κ) (pairs : List (Nat × κ)) : Prop where
  ofState : s.ofState.toList.map some = pairs.map fun p => s.class? p.1 p.2
  own : ∀ old key old' key' i, s.class? old key = some i → s.class? old' key' = some i →
    old = old' ∧ key = key'
  lt_count : ∀ old key i, s.class? old key = some i → i < s.count
  filled : ∀ i < s.count, i ∈ s.ofState

theorem Splitting.Has.add_of_some {pairs : List (Nat × κ)} (h : s.Has pairs) {i : Nat}
    (hclass : s.class? old key = some i) : (s.add old key).Has (pairs ++ [(old, key)]) := by
  have hsame : (s.add old key).class? = s.class? := by
    rw [Splitting.add_of_some hclass]
    rfl
  have hstates : (s.add old key).ofState = s.ofState.push i := by
    rw [Splitting.add_of_some hclass]
  have hcount : (s.add old key).count = s.count := by
    rw [Splitting.add_of_some hclass]
  constructor
  · simp [hsame, hstates, hclass, h.ofState]
  · rw [hsame]
    exact h.own
  · rw [hsame, hcount]
    exact h.lt_count
  · intro j hj
    rw [hcount] at hj
    simp [hstates, h.filled j hj]

variable [LawfulBEq κ]

theorem Splitting.Has.add_of_none {pairs : List (Nat × κ)} (h : s.Has pairs)
    (hold : old < s.known.size) (hclass : s.class? old key = none) :
    (s.add old key).Has (pairs ++ [(old, key)]) := by
  have hiff {old' : Nat} {key' : κ} {i : Nat} : (s.add old key).class? old' key' = some i ↔
      s.class? old' key' = some i ∨ old' = old ∧ key' = key ∧ i = s.count :=
    Splitting.class?_add_of_none hold hclass
  have hstates : (s.add old key).ofState = s.ofState.push s.count := by
    rw [Splitting.add_of_none hclass]
  have hcount : (s.add old key).count = s.count + 1 := by
    rw [Splitting.add_of_none hclass]
  constructor
  · have hlast : (s.add old key).class? old key = some s.count := hiff.mpr (.inr ⟨rfl, rfl, rfl⟩)
    have hbefore : (pairs.map fun p => (s.add old key).class? p.1 p.2) =
        pairs.map fun p => s.class? p.1 p.2 := by
      apply List.map_congr_left
      intro p hp
      have hsome : s.class? p.1 p.2 ∈ s.ofState.toList.map some :=
        h.ofState ▸ List.mem_map_of_mem hp
      obtain ⟨i, _, hi⟩ := List.mem_map.mp hsome
      rw [← hi]
      exact hiff.mpr (.inl hi.symm)
    simp only [hstates, Array.toList_push, List.map_append, List.map_cons, List.map_nil, hbefore,
      hlast, h.ofState]
  · intro old₁ key₁ old₂ key₂ i h₁ h₂
    -- the class that is new is not one of those from before
    have hnew {old' : Nat} {key' : κ} (h' : s.class? old' key' = some i) : i ≠ s.count := by
      have := h.lt_count old' key' i h'
      omega
    rcases hiff.mp h₁ with h₁ | ⟨hold₁, hkey₁, hi₁⟩
    · rcases hiff.mp h₂ with h₂ | ⟨_, _, hi₂⟩
      · exact h.own old₁ key₁ old₂ key₂ i h₁ h₂
      · exact absurd hi₂ (hnew h₁)
    · rcases hiff.mp h₂ with h₂ | ⟨hold₂, hkey₂, _⟩
      · exact absurd hi₁ (hnew h₂)
      · exact ⟨hold₁.trans hold₂.symm, hkey₁.trans hkey₂.symm⟩
  · intro old' key' i hi
    rw [hcount]
    rcases hiff.mp hi with hi | ⟨_, _, rfl⟩
    · have := h.lt_count old' key' i hi
      omega
    · omega
  · intro i hi
    rw [hcount] at hi
    rw [hstates, Array.mem_push]
    by_cases hlast : i = s.count
    · exact .inr hlast
    · exact .inl (h.filled i (by omega))

theorem Splitting.Has.add {pairs : List (Nat × κ)} (h : s.Has pairs) (hold : old < s.known.size)
    (key : κ) : (s.add old key).Has (pairs ++ [(old, key)]) := by
  cases hclass : s.class? old key with
  | some i => exact h.add_of_some hclass
  | none => exact h.add_of_none hold hclass

theorem Splitting.Has.foldl (new : List (Nat × κ)) {pairs : List (Nat × κ)} (h : s.Has pairs)
    (hnew : ∀ p ∈ new, p.1 < s.known.size) :
    (new.foldl (fun s p => s.add p.1 p.2) s).Has (pairs ++ new) := by
  induction new generalizing s pairs with
  | nil => simpa using h
  | cons p new ih =>
    obtain ⟨hp, hnew⟩ := List.forall_mem_cons.mp hnew
    rw [List.foldl_cons, List.append_cons]
    apply ih (h.add hp p.2)
    intro q hq
    rw [Splitting.size_known_add]
    exact hnew q hq

end

/-- The class of a state. -/
def Classes.classOf (c : Classes) (i : Nat) : Nat :=
  c.ofState[i]?.getD 0

theorem Classes.target_eq (c : Classes) (e : UnitEdge) : c.target e = c.classOf e.target :=
  rfl

/-- Each of so many states is in one of the classes, and there is a state in
each class. -/
structure Classes.Sorts (c : Classes) (size : Nat) : Prop where
  size_eq : c.ofState.size = size
  lt_count : ∀ i < size, c.classOf i < c.count
  filled : ∀ x < c.count, ∃ i < size, c.classOf i = x

namespace Classes.Sorts

variable {c d : Classes} {size : Nat}

theorem getElem?_eq (h : c.Sorts size) {i : Nat} (hi : i < size) :
    c.ofState[i]? = some (c.classOf i) := by
  have := h.size_eq
  simp [classOf, this, hi]

/-- The classes that have states are all of them. -/
theorem image_classOf (h : c.Sorts size) :
    (Finset.range size).image c.classOf = Finset.range c.count := by
  ext x
  simp only [Finset.mem_image, Finset.mem_range]
  constructor
  · rintro ⟨i, hi, rfl⟩
    exact h.lt_count i hi
  · exact h.filled x

theorem count_le (h : c.Sorts size) : c.count ≤ size := by
  have hcard := Finset.card_image_le (s := Finset.range size) (f := c.classOf)
  simpa [h.image_classOf] using hcard

end Classes.Sorts

/-- Two states are in one class of `next` if they are in one class of `c` and
have the same keys. -/
structure Classes.Splits {κ : Type} (c : Classes) (keys : Nat → κ) (next : Classes) (size : Nat) :
    Prop where
  sorts : next.Sorts size
  iff : ∀ i < size, ∀ j < size,
    next.classOf i = next.classOf j ↔ c.classOf i = c.classOf j ∧ keys i = keys j

/-- Before the first state there are no classes. -/
theorem Splitting.has_nil {κ : Type} [BEq κ] (count : Nat) :
    Splitting.Has ({ known := Array.replicate count [] } : Splitting κ) [] := by
  have hnone (old : Nat) (key : κ) :
      Splitting.class? { known := Array.replicate count [] } old key = none := by
    rw [Splitting.class?, Array.getElem?_replicate]
    split <;> simp
  constructor
  · simp
  · simp [hnone]
  · simp [hnone]
  · simp

theorem Classes.Sorts.splits_split {κ : Type} [BEq κ] [LawfulBEq κ] {c : Classes} {size : Nat}
    (h : c.Sorts size) {keys : Array κ} {key : Nat → κ} (hsize : keys.size = size)
    (hkeys : ∀ i < size, keys[i]? = some (key i)) : c.Splits key (c.split keys) size := by
  let start : Splitting κ := { known := Array.replicate c.count [] }
  let pairs : List (Nat × κ) := (List.range size).map fun i => (c.classOf i, key i)
  let done : Splitting κ := pairs.foldl (fun s p => s.add p.1 p.2) start
  have hzip : (c.ofState.zip keys).toList = pairs := by
    apply List.ext_getElem?
    intro i
    by_cases hi : i < size
    · simp [pairs, List.getElem?_zip_eq_some, h.getElem?_eq hi, hkeys i hi, hi]
    · simp [pairs, h.size_eq, hsize, hi]
  have hsplit : c.split keys = done.toClasses := by
    rw [Classes.split, ← Array.foldl_toList, hzip]
  have hhas : done.Has pairs := by
    have hfold := (Splitting.has_nil c.count).foldl pairs (by
      intro p hp
      obtain ⟨i, hi, rfl⟩ := List.mem_map.mp hp
      simpa using h.lt_count i (List.mem_range.mp hi))
    simpa using hfold
  have hstates : done.ofState.size = size := by
    have hlength := congrArg List.length hhas.ofState
    simpa [pairs] using hlength
  have hclass (i : Nat) (hi : i < size) :
      done.class? (c.classOf i) (key i) = some ((c.split keys).classOf i) := by
    have hget := congrArg (·[i]?) hhas.ofState
    simp only [pairs, List.map_map, List.getElem?_map, List.getElem?_range hi, Option.map_some,
      Function.comp_apply, Array.getElem?_toList] at hget
    have hi' : i < done.ofState.size := by omega
    rw [Array.getElem?_eq_getElem hi'] at hget
    simpa [Classes.classOf, hsplit, hi'] using hget.symm
  refine ⟨⟨by rw [hsplit]; exact hstates, ?_, ?_⟩, ?_⟩
  · intro i hi
    rw [hsplit] at hclass ⊢
    exact hhas.lt_count _ _ _ (hclass i hi)
  · intro x hx
    rw [hsplit] at hx
    obtain ⟨i, hi, rfl⟩ := Array.mem_iff_getElem.mp (hhas.filled x hx)
    refine ⟨i, by omega, ?_⟩
    rw [Classes.classOf, hsplit]
    simp [hi]
  · intro i hi j hj
    constructor
    · intro hsame
      have hj' := hclass j hj
      rw [← hsame] at hj'
      exact hhas.own _ _ _ _ _ (hclass i hi) hj'
    · rintro ⟨hold, hkey⟩
      have hi' := hclass i hi
      rw [hold, hkey, hclass j hj] at hi'
      exact (Option.some.inj hi').symm

/-! ## §2 Rounds -/

/-- The edges of a state as a round reads them: with the classes that they
lead to. -/
def edgeKey (a : Dfa) (c : Classes) (i : Nat) : List (Nat × Nat × Nat) :=
  (a.state i).edges.map fun e => (e.lo, e.hi, c.classOf e.target)

theorem getElem?_states {a : Dfa} {i : Nat} (hi : i < a.size) :
    a.states[i]? = some (a.state i) := by
  rw [Dfa.size] at hi
  simp [Dfa.state, hi]

/-- A round splits classes by edges. -/
theorem Classes.Sorts.splits_refine {a : Dfa} {c : Classes} (h : c.Sorts a.size) :
    c.Splits (edgeKey a c) (refine a c) a.size := by
  apply h.splits_split
  · simp [Dfa.size]
  · intro i hi
    simp [getElem?_states hi, edgeKey, Classes.target_eq]

section

variable {κ : Type} {c next : Classes} {keys : Nat → κ} {size : Nat}

/-- A new class tells the class from before, and there are no other classes
from before. -/
theorem Classes.Splits.exists_coarsen (hc : c.Sorts size) (h : c.Splits keys next size) :
    ∃ f : Nat → Nat, (∀ i < size, c.classOf i = f (next.classOf i)) ∧
      (Finset.range next.count).image f = Finset.range c.count := by
  have hclass (x : Nat) : ∃ y, ∀ i < size, next.classOf i = x → c.classOf i = y := by
    by_cases hx : ∃ i < size, next.classOf i = x
    · obtain ⟨i, hi, hix⟩ := hx
      refine ⟨c.classOf i, ?_⟩
      intro j hj hjx
      exact ((h.iff j hj i hi).mp (hjx.trans hix.symm)).1
    · exact ⟨0, fun i hi hix => absurd ⟨i, hi, hix⟩ hx⟩
  choose f hf using hclass
  have hcoarse (i : Nat) (hi : i < size) : c.classOf i = f (next.classOf i) := hf _ i hi rfl
  refine ⟨f, hcoarse, ?_⟩
  rw [← hc.image_classOf, ← h.sorts.image_classOf, Finset.image_image]
  apply Finset.image_congr
  intro i hi
  exact (hcoarse i (by simpa using hi)).symm

/-- There are as many new classes, or more. -/
theorem Classes.Splits.count_le (hc : c.Sorts size) (h : c.Splits keys next size) :
    c.count ≤ next.count := by
  obtain ⟨f, _, himage⟩ := h.exists_coarsen hc
  have hcard := Finset.card_image_le (s := Finset.range next.count) (f := f)
  simpa [himage] using hcard

/-- If there are as many classes as before, they are the same. -/
theorem Classes.Splits.classOf_eq_iff (hc : c.Sorts size) (h : c.Splits keys next size)
    (hcount : next.count = c.count) {i j : Nat} (hi : i < size) (hj : j < size) :
    next.classOf i = next.classOf j ↔ c.classOf i = c.classOf j := by
  obtain ⟨f, hcoarse, himage⟩ := h.exists_coarsen hc
  have hinj : Set.InjOn f (Finset.range next.count) := by
    rw [← Finset.card_image_iff, himage]
    simp [hcount]
  constructor
  · intro hsame
    exact ((h.iff i hi j hj).mp hsame).1
  · intro hsame
    rw [hcoarse i hi, hcoarse j hj] at hsame
    apply hinj _ _ hsame
    · simpa using h.sorts.lt_count i hi
    · simpa using h.sorts.lt_count j hj

end

/-! ## §3 Stable classes -/

/-- Rounds that are repeated until the number of classes stays the same,
without a limit on their number, lead from classes to others. -/
inductive Loops (a : Dfa) : Classes → Classes → Prop where
  | last {c : Classes} (rests : (refine a c).count = c.count) : Loops a c (refine a c)
  | again {c last : Classes} (splits : (refine a c).count ≠ c.count)
      (rest : Loops a (refine a c) last) : Loops a c last

/-- States of one class have the same tokens. -/
def Classes.Agrees (a : Dfa) (c : Classes) : Prop :=
  ∀ i < a.size, ∀ j < a.size, c.classOf i = c.classOf j →
    (a.state i).accepting = (a.state j).accepting

/-- States of one class have the same tokens, and the same edges if states of
one class are held for the same. -/
structure Classes.IsStable (a : Dfa) (c : Classes) : Prop where
  sorts : c.Sorts a.size
  agrees : c.Agrees a
  edges : ∀ i < a.size, ∀ j < a.size, c.classOf i = c.classOf j → edgeKey a c i = edgeKey a c j

/-- Edges that lead to the same classes lead to the same classes when states
are put into other classes in the same way. -/
theorem edgeKey_congr {a : Dfa} {c d : Classes}
    (hinside : ∀ i, ∀ e ∈ (a.state i).edges, e.target < a.size)
    (hsame : ∀ i < a.size, ∀ j < a.size, c.classOf i = c.classOf j → d.classOf i = d.classOf j)
    {i j : Nat} (h : edgeKey a c i = edgeKey a c j) : edgeKey a d i = edgeKey a d j := by
  simp only [edgeKey] at h ⊢
  have hi := hinside i
  have hj := hinside j
  generalize (a.state i).edges = es at h hi ⊢
  generalize (a.state j).edges = fs at h hj ⊢
  induction es generalizing fs with
  | nil => simpa using h
  | cons e es ih =>
    cases fs with
    | nil => simp at h
    | cons f fs =>
      obtain ⟨he, hes⟩ := List.forall_mem_cons.mp hi
      obtain ⟨hf, hfs⟩ := List.forall_mem_cons.mp hj
      simp only [List.map_cons, List.cons.injEq, Prod.mk.injEq] at h ⊢
      obtain ⟨⟨hlo, hhi, htarget⟩, hrest⟩ := h
      exact ⟨⟨hlo, hhi, hsame _ he _ hf htarget⟩, ih hes fs hrest hfs⟩

section

variable {a : Dfa} {c : Classes}

theorem Classes.Agrees.refine (hsorts : c.Sorts a.size) (h : c.Agrees a) :
    (Minimize.refine a c).Agrees a := by
  intro i hi j hj hsame
  exact h i hi j hj ((hsorts.splits_refine.iff i hi j hj).mp hsame).1

/-- The classes after a round that did not split any are stable. -/
theorem Classes.isStable_refine (hinside : ∀ i, ∀ e ∈ (a.state i).edges, e.target < a.size)
    (hsorts : c.Sorts a.size) (hagrees : c.Agrees a)
    (hcount : (refine a c).count = c.count) : (refine a c).IsStable a := by
  have hsplits := hsorts.splits_refine
  refine ⟨hsplits.sorts, hagrees.refine hsorts, ?_⟩
  intro i hi j hj hsame
  apply edgeKey_congr hinside _ ((hsplits.iff i hi j hj).mp hsame).2
  intro p hp q hq hold
  exact (hsplits.classOf_eq_iff hsorts hcount hp hq).mpr hold

/-- Each round but the last makes more classes, and there are not more of them
than states. So the limit on the number of rounds is never met. -/
theorem loops_rounds {fuel : Nat} (hsorts : c.Sorts a.size) (hfuel : a.size < fuel + c.count) :
    Loops a c (rounds a fuel c) := by
  induction fuel generalizing c with
  | zero =>
    have := hsorts.count_le
    omega
  | succ fuel ih =>
    have hsplits := hsorts.splits_refine
    rw [rounds]
    by_cases hcount : (refine a c).count = c.count
    · simp only [hcount, if_true]
      exact .last hcount
    · have hgrows := hsplits.count_le hsorts
      simp only [hcount, if_false]
      exact .again hcount (ih hsplits.sorts (by omega))

theorem Loops.isStable {last : Classes} (h : Loops a c last)
    (hinside : ∀ i, ∀ e ∈ (a.state i).edges, e.target < a.size)
    (hsorts : c.Sorts a.size) (hagrees : c.Agrees a) : last.IsStable a := by
  induction h with
  | last rests => exact Classes.isStable_refine hinside hsorts hagrees rests
  | again _ _ ih => exact ih hsorts.splits_refine.sorts (hagrees.refine hsorts)

/-- The classes before the first round: states with the same tokens. -/
def Classes.start (a : Dfa) : Classes :=
  Classes.split ⟨Array.replicate a.size 0, 1⟩ (a.states.map DfaState.accepting)

theorem Classes.splits_start (hsize : 0 < a.size) :
    Classes.Splits ⟨Array.replicate a.size 0, 1⟩ (fun i => (a.state i).accepting) (start a)
      a.size := by
  have hsorts : Classes.Sorts ⟨Array.replicate a.size 0, 1⟩ a.size := by
    constructor
    · simp
    · intro i hi
      simp [Classes.classOf, hi]
    · intro x hx
      exact ⟨0, hsize, by simp at hx; simp [Classes.classOf, hsize, hx]⟩
  apply hsorts.splits_split
  · simp [Dfa.size]
  · intro i hi
    simp [getElem?_states hi]

theorem Classes.agrees_start (hsize : 0 < a.size) : (start a).Agrees a := by
  intro i hi j hj hsame
  exact (((splits_start hsize).iff i hi j hj).mp hsame).2

theorem loops_classes (hsize : 0 < a.size) :
    ∃ last, Loops a (Classes.start a) last ∧ last.ofState = classes a := by
  have hloops : Loops a (Classes.start a) (rounds a (a.size + 1) (Classes.start a)) :=
    loops_rounds (Classes.splits_start hsize).sorts (by omega)
  exact ⟨_, hloops, rfl⟩

/-- The classes that states are put into are stable. -/
theorem exists_isStable (hsize : 0 < a.size)
    (hinside : ∀ i, ∀ e ∈ (a.state i).edges, e.target < a.size) :
    ∃ c : Classes, c.IsStable a ∧ c.ofState = classes a := by
  obtain ⟨last, hloops, hlast⟩ := loops_classes hsize
  exact ⟨last, hloops.isStable hinside (Classes.splits_start hsize).sorts
    (Classes.agrees_start hsize), hlast⟩

end

end Minimize

end GrammarCompiler
