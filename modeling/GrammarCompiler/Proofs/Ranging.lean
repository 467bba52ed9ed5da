/-
GrammarCompiler.Proofs.Ranging — a range adds its characters and nothing else.

What is built into an automaton stands behind the edges it had, or in new states.
So what a range adds is what it builds on the bare states (`Adds`): between its ends
the code units of its characters are read, and all other paths are those that were
there, and those that take the new way any number of times.

  §1 Additions — an automaton, and what has been added to it.
  §2 Ranges    — what a range adds.
-/
import GrammarCompiler.Proofs.Characters

namespace GrammarCompiler

open Text
open scoped Computability

namespace Nfa

variable {a b c b' c' : Nfa} {s t lo hi : Nat}

/-! ## §1 Additions -/

/-- `a.Adds c b`: the automaton `b` has the edges of `a`, and behind them those of
`c`, none of which is on an empty range. -/
structure Adds (a c b : Nfa) : Prop where
  size_le : a.size ≤ b.size
  size_eq : c.size = b.size
  accepting : ∀ i, (b.state i).accepting = (a.state i).accepting ++ (c.state i).accepting
  edges : ∀ i, (b.state i).edges = (a.state i).edges ++ (c.state i).edges
  empty : ∀ i, (b.state i).empty = (a.state i).empty ++ (c.state i).empty
  proper : ∀ i, ∀ e ∈ (c.state i).edges, e.lo < e.hi

/-- The states of an automaton without edges. -/
def bare (a : Nfa) : Nfa :=
  ⟨Array.replicate a.size {}⟩

@[simp] theorem size_bare (a : Nfa) : a.bare.size = a.size := by
  simp [bare, size]

@[simp] theorem state_bare (a : Nfa) (i : Nat) : a.bare.state i = {} := by
  rw [state, bare, Array.getElem?_replicate]
  split <;> rfl

theorem adds_bare (a : Nfa) : a.Adds a.bare a := by
  constructor <;> simp

namespace Adds

theorem addState (h : a.Adds c b) : a.Adds c.addState.2 b.addState.2 where
  size_le := by
    rw [size_addState]
    exact Nat.le_succ_of_le h.size_le
  size_eq := by rw [size_addState, size_addState, h.size_eq]
  accepting := by simpa using h.accepting
  edges := by simpa using h.edges
  empty := by simpa using h.empty
  proper := by simpa using h.proper

theorem addEdge (h : a.Adds c b) (s t : Nat) (hlt : lo < hi) :
    a.Adds (c.addEdge s lo hi t) (b.addEdge s lo hi t) where
  size_le := by
    rw [size_addEdge]
    exact h.size_le
  size_eq := by rw [size_addEdge, size_addEdge, h.size_eq]
  accepting := by simpa using h.accepting
  edges i := by
    rw [Nfa.addEdge, Nfa.addEdge, state_modify, state_modify, h.size_eq]
    split
    · rw [← List.append_assoc, ← h.edges]
    · exact h.edges i
  empty := by simpa using h.empty
  proper i e he := by
    rcases mem_edges_addEdge.mp he with he | ⟨-, rfl⟩
    · exact h.proper i e he
    · exact hlt

theorem ite {p : Prop} [Decidable p] (h : a.Adds c b) (h' : p → a.Adds c' b') :
    a.Adds (if p then c' else c) (if p then b' else b) := by
  split
  next hp => exact h' hp
  next => exact h

theorem addPair (h : a.Adds c b) (s t : Nat) {highLo highHi lowLo lowHi : Nat}
    (hhigh : highLo < highHi) (hlow : lowLo < lowHi) :
    a.Adds (c.addPair s t highLo highHi lowLo lowHi) (b.addPair s t highLo highHi lowLo lowHi) := by
  have hpair (d : Nfa) : d.addPair s t highLo highHi lowLo lowHi =
      (d.addState.2.addEdge s highLo highHi d.size).addEdge d.size lowLo lowHi t := rfl
  rw [hpair, hpair, h.size_eq]
  exact (h.addState.addEdge s b.size hhigh).addEdge b.size t hlow

theorem addBasicRange (h : a.Adds c b) (s t : Nat) (hlt : lo < hi) (hlo : lo < 0x10000) :
    a.Adds (c.addBasicRange s t lo hi) (b.addBasicRange s t lo hi) :=
  (h.ite fun _ => h.addEdge s t (by omega)).ite fun _ =>
    (h.ite fun _ => h.addEdge s t (by omega)).addEdge s t (by omega)

theorem addAstralRange (h : a.Adds c b) (s t : Nat) (hlo : 0x10000 ≤ lo) (hlt : lo < hi) :
    a.Adds (c.addAstralRange s t lo hi) (b.addAstralRange s t lo hi) := by
  have hlow (code : Nat) : 0xdc00 ≤ (surrogates code).2 ∧ (surrogates code).2 < 0xe000 := by
    simp only [surrogates]
    omega
  have hfirst := hlow lo
  have hlast := hlow (hi - 1)
  unfold Nfa.addAstralRange
  dsimp only
  by_cases heq : (surrogates lo).1 = (surrogates (hi - 1)).1
  · rw [if_pos heq, if_pos heq]
    refine h.addPair s t (Nat.lt_succ_self _) ?_
    simp only [surrogates] at heq ⊢
    omega
  · rw [if_neg heq, if_neg heq]
    have h₁ := h.ite fun _ : decide (0xdc00 < (surrogates lo).2) = true =>
      h.addPair s t (Nat.lt_succ_self (surrogates lo).1) hfirst.2
    have h₂ := h₁.ite fun _ : decide ((surrogates (hi - 1)).2 < 0xdfff) = true =>
      h₁.addPair s t (Nat.lt_succ_self (surrogates (hi - 1)).1) (Nat.lt_succ_of_le hlast.1)
    exact h₂.ite fun hle => h₂.addPair s t (Nat.lt_succ_of_le hle) (by decide)

theorem addRange (h : a.Adds c b) (s t : Nat) (hlt : lo < hi) :
    a.Adds (c.addRange s t lo hi) (b.addRange s t lo hi) := by
  have hbasic := h.ite fun hlo : lo < 0x10000 => h.addBasicRange s t hlt hlo
  unfold Nfa.addRange
  dsimp only
  split
  next => exact hbasic
  next => exact hbasic.addAstralRange s t (by omega) (by omega)

end Adds

/-! ## §2 Ranges -/

theorem ways_bare_self (a : Nfa) (i : Nat) : a.bare.ways i i = 1 :=
  ways_self_of_state_eq (state_bare a i)

theorem ways_bare_of_ne (a : Nfa) {i j : Nat} (h : j ≠ i) : a.bare.ways i j = 0 :=
  ways_of_state_eq (state_bare a i) h

theorem admits_bare (a : Nfa) (L : Nat → Language Nat) : a.bare.Admits L := by
  constructor <;> simp

/-- What a range adds to an automaton are edges on ranges that are not empty. Between
its ends exactly the code units of its characters are read on them; surrogates are no
characters. All paths between states of the automaton are those it had, and those that
take the new way in between, once or again and again. -/
theorem addRange_exact (hempty : ∀ i, ∀ m ∈ (a.state i).empty, m < a.size)
    (hedges : ∀ i, ∀ e ∈ (a.state i).edges, e.target < a.size) (hs : s < a.size) (ht : t < a.size)
    (hne : s ≠ t) (hlt : lo < hi) (hhi : hi ≤ CharSet.codePoints) :
    ∃ added, a.Adds added (a.addRange s t lo hi) ∧
      (∀ word, added.Path s word t ↔
        ∃ c : Char, lo ≤ c.toNat ∧ c.toNat < hi ∧ word = units [c]) ∧
      (∀ i, ∀ e ∈ (added.state i).edges, e.lo < e.hi) ∧
      ∀ i < a.size, ∀ j < a.size, (a.addRange s t lo hi).ways i j =
        a.ways i j +
          a.ways i s * rangeWords lo hi * (a.ways t s * rangeWords lo hi)∗ * a.ways t j := by
  have hadds := a.adds_bare.addRange s t hlt
  refine ⟨_, hadds, fun word => ?_, hadds.proper, fun i hi' j hj => ?_⟩
  · have hjoins : a.bare.Joins s t (rangeWords lo hi) (a.bare.addRange s t lo hi) :=
      joins_addRange (by simpa using hs) (by simpa using ht) hlt hhi
    have hways := hjoins.ways_eq_kstar (a.admits_bare _) (by simpa using hs) (by simpa using ht)
    rw [ways_bare_self, ways_bare_self, ways_bare_of_ne a hne, ways_bare_of_ne a hne.symm, zero_mul,
      kstar_zero, zero_add, one_mul, mul_one, mul_one] at hways
    exact Set.ext_iff.mp hways word
  · have hclosed : a.Admits fun _ => ⊤ :=
      ⟨fun i m hm => ⟨hempty i m hm, le_rfl⟩, fun i e he => ⟨hedges i e he, fun _ _ _ _ _ => trivial⟩⟩
    exact (joins_addRange hs ht hlt hhi).ways_eq_kstar hclosed hi' hj

/-- Two states, and a blank that leads from the second one back to the first. -/
def returning : Nfa :=
  ⟨#[{}, { edges := [⟨0x20, 0x21, 0⟩] }]⟩

/-- A range on both sides of the surrogates, up to an emoji: its characters are read, half of a
pair is not, and after a blank there can be another character. -/
theorem addRange_exact_returning :
    ∃ added, returning.Adds added (returning.addRange 0 1 0xd7ff 0x1f601) ∧
      added.Path 0 [0xd83d, 0xde00] 1 ∧ ¬ added.Path 0 [0xd83d] 1 ∧
      (returning.addRange 0 1 0xd7ff 0x1f601).Path 0 [0xe000, 0x20, 0xd83d, 0xde00] 1 := by
  have hstates (i : Nat) : returning.state i = {} ∨
      i = 1 ∧ returning.state i = { edges := [⟨0x20, 0x21, 0⟩] } := by
    match i with
    | 0 => exact .inl rfl
    | 1 => exact .inr ⟨rfl, rfl⟩
    | i + 2 => exact .inl rfl
  have hlt : 0xd7ff < 0x1f601 := by decide
  obtain ⟨added, hadds, hpath, -, hways⟩ := addRange_exact (a := returning) (s := 0) (t := 1)
    (fun i m hm => by rcases hstates i with h | ⟨-, h⟩ <;> simp [h] at hm)
    (fun i e he => by
      rcases hstates i with h | ⟨-, h⟩
      · simp [h] at he
      · simp only [h, List.mem_singleton] at he
        exact he ▸ (by decide))
    (by decide) (by decide) (by decide) hlt (by decide)
  have hemoji : [0xd83d, 0xde00] ∈ rangeWords 0xd7ff 0x1f601 := ⟨'😀', by decide⟩
  have hprivate : [0xe000] ∈ rangeWords 0xd7ff 0x1f601 := ⟨'\ue000', by decide⟩
  refine ⟨added, hadds, (hpath _).mpr hemoji, fun h => ?_, ?_⟩
  · obtain ⟨c, -, -, hword⟩ := (hpath _).mp h
    rw [units_single, unitsOf] at hword
    split at hword
    · obtain ⟨hcode, -⟩ := List.cons.inj hword
      have hchar := exists_char_iff.mp ⟨c, rfl⟩
      omega
    · simp at hword
  · have hback : [0x20] ∈ returning.ways 1 0 :=
      .edge (e := ⟨0x20, 0x21, 0⟩) (.head _) (by decide) (by decide) (.done 0)
    have honce : returning.ways 1 0 * rangeWords 0xd7ff 0x1f601 ≤
        (returning.ways 1 0 * rangeWords 0xd7ff 0x1f601)∗ := le_kstar
    have hagain : [0x20, 0xd83d, 0xde00] ∈ (returning.ways 1 0 * rangeWords 0xd7ff 0x1f601)∗ :=
      honce (Language.append_mem_mul hback hemoji)
    have hround : [] ++ [0xe000] ++ [0x20, 0xd83d, 0xde00] ++ [] ∈ returning.ways 0 0 *
        rangeWords 0xd7ff 0x1f601 * (returning.ways 1 0 * rangeWords 0xd7ff 0x1f601)∗ *
          returning.ways 1 1 :=
      Language.append_mem_mul (Language.append_mem_mul
        (Language.append_mem_mul (.done 0 : [] ∈ returning.ways 0 0) hprivate) hagain)
        (.done 1 : [] ∈ returning.ways 1 1)
    have hall : [0xe000, 0x20, 0xd83d, 0xde00] ∈
        (returning.addRange 0 1 0xd7ff 0x1f601).ways 0 1 := by
      rw [hways 0 (by decide) 1 (by decide)]
      exact .inr hround
    exact hall

end Nfa

end GrammarCompiler
