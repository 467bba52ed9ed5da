/-
GrammarCompiler.Proofs.Characters — ways for characters read exactly their code units.

A range of code points is built from at most two edges for the basic plane,
where the surrogates are left out, and at most three pairs of edges above it.
Together they read the code units of the characters in the range.

  §1 Units    — the code units of characters, and of pairs.
  §2 Ranges   — the basic plane, what is above it, and both.
  §3 Literals — one code unit after another, and any character.
-/
import GrammarCompiler.CharSet
import GrammarCompiler.Proofs.Joining
import GrammarCompiler.Tokenizer.Build

namespace GrammarCompiler

open Text

/-! ## §1 Units -/

theorem isHighSurrogate_iff {unit : Nat} :
    isHighSurrogate unit = true ↔ 0xd800 ≤ unit ∧ unit < 0xdc00 := by
  simp [isHighSurrogate]

theorem isLowSurrogate_iff {unit : Nat} :
    isLowSurrogate unit = true ↔ 0xdc00 ≤ unit ∧ unit < 0xe000 := by
  simp [isLowSurrogate]

namespace Nfa

variable {a b : Nfa} {s t lo hi : Nat} {K K' : Language Nat}

/-- The code units of the characters of a range. -/
def rangeWords (lo hi : Nat) : Language Nat :=
  {word | ∃ c : Char, lo ≤ c.toNat ∧ c.toNat < hi ∧ word = units [c]}

/-- The surrogate pairs of the code points of a range. -/
def pairWords (lo hi : Nat) : Language Nat :=
  {word | ∃ code, lo ≤ code ∧ code < hi ∧ word = [(surrogates code).1, (surrogates code).2]}

theorem units_single (c : Char) : units [c] = unitsOf c.toNat := by
  simp [units]

/-- Characters are the code points that are no surrogates. -/
theorem exists_char_iff {code : Nat} :
    (∃ c : Char, c.toNat = code) ↔ code < 0xd800 ∨ 0xe000 ≤ code ∧ code < 0x110000 := by
  constructor
  · rintro ⟨c, rfl⟩
    have hvalid : c.toNat.isValidChar := c.valid
    simp only [Nat.isValidChar] at hvalid
    omega
  · intro h
    have hvalid : code.isValidChar := by
      simp only [Nat.isValidChar]
      omega
    exact ⟨Char.ofNatAux code hvalid, by simp [Char.ofNatAux, Char.toNat]⟩

theorem mem_unitWords_mul {lo' hi' : Nat} {word : List Nat} :
    word ∈ unitWords lo hi * unitWords lo' hi' ↔
      ∃ high low, (lo ≤ high ∧ high < hi) ∧ (lo' ≤ low ∧ low < hi') ∧ word = [high, low] := by
  rw [Language.mem_mul]
  constructor
  · rintro ⟨_, ⟨high, hlo, hhi, rfl⟩, _, ⟨low, hlo', hhi', rfl⟩, rfl⟩
    exact ⟨high, low, ⟨hlo, hhi⟩, ⟨hlo', hhi'⟩, rfl⟩
  · rintro ⟨high, low, ⟨hlo, hhi⟩, ⟨hlo', hhi'⟩, rfl⟩
    exact ⟨[high], ⟨high, hlo, hhi, rfl⟩, [low], ⟨low, hlo', hhi', rfl⟩, rfl⟩

/-- A pair is made of two surrogates, which tell the code point. -/
theorem mem_pairWords (hlo : 0x10000 ≤ lo) {word : List Nat} :
    word ∈ pairWords lo hi ↔ ∃ high low, (0xd800 ≤ high ∧ 0xdc00 ≤ low ∧ low < 0xe000 ∧
      lo ≤ 0x10000 + (high - 0xd800) * 0x400 + (low - 0xdc00) ∧
      0x10000 + (high - 0xd800) * 0x400 + (low - 0xdc00) < hi) ∧ word = [high, low] := by
  constructor
  · rintro ⟨code, hcode, hcode', rfl⟩
    refine ⟨_, _, ?_, rfl⟩
    simp only [surrogates]
    omega
  · rintro ⟨high, low, h, rfl⟩
    refine ⟨0x10000 + (high - 0xd800) * 0x400 + (low - 0xdc00), h.2.2.2.1, h.2.2.2.2, ?_⟩
    simp only [surrogates, List.cons.injEq, and_true]
    omega

/-- The code units of a range: those of the basic plane, without the surrogates,
and pairs. -/
theorem rangeWords_eq (hhi : hi ≤ CharSet.codePoints) :
    rangeWords lo hi = unitWords lo (min hi 0xd800) +
      unitWords (max lo 0xe000) (min hi 0x10000) + pairWords (max lo 0x10000) hi := by
  simp only [CharSet.codePoints] at hhi
  ext word
  constructor
  · rintro ⟨c, hlo, hc, rfl⟩
    have hchar := exists_char_iff.mp ⟨c, rfl⟩
    rw [units_single, unitsOf]
    split
    · rcases hchar with hchar | hchar
      · exact .inl (.inl ⟨c.toNat, hlo, by omega, rfl⟩)
      · exact .inl (.inr ⟨c.toNat, by omega, by omega, rfl⟩)
    · exact .inr ⟨c.toNat, by omega, hc, rfl⟩
  · have hmem {code : Nat} (hlo : lo ≤ code) (hc : code < hi)
        (hchar : code < 0xd800 ∨ 0xe000 ≤ code) : unitsOf code ∈ rangeWords lo hi := by
      obtain ⟨c, rfl⟩ := exists_char_iff.mpr (hchar.imp_right fun h => ⟨h, by omega⟩)
      exact ⟨c, hlo, hc, (units_single c).symm⟩
    rintro ((⟨u, hlo, hu, rfl⟩ | ⟨u, hlo, hu, rfl⟩) | ⟨code, hlo, hcode, rfl⟩)
    · have hword : unitsOf u ∈ rangeWords lo hi := hmem hlo (by omega) (.inl (by omega))
      rwa [unitsOf, if_pos (by omega)] at hword
    · have hword : unitsOf u ∈ rangeWords lo hi := hmem (by omega) (by omega) (.inr (by omega))
      rwa [unitsOf, if_pos (by omega)] at hword
    · have hword : unitsOf code ∈ rangeWords lo hi := hmem (by omega) hcode (.inr (by omega))
      rwa [unitsOf, if_neg (by omega)] at hword

/-! ## §2 Ranges -/

theorem Joins.congr (h : a.Joins s t K b) (heq : K = K') : a.Joins s t K' b :=
  heq ▸ h

/-- A part that is only built if there is something to read. -/
theorem joins_ite {p : Prop} {_ : Decidable p} (h : p → a.Joins s t K b) (hzero : ¬ p → K = 0) :
    a.Joins s t K (if p then b else a) := by
  split
  next hp => exact h hp
  next hp => exact hzero hp ▸ joins_zero a s t

theorem joins_when {p : Prop} {_ : Decidable p} (h : a.Joins s t K b) :
    a.Joins s t (if p then K else 0) (if p then b else a) := by
  split
  · exact h
  · exact joins_zero a s t

theorem mem_when {p : Prop} {_ : Decidable p} {word : List Nat} :
    word ∈ (if p then K else 0) ↔ p ∧ word ∈ K := by
  split <;> simp [*]

theorem unitWords_eq_zero (h : hi ≤ lo) : unitWords lo hi = 0 := by
  ext word
  refine ⟨?_, fun h => absurd h (Language.notMem_zero _)⟩
  rintro ⟨u, hlo, hhi, -⟩
  omega

theorem pairWords_eq_zero (h : hi ≤ lo) : pairWords lo hi = 0 := by
  ext word
  refine ⟨?_, fun h => absurd h (Language.notMem_zero _)⟩
  rintro ⟨u, hlo, hhi, -⟩
  omega

section

variable (hs : s < a.size) (ht : t < a.size)
include hs ht

theorem joins_addPair (highLo highHi lowLo lowHi : Nat) :
    a.Joins s t (unitWords highLo highHi * unitWords lowLo lowHi)
      (a.addPair s t highLo highHi lowLo lowHi) := by
  have hsize : a.addState.2.size = a.size + 1 := size_addState a
  refine Joins.mul (b := a.addState.2.addEdge s highLo highHi a.size) ?_ ?_ hs ht
  · exact joins_addEdge (by omega) (by omega)
  · exact joins_addEdge (by rw [size_addEdge]; omega) (by rw [size_addEdge]; omega)

theorem joins_addBasicRange : a.Joins s t
    (unitWords lo (min hi 0xd800) + unitWords (max lo 0xe000) (min hi 0x10000))
    (a.addBasicRange s t lo hi) := by
  have hfirst : a.Joins s t (unitWords lo (min hi 0xd800))
      (if lo < 0xd800 then a.addEdge s lo (min hi 0xd800) t else a) :=
    joins_ite (fun _ => joins_addEdge hs ht) fun h => unitWords_eq_zero (by omega)
  refine hfirst.add (joins_ite (fun _ => ?_) fun h => unitWords_eq_zero (by omega)) hs ht
  have hle := hfirst.grows.size_le
  exact joins_addEdge (by omega) (by omega)

/-- The first surrogates whose second ones are limited, and those in between. -/
theorem joins_addAstralRange (hlo : 0x10000 ≤ lo) (hlt : lo < hi) :
    a.Joins s t (pairWords lo hi) (a.addAstralRange s t lo hi) := by
  rw [addAstralRange]
  split
  next loHigh loLow hfirst =>
  split
  next hiHigh hiLow hlast =>
  simp only [surrogates, Prod.mk.injEq] at hfirst hlast
  split
  next heq =>
    refine (joins_addPair hs ht _ _ _ _).congr (Set.ext fun word => ?_)
    refine mem_unitWords_mul.trans (.trans ?_ (mem_pairWords hlo).symm)
    refine exists₂_congr fun high low => ?_
    simp only [← and_assoc, and_congr_left_iff]
    intro _
    omega
  next hne =>
    extract_lets cutsFirst cutsLast withFirst withLast first last
    have hcuts : cutsFirst = true ↔ 0xdc00 < loLow := decide_eq_true_iff
    have hcuts' : cutsLast = true ↔ hiLow < 0xdfff := decide_eq_true_iff
    have hbegin : 0xdc00 < loLow ∧ first = loHigh + 1 ∨ ¬ 0xdc00 < loLow ∧ first = loHigh := by
      by_cases h : 0xdc00 < loLow <;> simp [first, cutsFirst, h]
    have hend : hiLow < 0xdfff ∧ last = hiHigh - 1 ∨ ¬ hiLow < 0xdfff ∧ last = hiHigh := by
      by_cases h : hiLow < 0xdfff <;> simp [last, cutsLast, h]
    clear_value first last cutsFirst cutsLast
    have h₁ : a.Joins s t _ withFirst :=
      joins_when (joins_addPair hs ht loHigh (loHigh + 1) loLow 0xe000)
    have h₂ : withFirst.Joins s t _ withLast :=
      joins_when (joins_addPair (h₁.lt_size hs) (h₁.lt_size ht) hiHigh (hiHigh + 1) 0xdc00
        (hiLow + 1))
    have h₁₂ := h₁.add h₂ hs ht
    refine (h₁₂.add (joins_when (joins_addPair (h₁₂.lt_size hs) (h₁₂.lt_size ht) first (last + 1)
      0xdc00 0xe000)) hs ht).congr (Set.ext fun word => .trans ?_ (mem_pairWords hlo).symm)
    constructor
    · rintro ((h | h) | h)
      all_goals
        obtain ⟨hp, h⟩ := mem_when.mp h
        obtain ⟨high, low, hhigh, hlow, rfl⟩ := mem_unitWords_mul.mp h
        refine ⟨high, low, ?_, rfl⟩
      · have := hcuts.mp hp
        omega
      · have := hcuts'.mp hp
        omega
      · omega
    · rintro ⟨high, low, h, rfl⟩
      by_cases hfirstCut : 0xdc00 < loLow ∧ high = loHigh
      · exact .inl (.inl (mem_when.mpr ⟨hcuts.mpr hfirstCut.1,
          mem_unitWords_mul.mpr ⟨high, low, by omega, by omega, rfl⟩⟩))
      by_cases hlastCut : hiLow < 0xdfff ∧ high = hiHigh
      · exact .inl (.inr (mem_when.mpr ⟨hcuts'.mpr hlastCut.1,
          mem_unitWords_mul.mpr ⟨high, low, by omega, by omega, rfl⟩⟩))
      · exact .inr (mem_when.mpr ⟨by omega,
          mem_unitWords_mul.mpr ⟨high, low, by omega, by omega, rfl⟩⟩)

theorem joins_addRange (hlt : lo < hi) (hhi : hi ≤ CharSet.codePoints) :
    a.Joins s t (rangeWords lo hi) (a.addRange s t lo hi) := by
  have hbasic : a.Joins s t
      (unitWords lo (min hi 0xd800) + unitWords (max lo 0xe000) (min hi 0x10000))
      (if lo < 0x10000 then a.addBasicRange s t lo hi else a) := by
    refine joins_ite (fun _ => joins_addBasicRange hs ht) fun h => ?_
    rw [unitWords_eq_zero (by omega), unitWords_eq_zero (by omega), add_zero]
  rw [rangeWords_eq hhi, addRange]
  refine hbasic.add ?_ hs ht
  by_cases h : hi ≤ 0x10000
  · rw [if_pos h, pairWords_eq_zero (by omega)]
    exact joins_zero _ s t
  · rw [if_neg h]
    exact joins_addAstralRange (hbasic.lt_size hs) (hbasic.lt_size ht) (by omega) (by omega)

end

/-- The code units of the characters of a set. -/
def setWords (ranges : List CodeRange) : Language Nat :=
  {word | ∃ c : Char, CharSet.contains ranges c.toNat = true ∧ word = units [c]}

theorem setWords_cons (r : CodeRange) (ranges : List CodeRange) :
    setWords (r :: ranges) = rangeWords r.lo r.hi + setWords ranges := by
  ext word
  constructor
  · rintro ⟨c, hc, rfl⟩
    rw [CharSet.contains, List.any_cons, Bool.or_eq_true] at hc
    rcases hc with hc | hc
    · simp only [Bool.and_eq_true, decide_eq_true_eq] at hc
      exact .inl ⟨c, hc.1, hc.2, rfl⟩
    · exact .inr ⟨c, hc, rfl⟩
  · rintro (⟨c, hlo, hhi, rfl⟩ | ⟨c, hc, rfl⟩)
    · exact ⟨c, by simp [CharSet.contains, hlo, hhi], rfl⟩
    · refine ⟨c, ?_, rfl⟩
      rw [CharSet.contains, List.any_cons, Bool.or_eq_true]
      exact .inr hc

theorem joins_addRanges {ranges : List CodeRange}
    (hranges : ∀ r ∈ ranges, r.lo < r.hi ∧ r.hi ≤ CharSet.codePoints) (hs : s < a.size)
    (ht : t < a.size) :
    a.Joins s t (setWords ranges) (ranges.foldl (fun a r => a.addRange s t r.lo r.hi) a) := by
  induction ranges generalizing a with
  | nil =>
    refine (joins_zero a s t).congr (Set.ext fun word => ⟨fun h => ?_, ?_⟩)
    · exact absurd h (Language.notMem_zero _)
    · rintro ⟨c, hc, -⟩
      cases hc
  | cons r ranges ih =>
    obtain ⟨⟨hlt, hhi⟩, hrest⟩ := List.forall_mem_cons.mp hranges
    have hfirst := joins_addRange hs ht hlt hhi
    rw [List.foldl_cons, setWords_cons]
    exact hfirst.add (ih hrest (hfirst.lt_size hs) (hfirst.lt_size ht)) hs ht

/-- Any character is a code unit, or a surrogate pair. -/
theorem joins_addAny (hs : s < a.size) (ht : t < a.size) :
    a.Joins s t (unitWords 0 0x10000 + unitWords 0xd800 0xdc00 * unitWords 0xdc00 0xe000)
      (a.addAny s t) := by
  have hunits : unitWords 0 0xdc00 + unitWords 0xdc00 0x10000 = unitWords 0 0x10000 := by
    ext word
    constructor
    · rintro (⟨u, hlo, hhi, rfl⟩ | ⟨u, hlo, hhi, rfl⟩)
      · exact ⟨u, by omega, by omega, rfl⟩
      · exact ⟨u, by omega, by omega, rfl⟩
    · rintro ⟨u, hlo, hhi, rfl⟩
      by_cases h : u < 0xdc00
      · exact .inl ⟨u, hlo, h, rfl⟩
      · exact .inr ⟨u, by omega, hhi, rfl⟩
  let b := (a.addState.2.addEdge s 0 0xdc00 t).addEdge s 0xdc00 0x10000 t
  have hb : b.size = a.size + 1 := by simp [b]
  have hunit : a.addState.2.Joins s t (unitWords 0 0x10000) b := by
    refine (Joins.add (joins_addEdge ?_ ?_) (joins_addEdge ?_ ?_) ?_ ?_).congr hunits <;>
      simp <;> omega
  have hhigh : b.Joins s a.size (unitWords 0xd800 0xdc00) (b.addEdge s 0xd800 0xdc00 a.size) :=
    joins_addEdge (by omega) (by omega)
  refine hunit.detour hhigh (joins_addEdge ?_ ?_) hs ht
  · rw [size_addEdge]
    omega
  · rw [size_addEdge]
    omega

end Nfa

namespace TokenBuild

open Nfa

/-! ## §3 Literals -/

variable {p p' : Progress} {s t : Nat}

theorem joins_chain_units {word : List Nat} (hword : word ≠ [])
    (h : chain (fun unit source target => change fun a => a.addEdge source unit (unit + 1) target)
      word s t p = .ok ((), p'))
    (hs : s < p.automaton.size) (ht : t < p.automaton.size) :
    p.automaton.Joins s t {word} p'.automaton := by
  have hunit (unit : Nat) : unitWords unit (unit + 1) = {[unit]} := by
    ext word
    constructor
    · rintro ⟨u, hlo, hhi, rfl⟩
      obtain rfl : u = unit := by omega
      rfl
    · rintro rfl
      exact ⟨unit, Nat.le_refl _, Nat.lt_succ_self _, rfl⟩
  induction word generalizing s p with
  | nil => exact absurd rfl hword
  | cons unit rest ih =>
    cases rest with
    | nil =>
      cases h
      exact (joins_addEdge hs ht).congr (hunit unit)
    | cons next rest =>
      obtain ⟨middle, p₁, hnew, h⟩ := exists_ok_of_stateT_bind h
      cases hnew
      obtain ⟨_, p₂, hedge, h⟩ := exists_ok_of_stateT_bind h
      cases hedge
      have hsize : p.automaton.addState.2.size = p.automaton.size + 1 := size_addState _
      have hfirst : p.automaton.addState.2.Joins s p.automaton.size {[unit]} _ :=
        (joins_addEdge (by omega) (by omega)).congr (hunit unit)
      refine (hfirst.mul (ih (by simp) h (hfirst.lt_size (by omega))
        (hfirst.lt_size (by omega))) hs ht).congr ?_
      exact Set.image2_singleton

/-- A literal is read as its code units. -/
theorem joins_addLiteral {value : String} (h : addLiteral value s t p = .ok ((), p'))
    (hs : s < p.automaton.size) (ht : t < p.automaton.size) :
    p.automaton.Joins s t {units value.toList} p'.automaton := by
  rw [addLiteral] at h
  cases hword : units value.toList with
  | nil =>
    rw [hword] at h
    cases h
    exact joins_addEmpty hs ht
  | cons unit rest =>
    rw [hword] at h
    exact joins_chain_units (List.cons_ne_nil _ _) h hs ht

end TokenBuild

end GrammarCompiler
