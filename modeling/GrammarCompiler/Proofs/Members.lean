/-
GrammarCompiler.Proofs.Members — sets of symbols in words are finite sets.

A set in words has a bit for each symbol. Adding symbols adds bits, and a cursor
finds the next bit wherever it stands: in the rest of a word, or behind words
that are zero. So after any operations the set tells what the finite set of
mathematics tells that is built by the same operations. Sets that are numbers
tell the same.

  §1 Shifts     — bits of single words.
  §2 Bits       — what operations do to the bits of a set.
  §3 Listing    — what a cursor finds.
  §4 Operations — operations on several sets, and the finite sets they build.
  §5 Kinds      — ways to keep sets, and what their sets have to tell.
  §6 Words      — sets in words are kept and tell what they have to.
  §7 Numbers    — so are and do sets that are numbers.
  §8 Members    — what both kinds of sets tell after any operations.
-/
import GrammarCompiler.Grammar.PackedSet
import GrammarCompiler.Proofs.Lookahead
import Mathlib.Data.Finset.Basic
import Mathlib.Data.Nat.Bitwise
import Mathlib.Logic.Function.Basic

namespace GrammarCompiler

namespace PackedSet

/-! ## §1 Shifts -/

section

variable {word word' : UInt64} {i j : Nat}

/-- A word is shifted as far as asked for. -/
theorem toNat_toUInt64_mod (hi : i < 64) : i.toUInt64.toNat % 64 = i := by
  rw [Nat.toUInt64, UInt64.toNat_ofNat']
  omega

theorem toNat_shiftRight (hi : i < 64) : (word >>> i.toUInt64).toNat = word.toNat >>> i := by
  rw [UInt64.toNat_shiftRight, toNat_toUInt64_mod hi]

theorem toNat_bitMask (hi : i < 64) : (bitMask i).toNat = 2 ^ i := by
  rw [bitMask, UInt64.toNat_shiftLeft, toNat_toUInt64_mod hi, UInt64.toNat_one, Nat.one_shiftLeft,
    Nat.mod_eq_of_lt (Nat.pow_lt_pow_right (by decide) hi)]

/-- The bits of a word have places below 64. -/
theorem lt_of_testBit (h : word.toNat.testBit i = true) : i < 64 := by
  by_contra hi
  have hle : 2 ^ 64 ≤ 2 ^ i := Nat.pow_le_pow_right (by decide) (by omega)
  rw [Nat.testBit_lt_two_pow (word.toNat_lt.trans_le hle)] at h
  cases h

/-- Words with the same bits are equal. -/
theorem word_ext (h : ∀ i < 64, word.toNat.testBit i = word'.toNat.testBit i) : word = word' := by
  refine UInt64.toNat_inj.mp (Nat.eq_of_testBit_eq fun i => ?_)
  by_cases hi : i < 64
  · exact h i hi
  · have hzero (w : UInt64) : w.toNat.testBit i = false :=
      Bool.eq_false_iff.mpr fun h => hi (lt_of_testBit h)
    rw [hzero, hzero]

theorem testBit_or_bitMask (hi : i < 64) :
    (word ||| bitMask i).toNat.testBit j = (word.toNat.testBit j || decide (i = j)) := by
  rw [UInt64.toNat_or, Nat.testBit_or, toNat_bitMask hi, Nat.testBit_two_pow]

theorem and_bitMask_beq_zero (hi : i < 64) :
    (word &&& bitMask i == 0) = !word.toNat.testBit i := by
  rw [Bool.eq_iff_iff, beq_iff_eq, ← UInt64.toNat_inj, UInt64.toNat_and, toNat_bitMask hi,
    Nat.and_two_pow]
  cases word.toNat.testBit i <;> simp

theorem shiftRight_and_one_beq_one (hi : i < 64) :
    (word >>> i.toUInt64 &&& 1 == 1) = word.toNat.testBit i := by
  rw [Bool.eq_iff_iff, beq_iff_eq, ← UInt64.toNat_inj, UInt64.toNat_and, toNat_shiftRight hi,
    UInt64.toNat_one, Nat.and_one_is_mod, Nat.testBit_eq_decide_div_mod_eq, decide_eq_true_eq,
    Nat.shiftRight_eq_div_pow]

theorem testBit_shiftRight (hi : i < 64) :
    (word >>> i.toUInt64).toNat.testBit j = word.toNat.testBit (i + j) := by
  rw [toNat_shiftRight hi, Nat.testBit_shiftRight]

theorem testBit_of_lt_trailingZeros (h : i < trailingZeros word) :
    word.toNat.testBit i = false :=
  BitVec.getLsbD_false_of_lt_ctz h

theorem testBit_trailingZeros (h : word ≠ 0) : word.toNat.testBit (trailingZeros word) = true :=
  BitVec.getLsbD_true_ctz_of_ne_zero fun hzero => h (UInt64.toBitVec_inj.mp hzero)

end

/-! ## §2 Bits -/

/-- The bit of a set at a place. There are none behind its words. -/
def bit (s : PackedSet) (i : Nat) : Bool :=
  (s.words.getD (i / 64) 0).toNat.testBit (i % 64)

variable {s s' : PackedSet} {t : Term} {n i : Nat}

theorem bit_eq (h : i / 64 < s.words.size) : s.bit i = s.words[i / 64].toNat.testBit (i % 64) := by
  rw [bit, Array.getD_eq_getD_getElem?, Array.getElem?_eq_getElem h, Option.getD_some]

theorem bit_new (n i : Nat) : (new n).bit i = false := by
  rw [bit, new, Array.getD_eq_getD_getElem?, Array.getElem?_replicate]
  split <;> exact Nat.zero_testBit _

/-- Sets with the same room have the same words when they have the same bits. -/
theorem words_eq_iff (hcapacity : s.capacity = s'.capacity) :
    s.words = s'.words ↔ ∀ i, s.bit i = s'.bit i := by
  constructor
  · intro h i
    rw [bit, bit, h]
  · intro h
    have hsize : s.words.size = s'.words.size := by rw [s.size_words, s'.size_words, hcapacity]
    refine Array.ext hsize fun k hk hk' => word_ext fun j hj => ?_
    have hdiv : (64 * k + j) / 64 = k := by omega
    have hmod : (64 * k + j) % 64 = j := by omega
    have hbit := h (64 * k + j)
    rw [bit_eq (by omega), bit_eq (by omega)] at hbit
    simpa only [hdiv, hmod] using hbit

theorem beq_iff (hcapacity : s.capacity = s'.capacity) :
    (s == s') = true ↔ ∀ i, s.bit i = s'.bit i := by
  have hbeq : (s == s') = (s.capacity == s'.capacity && s.words == s'.words) := rfl
  rw [hbeq, Bool.and_eq_true, beq_iff_eq, beq_iff_eq, words_eq_iff hcapacity]
  exact and_iff_right hcapacity

theorem isEmpty_iff : s.isEmpty = true ↔ ∀ i, s.bit i = false := by
  have hzero : s.isEmpty = true ↔ s.words = (new s.capacity).words := by
    rw [isEmpty, Array.all_eq_true', new, Array.eq_replicate_iff]
    simp only [beq_iff_eq, s.size_words, true_and]
  have hroom : s.capacity = (new s.capacity).capacity := rfl
  rw [hzero, words_eq_iff hroom]
  simp only [bit_new]

theorem contains?_eq (h : t.index < s.capacity) : s.contains? t = some (s.bit t.index) := by
  rw [contains?, Array.getElem?_eq_getElem (s.word_lt h), Option.map_some, bit_eq (s.word_lt h),
    shiftRight_and_one_beq_one (Nat.mod_lt _ (by decide))]

/-- There is an answer for each symbol that there is room for. Its bit is added,
and it is new exactly if the bit was not there. -/
theorem exists_add? (h : t.index < s.capacity) : ∃ s', s.add? t = some (s', !s.bit t.index) ∧
    s'.capacity = s.capacity ∧ ∀ i, s'.bit i = (s.bit i || decide (t.index = i)) := by
  have hword := s.word_lt h
  have hmod : t.index % 64 < 64 := Nat.mod_lt _ (by decide)
  simp only [add?, hword, dite_true, and_bitMask_beq_zero hmod, ← bit_eq hword]
  refine ⟨_, rfl, rfl, fun i => ?_⟩
  rw [bit, bit, Array.getD_eq_getD_getElem?, Array.getD_eq_getD_getElem?, Array.getElem?_set hword]
  by_cases hi : t.index / 64 = i / 64
  · have hplace : t.index % 64 = i % 64 ↔ t.index = i := by omega
    simp only [← hi, if_true, Array.getElem?_eq_getElem hword, Option.getD_some,
      testBit_or_bitMask hmod, hplace]
  · have hne : t.index ≠ i := fun h => hi (h ▸ rfl)
    simp only [hi, if_false, hne, decide_false, Bool.or_false]

theorem bit_addAll (hcapacity : s.capacity = s'.capacity) (i : Nat) :
    (s.addAll s').1.bit i = (s.bit i || s'.bit i) := by
  have hsize : s.words.size = s'.words.size := by rw [s.size_words, s'.size_words, hcapacity]
  simp only [addAll, bit, Array.getD_eq_getD_getElem?, Array.getElem?_mapIdx]
  by_cases hi : i / 64 < s.words.size
  · rw [Array.getElem?_eq_getElem hi, Option.map_some, Option.getD_some, Option.getD_some,
      UInt64.toNat_or, Nat.testBit_or]
  · rw [Array.getElem?_eq_none (by omega), Array.getElem?_eq_none (by omega)]
    exact (Bool.or_self _).symm

/-- Something was added exactly if a bit was not there. -/
theorem addAll_snd (hcapacity : s.capacity = s'.capacity) :
    (s.addAll s').2 = true ↔ ∃ i, s'.bit i = true ∧ s.bit i = false := by
  have hchanged : (s.addAll s').2 = ((s.addAll s').1.words != s.words) := rfl
  have hroom : (s.addAll s').1.capacity = s.capacity := rfl
  rw [hchanged, bne_iff_ne, ne_eq, words_eq_iff hroom, not_forall]
  refine exists_congr fun i => ?_
  rw [bit_addAll hcapacity]
  cases s.bit i <;> cases s'.bit i <;> decide

/-! ## §3 Listing -/

/-- From a place on, the bits of a set are those of the rest of a word. -/
theorem bit_eq_testBit_shiftRight {place : Nat} (hplace : place / 64 < s.words.size)
    (hle : place ≤ i) (hword : i / 64 = place / 64) : s.bit i =
      (s.words[place / 64] >>> (place % 64).toUInt64).toNat.testBit (i - place) := by
  have hsum : place % 64 + (i - place) = i % 64 := by omega
  rw [testBit_shiftRight (Nat.mod_lt _ (by decide)), hsum, bit_eq (hword ▸ hplace)]
  simp only [hword]

/-- A cursor finds the first symbol from its place on, and goes on behind it. -/
structure Cursor.Finds (c : Cursor) (t : Term) (c' : Cursor) : Prop where
  set : c'.set = c.set
  place : c'.place = t.index + 1
  le : c.place ≤ t.index
  bit : c.set.bit t.index = true
  first : ∀ i, c.place ≤ i → i < t.index → c.set.bit i = false

/-- A cursor that goes on behind places without symbols finds the same. -/
theorem Cursor.Finds.of_skip {c c' : Cursor} {place : Nat} (hle : c.place ≤ place)
    (hskip : ∀ i, c.place ≤ i → i < place → c.set.bit i = false)
    (h : Finds { c with place } t c') : c.Finds t c' where
  set := h.set
  place := h.place
  le := hle.trans h.le
  bit := h.bit
  first i hi hit := by
    by_cases hplace : i < place
    · exact hskip i hi hplace
    · exact h.first i (Nat.le_of_not_lt hplace) hit

/-- When what is left of a word is zero, there are no symbols up to the next word. -/
theorem Cursor.bit_eq_false_of_rest {c : Cursor} (hword : c.place / 64 < c.set.words.size)
    (hrest : c.set.words[c.place / 64] >>> (c.place % 64).toUInt64 = 0) (hle : c.place ≤ i)
    (hlt : i < (c.place / 64 + 1) * 64) : c.set.bit i = false := by
  rw [bit_eq_testBit_shiftRight hword hle (by omega), hrest]
  exact Nat.zero_testBit _

/-- Otherwise its lowest bit is the first symbol. -/
theorem Cursor.finds_of_rest {c : Cursor} (hword : c.place / 64 < c.set.words.size)
    (hrest : c.set.words[c.place / 64] >>> (c.place % 64).toUInt64 ≠ 0) :
    let found := c.place +
      trailingZeros (c.set.words[c.place / 64] >>> (c.place % 64).toUInt64)
    c.Finds ⟨found⟩ { c with place := found + 1 } := by
  intro found
  have hbit := testBit_trailingZeros hrest
  have hsame : found / 64 = c.place / 64 := by
    rw [testBit_shiftRight (Nat.mod_lt _ (by decide))] at hbit
    have hlt := lt_of_testBit hbit
    omega
  refine ⟨rfl, rfl, Nat.le_add_right _ _, ?_, fun i hle hlt => ?_⟩
  · rw [bit_eq_testBit_shiftRight hword (Nat.le_add_right _ _) hsame, Nat.add_sub_cancel_left]
    exact hbit
  · have hi : i < found := hlt
    rw [bit_eq_testBit_shiftRight hword hle (by omega)]
    exact testBit_of_lt_trailingZeros (by omega)

theorem Cursor.finds_of_next {c c' : Cursor} (h : c.next = some (t, c')) : c.Finds t c' := by
  fun_induction Cursor.next c with
  | case1 c hplace hword rest hzero ih =>
    exact (ih h).of_skip (by omega) fun i => bit_eq_false_of_rest hword (beq_iff_eq.mp hzero)
  | case2 c hplace hword rest hrest found =>
    cases h
    exact finds_of_rest hword fun hzero => hrest (beq_iff_eq.mpr hzero)
  | case3 => cases h

/-- When a cursor finds nothing, there is nothing left. -/
theorem Cursor.bit_eq_false_of_next {c : Cursor} (h : c.next = none) (hle : c.place ≤ i)
    (hlt : i < c.set.capacity) : c.set.bit i = false := by
  fun_induction Cursor.next c with
  | case1 c hplace hword rest hzero ih =>
    by_cases hi : i < (c.place / 64 + 1) * 64
    · exact bit_eq_false_of_rest hword (beq_iff_eq.mp hzero) hle hi
    · exact ih h (Nat.le_of_not_lt hi) hlt
  | case2 => cases h
  | case3 c hplace => omega

/-- Symbols that there is room for are listed, each once and in order. -/
theorem Cursor.exists_yields (c : Cursor) (hroom : ∀ i, c.set.bit i = true → i < c.set.capacity) :
    ∃ symbols, c.Yields symbols ∧ symbols.Pairwise (fun t u => t.index < u.index) ∧
      ∀ t, t ∈ symbols ↔ c.place ≤ t.index ∧ c.set.bit t.index = true := by
  -- Each symbol found leaves less room behind the cursor.
  induction hleft : c.set.capacity - c.place using Nat.strong_induction_on generalizing c with
  | _ left ih =>
    cases hnext : c.next with
    | none =>
      refine ⟨[], .stop hnext, .nil, fun t => ?_⟩
      simp only [List.not_mem_nil, false_iff, not_and]
      intro hle hbit
      rw [bit_eq_false_of_next hnext hle (hroom _ hbit)] at hbit
      cases hbit
    | some found =>
      obtain ⟨u, c'⟩ := found
      have hfinds := finds_of_next hnext
      have hlt := hroom _ hfinds.bit
      have hle := hfinds.le
      obtain ⟨symbols, hyields, hordered, hmem⟩ :=
        ih (c'.set.capacity - c'.place) (by rw [hfinds.set, hfinds.place]; omega) c'
          (hfinds.set ▸ hroom) rfl
      simp only [hfinds.set, hfinds.place] at hmem
      refine ⟨u :: symbols, .step hnext hyields, .cons (fun t ht => ((hmem t).mp ht).1) hordered,
        fun t => ?_⟩
      rw [List.mem_cons, hmem]
      constructor
      · rintro (rfl | ⟨hbehind, hbit⟩)
        · exact ⟨hle, hfinds.bit⟩
        · exact ⟨by omega, hbit⟩
      · rintro ⟨hplace, hbit⟩
        rcases Nat.lt_trichotomy t.index u.index with hbefore | heq | hbehind
        · rw [hfinds.first _ hplace hbefore] at hbit
          cases hbit
        · exact .inl (Term.eq_of_index_eq heq)
        · exact .inr ⟨hbehind, hbit⟩

end PackedSet

/-! ## §4 Operations -/

/-- An operation on one of several sets, which are known by their places. -/
inductive SetOp where
  | add (set : Nat) (t : Term)
  | addAll (set other : Nat)
deriving DecidableEq, Repr

namespace SetOp

/-- An operation adds only symbols that there is room for. -/
def IsWithin (capacity : Nat) : SetOp → Prop
  | add _ t => t.index < capacity
  | addAll _ _ => True

instance (capacity : Nat) : DecidablePred (IsWithin capacity)
  | add _ t => inferInstanceAs (Decidable (t.index < capacity))
  | addAll _ _ => inferInstanceAs (Decidable True)

/-- The finite sets after an operation. -/
def apply (members : Nat → Finset Term) : SetOp → Nat → Finset Term
  | add i t => Function.update members i (insert t (members i))
  | addAll i j => Function.update members i (members i ∪ members j)

/-- Whether an operation adds something. -/
def adds (members : Nat → Finset Term) : SetOp → Bool
  | add i t => decide (t ∉ members i)
  | addAll i j => decide (¬ members j ⊆ members i)

/-- Whether each of some operations adds something. -/
def answersFrom (members : Nat → Finset Term) : List SetOp → List Bool
  | [] => []
  | op :: ops => op.adds members :: answersFrom (op.apply members) ops

/-- The finite sets that operations build. -/
def members (ops : List SetOp) : Nat → Finset Term :=
  ops.foldl apply fun _ => ∅

/-- Whether each operation adds something to the sets built before it. -/
def answers (ops : List SetOp) : List Bool :=
  answersFrom (fun _ => ∅) ops

end SetOp

/-! ## §5 Kinds -/

/-- A way to keep sets of symbols: what can be done to a set, with the answer
whether something was added, and what it tells. -/
structure SetKind (σ : Type) where
  empty : σ
  add? : σ → Term → Option (σ × Bool)
  addAll : σ → σ → σ × Bool
  contains? : σ → Term → Option Bool
  isEmpty : σ → Bool
  same : σ → σ → Bool
  Yields : σ → List Term → Prop

namespace SetKind

variable {σ : Type} (k : SetKind σ)

/-- The sets after an operation, and its answer. -/
def step? (sets : Nat → σ) : SetOp → Option ((Nat → σ) × Bool)
  | .add i t => (k.add? (sets i) t).map fun p => (Function.update sets i p.1, p.2)
  | .addAll i j =>
    let p := k.addAll (sets i) (sets j)
    some (Function.update sets i p.1, p.2)

/-- The sets after operations, one after another, and all answers. -/
def runFrom? (sets : Nat → σ) : List SetOp → Option ((Nat → σ) × List Bool)
  | [] => some (sets, [])
  | op :: ops => do
    let (sets, added) ← k.step? sets op
    let (sets, answers) ← runFrom? sets ops
    return (sets, added :: answers)

/-- The sets that operations build, and all answers. -/
def run? (ops : List SetOp) : Option ((Nat → σ) × List Bool) :=
  k.runFrom? (fun _ => k.empty) ops

/-- Sets tell what finite sets tell: which symbols they hold, whether there are
any, whether two sets are the same, and what the symbols are in order, each of
them once. -/
structure Tells (capacity : Nat) (sets : Nat → σ) (members : Nat → Finset Term) : Prop where
  contains (i : Nat) (t : Term) (ht : t.index < capacity) :
    k.contains? (sets i) t = some (decide (t ∈ members i))
  isEmpty (i : Nat) : k.isEmpty (sets i) = decide (members i = ∅)
  same (i j : Nat) : k.same (sets i) (sets j) = decide (members i = members j)
  yields (i : Nat) : ∃ symbols, k.Yields (sets i) symbols ∧
    symbols.Pairwise (fun t u => t.index < u.index) ∧ ∀ t, t ∈ symbols ↔ t ∈ members i

/-- A relation to finite sets that operations keep. What they answer is what is
true of the finite sets. -/
structure Keeps (capacity : Nat) (R : σ → Finset Term → Prop) : Prop where
  empty : R k.empty ∅
  add {s : σ} {m : Finset Term} {t : Term} (h : R s m) (ht : t.index < capacity) :
    ∃ s', k.add? s t = some (s', decide (t ∉ m)) ∧ R s' (insert t m)
  addAll {s s' : σ} {m m' : Finset Term} (h : R s m) (h' : R s' m') :
    (k.addAll s s').2 = decide (¬ m' ⊆ m) ∧ R (k.addAll s s').1 (m ∪ m')

variable {k} {capacity : Nat} {R : σ → Finset Term → Prop} {sets : Nat → σ}
  {members : Nat → Finset Term}

/-- Sets stay related when one of them and its finite set are replaced. -/
theorem forall_update (hsets : ∀ i, R (sets i) (members i)) (i : Nat) {s : σ} {m : Finset Term}
    (h : R s m) (j : Nat) : R (Function.update sets i s j) (Function.update members i m j) := by
  by_cases hj : j = i
  · subst hj
    simpa only [Function.update_self] using h
  · simpa only [Function.update_of_ne hj] using hsets j

theorem Keeps.step (hk : k.Keeps capacity R) (hsets : ∀ i, R (sets i) (members i)) {op : SetOp}
    (hop : op.IsWithin capacity) : ∃ sets', k.step? sets op = some (sets', op.adds members) ∧
      ∀ i, R (sets' i) (op.apply members i) := by
  cases op with
  | add i t =>
    obtain ⟨s, hadd, hs⟩ := hk.add (hsets i) hop
    refine ⟨Function.update sets i s, ?_, forall_update hsets i hs⟩
    rw [step?, hadd, Option.map_some, SetOp.adds]
  | addAll i j =>
    obtain ⟨hadded, hs⟩ := hk.addAll (hsets i) (hsets j)
    refine ⟨Function.update sets i (k.addAll (sets i) (sets j)).1, ?_, forall_update hsets i hs⟩
    simp only [step?, hadded, SetOp.adds]

theorem Keeps.runFrom (hk : k.Keeps capacity R) (hsets : ∀ i, R (sets i) (members i))
    {ops : List SetOp} (hops : ∀ op ∈ ops, op.IsWithin capacity) :
    ∃ sets', k.runFrom? sets ops = some (sets', SetOp.answersFrom members ops) ∧
      ∀ i, R (sets' i) (ops.foldl SetOp.apply members i) := by
  induction ops generalizing sets members with
  | nil => exact ⟨sets, rfl, hsets⟩
  | cons op ops ih =>
    obtain ⟨sets₁, hstep, hsets₁⟩ := hk.step hsets (hops op (.head _))
    obtain ⟨sets₂, hrun, hsets₂⟩ := ih hsets₁ fun op hop => hops op (.tail _ hop)
    refine ⟨sets₂, ?_, hsets₂⟩
    simp only [runFrom?, hstep, hrun, SetOp.answersFrom, bind, Option.bind_some, pure]

/-- Operations that add only symbols that there is room for have all their
answers, and what they build is related to the finite sets they build. -/
theorem Keeps.run (hk : k.Keeps capacity R) {ops : List SetOp}
    (hops : ∀ op ∈ ops, op.IsWithin capacity) :
    ∃ sets, k.run? ops = some (sets, SetOp.answers ops) ∧ ∀ i, R (sets i) (SetOp.members ops i) :=
  hk.runFrom (fun _ => hk.empty) hops

end SetKind

/-! ## §6 Words -/

namespace PackedSet

/-- Sets in words, all with the same room. -/
def kind (capacity : Nat) : SetKind PackedSet where
  empty := new capacity
  add? := add?
  addAll := addAll
  contains? := contains?
  isEmpty := isEmpty
  same s s' := s == s'
  Yields s symbols := s.elems.Yields symbols

/-- A set in words has the bits of the symbols of a finite set, and no others. -/
structure Holds (capacity : Nat) (s : PackedSet) (m : Finset Term) : Prop where
  capacity_eq : s.capacity = capacity
  bit_iff : ∀ i, s.bit i = true ↔ Term.mk i ∈ m
  within : ∀ t ∈ m, t.index < capacity

theorem holds_new (capacity : Nat) : Holds capacity (new capacity) ∅ where
  capacity_eq := rfl
  bit_iff i := by simp [bit_new]
  within := by simp

namespace Holds

variable {capacity : Nat} {s s' : PackedSet} {m m' : Finset Term} {t : Term}

theorem bit_eq (h : Holds capacity s m) (t : Term) : s.bit t.index = decide (t ∈ m) :=
  Bool.eq_iff_iff.mpr ((h.bit_iff t.index).trans decide_eq_true_iff.symm)

theorem capacity_eq_capacity (h : Holds capacity s m) (h' : Holds capacity s' m') :
    s.capacity = s'.capacity :=
  h.capacity_eq.trans h'.capacity_eq.symm

theorem exists_add? (h : Holds capacity s m) (ht : t.index < capacity) :
    ∃ s', s.add? t = some (s', decide (t ∉ m)) ∧ Holds capacity s' (insert t m) := by
  obtain ⟨s', hadd, hcapacity, hbit⟩ := PackedSet.exists_add? (h.capacity_eq ▸ ht)
  refine ⟨s', ?_, hcapacity.trans h.capacity_eq, fun i => ?_, fun u hu => ?_⟩
  · rw [hadd, h.bit_eq, decide_not]
  · have hsame : t.index = i ↔ Term.mk i = t := ⟨fun heq => heq ▸ rfl, fun heq => heq ▸ rfl⟩
    rw [hbit, Bool.or_eq_true, h.bit_iff, decide_eq_true_eq, hsame, Finset.mem_insert, or_comm]
  · rcases Finset.mem_insert.mp hu with rfl | hu
    · exact ht
    · exact h.within u hu

theorem union (h : Holds capacity s m) (h' : Holds capacity s' m') :
    Holds capacity (s.addAll s').1 (m ∪ m') where
  capacity_eq := h.capacity_eq
  bit_iff i := by
    rw [bit_addAll (h.capacity_eq_capacity h'), Bool.or_eq_true, h.bit_iff, h'.bit_iff,
      Finset.mem_union]
  within t ht := (Finset.mem_union.mp ht).elim (h.within t) (h'.within t)

theorem addAll_snd (h : Holds capacity s m) (h' : Holds capacity s' m') :
    (s.addAll s').2 = decide (¬ m' ⊆ m) := by
  rw [Bool.eq_iff_iff, decide_eq_true_eq, Finset.not_subset,
    PackedSet.addAll_snd (h.capacity_eq_capacity h')]
  constructor
  · rintro ⟨i, hnew, hold⟩
    refine ⟨⟨i⟩, (h'.bit_iff i).mp hnew, fun hi => ?_⟩
    rw [(h.bit_iff i).mpr hi] at hold
    cases hold
  · rintro ⟨t, hnew, hold⟩
    exact ⟨t.index, (h'.bit_iff t.index).mpr hnew, (h.bit_eq t).trans (decide_eq_false hold)⟩

theorem contains?_eq (h : Holds capacity s m) (ht : t.index < capacity) :
    s.contains? t = some (decide (t ∈ m)) := by
  rw [PackedSet.contains?_eq (h.capacity_eq ▸ ht), h.bit_eq]

theorem isEmpty_eq (h : Holds capacity s m) : s.isEmpty = decide (m = ∅) := by
  rw [Bool.eq_iff_iff, decide_eq_true_eq, isEmpty_iff, Finset.eq_empty_iff_forall_notMem]
  constructor
  · exact fun hzero t => of_decide_eq_false ((h.bit_eq t).symm.trans (hzero t.index))
  · exact fun hnone i => (h.bit_eq ⟨i⟩).trans (decide_eq_false (hnone ⟨i⟩))

theorem beq_eq (h : Holds capacity s m) (h' : Holds capacity s' m') :
    (s == s') = decide (m = m') := by
  rw [Bool.eq_iff_iff, decide_eq_true_eq, beq_iff (h.capacity_eq_capacity h')]
  constructor
  · intro hbits
    ext t
    rw [← h.bit_iff t.index, hbits, h'.bit_iff]
  · rintro rfl i
    rw [Bool.eq_iff_iff, h.bit_iff, h'.bit_iff]

theorem exists_yields (h : Holds capacity s m) : ∃ symbols, s.elems.Yields symbols ∧
    symbols.Pairwise (fun t u => t.index < u.index) ∧ ∀ t, t ∈ symbols ↔ t ∈ m := by
  have hroom : ∀ i, s.bit i = true → i < s.capacity := fun i hi =>
    h.capacity_eq ▸ h.within ⟨i⟩ ((h.bit_iff i).mp hi)
  obtain ⟨symbols, hyields, hordered, hmem⟩ := s.elems.exists_yields hroom
  refine ⟨symbols, hyields, hordered, fun t => (hmem t).trans ?_⟩
  exact (and_iff_right (Nat.zero_le _)).trans (h.bit_iff t.index)

end Holds

theorem keeps_holds (capacity : Nat) : (kind capacity).Keeps capacity (Holds capacity) where
  empty := holds_new capacity
  add := Holds.exists_add?
  addAll h h' := ⟨h.addAll_snd h', h.union h'⟩

theorem tells_of_holds {capacity : Nat} {sets : Nat → PackedSet} {members : Nat → Finset Term}
    (h : ∀ i, Holds capacity (sets i) (members i)) :
    (kind capacity).Tells capacity sets members where
  contains i _ ht := (h i).contains?_eq ht
  isEmpty i := (h i).isEmpty_eq
  same i j := (h i).beq_eq (h j)
  yields i := (h i).exists_yields

end PackedSet

/-! ## §7 Numbers -/

namespace TermSet

/-- Sets that are numbers. They have room for all symbols. -/
def kind : SetKind TermSet where
  empty := empty
  add? s t := some (s.add t)
  addAll := addAll
  contains? s t := some (s.contains t)
  isEmpty := isEmpty
  same s s' := s == s'
  Yields s symbols := s.toList = symbols

/-- A number has the bits of the symbols of a finite set, and no others. -/
def Holds (s : TermSet) (m : Finset Term) : Prop :=
  ∀ t, s.contains t = decide (t ∈ m)

theorem isEmpty_iff {s : TermSet} : s.isEmpty = true ↔ s = empty := by
  obtain ⟨bits⟩ := s
  simp [isEmpty, empty]

theorem holds_empty : empty.Holds ∅ := by
  intro t
  rw [contains_empty, decide_eq_false (Finset.notMem_empty t)]

namespace Holds

variable {s s' : TermSet} {m m' : Finset Term}

theorem eq_iff (h : s.Holds m) (h' : s'.Holds m') : s = s' ↔ m = m' := by
  constructor
  · rintro rfl
    ext t
    rw [← decide_eq_true_iff (p := t ∈ m), ← h t, h' t, decide_eq_true_iff]
  · rintro rfl
    exact ext fun t => (h t).trans (h' t).symm

theorem insert (h : s.Holds m) (t : Term) : (s.insert t).Holds (Insert.insert t m) := by
  intro u
  rw [contains_insert, h u, ← Bool.decide_or, decide_eq_decide, Finset.mem_insert, or_comm]
  exact or_congr_left eq_comm

theorem union (h : s.Holds m) (h' : s'.Holds m') : (s.union s').Holds (m ∪ m') := by
  intro t
  rw [contains_union, h t, h' t, ← Bool.decide_or, decide_eq_decide, Finset.mem_union]

end Holds

theorem keeps_holds (capacity : Nat) : kind.Keeps capacity Holds where
  empty := holds_empty
  add {s m t} h _ := by
    refine ⟨s.insert t, ?_, h.insert t⟩
    simp only [kind, add, h t, decide_not]
  addAll {s s' m m'} h h' := by
    refine ⟨?_, h.union h'⟩
    rw [Bool.eq_iff_iff, decide_eq_true_eq]
    refine bne_iff_ne.trans (not_congr ?_)
    rw [(h.union h').eq_iff h, Finset.union_eq_left]

theorem tells_of_holds {capacity : Nat} {sets : Nat → TermSet} {members : Nat → Finset Term}
    (h : ∀ i, (sets i).Holds (members i)) : kind.Tells capacity sets members where
  contains i t _ := congrArg some (h i t)
  isEmpty i := by
    rw [Bool.eq_iff_iff, decide_eq_true_eq]
    exact isEmpty_iff.trans ((h i).eq_iff holds_empty)
  same i j := by
    rw [Bool.eq_iff_iff, decide_eq_true_eq]
    exact beq_iff_eq.trans ((h i).eq_iff (h j))
  yields i := by
    refine ⟨_, rfl, pairwise_toList _, fun t => ?_⟩
    rw [mem_toList, h i t, decide_eq_true_iff]

end TermSet

/-! ## §8 Members -/

/-- Operations that add only symbols there is room for can be done to sets in words, and each of
them tells whether it added something to the finite set that it stands for. After them the sets tell
what these finite sets tell: which symbols they hold, whether there are any, and which sets are the
same; and a cursor gives the symbols of a set in order, each of them once, and comes to an end. Sets
that are numbers tell the same. -/
theorem PackedSet.tells_members (capacity : Nat) {ops : List SetOp}
    (hops : ∀ op ∈ ops, op.IsWithin capacity) :
    ∃ sets numbers,
      (PackedSet.kind capacity).run? ops = some (sets, SetOp.answers ops) ∧
        TermSet.kind.run? ops = some (numbers, SetOp.answers ops) ∧
        (PackedSet.kind capacity).Tells capacity sets (SetOp.members ops) ∧
        TermSet.kind.Tells capacity numbers (SetOp.members ops) := by
  obtain ⟨sets, hrun, hsets⟩ := (PackedSet.keeps_holds capacity).run hops
  obtain ⟨numbers, hrun', hnumbers⟩ := (TermSet.keeps_holds capacity).run hops
  exact ⟨sets, numbers, hrun, hrun', PackedSet.tells_of_holds hsets,
    TermSet.tells_of_holds hnumbers⟩

/-- Symbols on both sides of where words meet, and one in a last word of two bits. -/
def SetOp.acrossWords : List SetOp :=
  [.add 0 ⟨63⟩, .add 0 ⟨64⟩, .add 1 ⟨129⟩, .add 1 ⟨63⟩, .addAll 0 1, .addAll 0 1]

/-- The last operation adds nothing, since the one before it has already added the same symbols. -/
theorem PackedSet.tells_members_acrossWords :
    (∀ op ∈ SetOp.acrossWords, op.IsWithin 130) ∧
      SetOp.members SetOp.acrossWords 0 = {⟨63⟩, ⟨64⟩, ⟨129⟩} ∧
      ∃ sets numbers,
        (PackedSet.kind 130).run? SetOp.acrossWords =
            some (sets, [true, true, true, true, true, false]) ∧
          TermSet.kind.run? SetOp.acrossWords =
            some (numbers, [true, true, true, true, true, false]) ∧
          (PackedSet.kind 130).Tells 130 sets (SetOp.members SetOp.acrossWords) ∧
          TermSet.kind.Tells 130 numbers (SetOp.members SetOp.acrossWords) := by
  have hops : ∀ op ∈ SetOp.acrossWords, op.IsWithin 130 := by decide
  have hanswers : SetOp.answers SetOp.acrossWords = [true, true, true, true, true, false] := by
    decide
  exact ⟨hops, by decide, hanswers ▸ PackedSet.tells_members 130 hops⟩

end GrammarCompiler
