/-
GrammarCompiler.Proofs.Joining — ways built between two states of an automaton.

Ways are built into one automaton that only grows, and they share their ends
with others. So what is read between two states is not read off the states in
between: the words that are read from a state on are kept as labels, and a part
that is built for a language can be labelled whatever the labels of its ends
are, as long as they fit the language.

  §1 Building — what states and edges are there after each step.
  §2 Growth   — states keep their edges, so paths stay.
  §3 Labels   — words for each state that its edges respect.
  §4 Joining  — parts of an automaton that read a language, no more and no
                less, between two states.
  §5 Ways     — what such a part adds to the words between other states.
-/
import GrammarCompiler.Proofs.Paths
import Mathlib

namespace GrammarCompiler

open scoped Computability

namespace Nfa

variable {a b c : Nfa} {s t lo hi : Nat}

/-! ## §1 Building -/

@[simp] theorem size_addState (a : Nfa) : a.addState.2.size = a.size + 1 := by
  simp [addState, size]

@[simp] theorem size_addAccepting (a : Nfa) (token : Term) :
    (a.addAccepting token).2.size = a.size + 1 := by
  simp [addAccepting, size]

@[simp] theorem size_addEdge (a : Nfa) (s lo hi t : Nat) : (a.addEdge s lo hi t).size = a.size := by
  simp [addEdge, size]

@[simp] theorem size_addEmpty (a : Nfa) (s t : Nat) : (a.addEmpty s t).size = a.size := by
  simp [addEmpty, size]

@[simp] theorem state_addState (a : Nfa) : a.addState.2.state = a.state := by
  funext i
  rw [state, addState, Array.getElem?_push, state]
  split
  next h => rw [h, Array.getElem?_eq_none (Nat.le_refl _)]; rfl
  next => rfl

theorem state_addAccepting (a : Nfa) (token : Term) (i : Nat) :
    (a.addAccepting token).2.state i =
      if i = a.size then { accepting := [token] } else a.state i := by
  rw [state, addAccepting, Array.getElem?_push, state, size]
  split <;> rfl

@[simp] theorem edges_addAccepting (a : Nfa) (token : Term) (i : Nat) :
    ((a.addAccepting token).2.state i).edges = (a.state i).edges := by
  rw [state_addAccepting]
  split
  next h => rw [h, state_of_size_le (Nat.le_refl _)]
  next => rfl

@[simp] theorem empty_addAccepting (a : Nfa) (token : Term) (i : Nat) :
    ((a.addAccepting token).2.state i).empty = (a.state i).empty := by
  rw [state_addAccepting]
  split
  next h => rw [h, state_of_size_le (Nat.le_refl _)]
  next => rfl

theorem state_modify (a : Nfa) (s : Nat) (f : NfaState → NfaState) (i : Nat) :
    state ⟨a.states.modify s f⟩ i = if i = s ∧ s < a.size then f (a.state i) else a.state i := by
  rw [state, Array.getElem?_modify, state, size]
  by_cases hs : s = i
  · subst hs
    by_cases hlt : s < a.states.size
    · simp [hlt]
    · simp [hlt]
  · rw [if_neg hs, if_neg fun h => hs h.1.symm]

theorem mem_edges_addEdge {i : Nat} {e : UnitEdge} :
    e ∈ ((a.addEdge s lo hi t).state i).edges ↔
      e ∈ (a.state i).edges ∨ (i = s ∧ s < a.size) ∧ e = ⟨lo, hi, t⟩ := by
  rw [addEdge, state_modify]
  split <;> simp [*]

@[simp] theorem empty_addEdge (i : Nat) :
    ((a.addEdge s lo hi t).state i).empty = (a.state i).empty := by
  rw [addEdge, state_modify]
  split <;> rfl

@[simp] theorem accepting_addEdge (i : Nat) :
    ((a.addEdge s lo hi t).state i).accepting = (a.state i).accepting := by
  rw [addEdge, state_modify]
  split <;> rfl

theorem mem_empty_addEmpty {i m : Nat} :
    m ∈ ((a.addEmpty s t).state i).empty ↔
      m ∈ (a.state i).empty ∨ (i = s ∧ s < a.size) ∧ m = t := by
  rw [addEmpty, state_modify]
  split <;> simp [*]

@[simp] theorem edges_addEmpty (i : Nat) :
    ((a.addEmpty s t).state i).edges = (a.state i).edges := by
  rw [addEmpty, state_modify]
  split <;> rfl

@[simp] theorem accepting_addEmpty (i : Nat) :
    ((a.addEmpty s t).state i).accepting = (a.state i).accepting := by
  rw [addEmpty, state_modify]
  split <;> rfl

/-! ## §2 Growth -/

/-- States keep their edges and the tokens that end there. No token ends in a
state that is added. -/
structure Grows (a b : Nfa) : Prop where
  size_le : a.size ≤ b.size
  edges : ∀ s, (a.state s).edges ⊆ (b.state s).edges
  empty : ∀ s, (a.state s).empty ⊆ (b.state s).empty
  accepting_eq : ∀ s, (b.state s).accepting = (a.state s).accepting

theorem Grows.refl (a : Nfa) : a.Grows a :=
  ⟨Nat.le_refl _, fun _ => List.Subset.refl _, fun _ => List.Subset.refl _, fun _ => rfl⟩

theorem Grows.trans (h : a.Grows b) (h' : b.Grows c) : a.Grows c :=
  ⟨Nat.le_trans h.size_le h'.size_le, fun s => List.Subset.trans (h.edges s) (h'.edges s),
    fun s => List.Subset.trans (h.empty s) (h'.empty s),
    fun s => (h'.accepting_eq s).trans (h.accepting_eq s)⟩

theorem grows_addState (a : Nfa) : a.Grows a.addState.2 :=
  ⟨by simp, by simp, by simp, by simp⟩

theorem grows_addEdge (a : Nfa) (s lo hi t : Nat) : a.Grows (a.addEdge s lo hi t) :=
  ⟨by simp, fun _ _ he => mem_edges_addEdge.mpr (.inl he), by simp, by simp⟩

theorem grows_addEmpty (a : Nfa) (s t : Nat) : a.Grows (a.addEmpty s t) :=
  ⟨by simp, by simp, fun _ _ hm => mem_empty_addEmpty.mpr (.inl hm), by simp⟩

theorem Path.of_subset {word : List Nat} (h : a.Path s word t)
    (hedges : ∀ s, (a.state s).edges ⊆ (b.state s).edges)
    (hempty : ∀ s, (a.state s).empty ⊆ (b.state s).empty) : b.Path s word t := by
  induction h with
  | done s => exact .done s
  | empty hm _ ih => exact .empty (hempty _ hm) ih
  | edge he hlo hhi _ ih => exact .edge (hedges _ he) hlo hhi ih

theorem Path.mono {word : List Nat} (h : a.Path s word t) (hab : a.Grows b) :
    b.Path s word t :=
  h.of_subset hab.edges hab.empty

theorem path_addEmpty (hs : s < a.size) : (a.addEmpty s t).Path s [] t :=
  .empty (mem_empty_addEmpty.mpr (.inr ⟨⟨rfl, hs⟩, rfl⟩)) (.done t)

/-! ## §3 Labels -/

/-- `a.Admits L`: from a state on, words can be read that an edge leads to, so
that its label has them if the target's label has what is left. Edges lead to
states. -/
structure Admits (a : Nfa) (L : Nat → Language Nat) : Prop where
  empty : ∀ s, ∀ m ∈ (a.state s).empty, m < a.size ∧ L m ≤ L s
  edge : ∀ s, ∀ e ∈ (a.state s).edges, e.target < a.size ∧
    ∀ u, e.lo ≤ u → u < e.hi → ∀ word ∈ L e.target, u :: word ∈ L s

variable {L L' : Nat → Language Nat} {K K' : Language Nat}

/-- A path leads from a word of a label to words of the labels before it. -/
theorem Admits.of_path (h : a.Admits L) {word rest : List Nat} (hpath : a.Path s word t)
    (hrest : rest ∈ L t) : word ++ rest ∈ L s := by
  induction hpath with
  | done => exact hrest
  | empty hm _ ih => exact (h.empty _ _ hm).2 (ih hrest)
  | edge he hlo hhi _ ih => exact (h.edge _ _ he).2 _ hlo hhi _ (ih hrest)

theorem lt_size_of_mem_empty {i m : Nat} (h : m ∈ (a.state i).empty) : i < a.size := by
  by_contra hi
  rw [state_of_size_le (Nat.le_of_not_lt hi)] at h
  cases h

theorem lt_size_of_mem_edges {i : Nat} {e : UnitEdge} (h : e ∈ (a.state i).edges) :
    i < a.size := by
  by_contra hi
  rw [state_of_size_le (Nat.le_of_not_lt hi)] at h
  cases h

/-- Only the labels of states matter. -/
theorem Admits.congr (h : a.Admits L) (heq : ∀ q < a.size, L' q = L q) : a.Admits L' where
  empty s m hm := by
    obtain ⟨hlt, hle⟩ := h.empty s m hm
    rw [heq m hlt, heq s (lt_size_of_mem_empty hm)]
    exact ⟨hlt, hle⟩
  edge s e he := by
    obtain ⟨hlt, hread⟩ := h.edge s e he
    rw [heq _ hlt, heq s (lt_size_of_mem_edges he)]
    exact ⟨hlt, hread⟩

/-- A new state can have any label. -/
theorem Admits.addState (h : a.Admits L) (K : Language Nat) :
    a.addState.2.Admits (Function.update L a.size K) := by
  have hcongr : a.Admits (Function.update L a.size K) :=
    h.congr fun q hq => Function.update_of_ne (Nat.ne_of_lt hq) _ _
  refine ⟨fun s m hm => ?_, fun s e he => ?_⟩
  · obtain ⟨hlt, hle⟩ := hcongr.empty s m (by simpa using hm)
    exact ⟨by simp only [size_addState]; omega, hle⟩
  · obtain ⟨hlt, hread⟩ := hcongr.edge s e (by simpa using he)
    exact ⟨by simp only [size_addState]; omega, hread⟩

theorem Admits.addEdge (h : a.Admits L) (ht : t < a.size)
    (hread : ∀ u, lo ≤ u → u < hi → ∀ word ∈ L t, u :: word ∈ L s) :
    (a.addEdge s lo hi t).Admits L := by
  refine ⟨fun i m hm => ?_, fun i e he => ?_⟩
  · rw [size_addEdge]
    exact h.empty i m (by simpa using hm)
  · rw [size_addEdge]
    rcases mem_edges_addEdge.mp he with he | ⟨⟨rfl, _⟩, rfl⟩
    · exact h.edge i e he
    · exact ⟨ht, hread⟩

theorem Admits.addEmpty (h : a.Admits L) (ht : t < a.size) (hle : L t ≤ L s) :
    (a.addEmpty s t).Admits L := by
  refine ⟨fun i m hm => ?_, fun i e he => ?_⟩
  · rw [size_addEmpty]
    rcases mem_empty_addEmpty.mp hm with hm | ⟨⟨rfl, _⟩, rfl⟩
    · exact h.empty i m hm
    · exact ⟨ht, hle⟩
  · rw [size_addEmpty]
    exact h.edge i e (by simpa using he)

theorem Admits.addAccepting (h : a.Admits L) (token : Term) :
    (a.addAccepting token).2.Admits L := by
  refine ⟨fun s m hm => ?_, fun s e he => ?_⟩
  · obtain ⟨hlt, hle⟩ := h.empty s m (by simpa using hm)
    exact ⟨by rw [size_addAccepting]; omega, hle⟩
  · obtain ⟨hlt, hread⟩ := h.edge s e (by simpa using he)
    exact ⟨by rw [size_addAccepting]; omega, hread⟩

theorem Admits.add (h : a.Admits L) (h' : a.Admits L') : a.Admits fun s => L s + L' s where
  empty s m hm := ⟨(h.empty s m hm).1, add_le_add (h.empty s m hm).2 (h'.empty s m hm).2⟩
  edge s e he := ⟨(h.edge s e he).1, fun u hlo hhi word hword =>
    hword.imp ((h.edge s e he).2 u hlo hhi word) ((h'.edge s e he).2 u hlo hhi word)⟩

theorem Admits.mul_right (h : a.Admits L) (K : Language Nat) : a.Admits fun s => L s * K where
  empty s m hm := ⟨(h.empty s m hm).1, mul_le_mul_left (h.empty s m hm).2 K⟩
  edge s e he := by
    refine ⟨(h.edge s e he).1, fun u hlo hhi word hword => ?_⟩
    obtain ⟨first, hfirst, later, hlater, rfl⟩ := Language.mem_mul.mp hword
    exact Language.append_mem_mul ((h.edge s e he).2 u hlo hhi first hfirst) hlater

/-! ## §4 Joining -/

/-- `a.Joins s t K b`: the automaton `b` is `a` with new ways from `s` to `t`, on
which exactly the words of `K` are read: they can be read, and labels that fit
`K` can be continued to new states. -/
structure Joins (a : Nfa) (s t : Nat) (K : Language Nat) (b : Nfa) : Prop where
  grows : a.Grows b
  reads : ∀ word ∈ K, b.Path s word t
  admits : ∀ L, a.Admits L → K * L t ≤ L s → ∃ L', (∀ q < a.size, L' q = L q) ∧ b.Admits L'

theorem Joins.lt_size (h : a.Joins s t K b) {i : Nat} (hi : i < a.size) : i < b.size :=
  Nat.lt_of_lt_of_le hi h.grows.size_le

/-- The words of one code unit of a range. -/
def unitWords (lo hi : Nat) : Language Nat :=
  {word | ∃ u, lo ≤ u ∧ u < hi ∧ word = [u]}

theorem joins_zero (a : Nfa) (s t : Nat) : a.Joins s t 0 a where
  grows := .refl a
  reads _ h := absurd h (Language.notMem_zero _)
  admits L h _ := ⟨L, fun _ _ => rfl, h⟩

theorem joins_addEmpty (hs : s < a.size) (ht : t < a.size) : a.Joins s t 1 (a.addEmpty s t) where
  grows := grows_addEmpty a s t
  reads word h := by
    obtain rfl := Language.mem_one _ |>.mp h
    exact path_addEmpty hs
  admits L h hle := ⟨L, fun _ _ => rfl, h.addEmpty ht (by simpa using hle)⟩

theorem joins_addEdge (hs : s < a.size) (ht : t < a.size) :
    a.Joins s t (unitWords lo hi) (a.addEdge s lo hi t) where
  grows := grows_addEdge a s lo hi t
  reads word h := by
    obtain ⟨u, hlo, hhi, rfl⟩ := h
    exact .edge (mem_edges_addEdge.mpr (.inr ⟨⟨rfl, hs⟩, rfl⟩)) hlo hhi (.done t)
  admits L h hle := by
    refine ⟨L, fun _ _ => rfl, h.addEdge ht fun u hlo hhi word hword => hle ?_⟩
    exact Language.append_mem_mul (show [u] ∈ unitWords lo hi from ⟨u, hlo, hhi, rfl⟩) hword

theorem Joins.add (h : a.Joins s t K b) (h' : b.Joins s t K' c) (hs : s < a.size)
    (ht : t < a.size) : a.Joins s t (K + K') c where
  grows := h.grows.trans h'.grows
  reads word hword := by
    rcases hword with hword | hword
    · exact (h.reads word hword).mono h'.grows
    · exact h'.reads word hword
  admits L hL hle := by
    rw [add_mul] at hle
    obtain ⟨hK, hK'⟩ := add_le_iff.mp hle
    obtain ⟨L₁, heq₁, hL₁⟩ := h.admits L hL hK
    obtain ⟨L₂, heq₂, hL₂⟩ := h'.admits L₁ hL₁ (by rwa [heq₁ s hs, heq₁ t ht])
    refine ⟨L₂, fun q hq => ?_, hL₂⟩
    rw [heq₂ q (h.lt_size hq), heq₁ q hq]

/-- Besides a part that leads straight on, one part after another with a new state in between. -/
theorem Joins.detour {d : Nfa} {K₀ : Language Nat} (h₀ : a.addState.2.Joins s t K₀ b)
    (h : b.Joins s a.size K c) (h' : c.Joins a.size t K' d) (hs : s < a.size) (ht : t < a.size) :
    a.Joins s t (K₀ + K * K') d where
  grows := (grows_addState a).trans (h₀.grows.trans (h.grows.trans h'.grows))
  reads word hword := by
    rcases hword with hword | hword
    · exact (h₀.reads word hword).mono (h.grows.trans h'.grows)
    · obtain ⟨first, hfirst, later, hlater, rfl⟩ := Language.mem_mul.mp hword
      exact ((h.reads first hfirst).mono h'.grows).append (h'.reads later hlater)
  admits L hL hle := by
    rw [add_mul, mul_assoc] at hle
    obtain ⟨hstraight, hround⟩ := add_le_iff.mp hle
    -- From the new state on, the second part is left to read.
    have hmiddle : Function.update L a.size (K' * L t) a.size = K' * L t :=
      Function.update_self a.size (K' * L t) L
    have hothers (q : Nat) (hq : q < a.size) : Function.update L a.size (K' * L t) q = L q :=
      Function.update_of_ne (Nat.ne_of_lt hq) _ _
    have hsize : a.size < a.addState.2.size := by simp
    have hlt (q : Nat) (hq : q < a.size) : q < a.addState.2.size := Nat.lt_trans hq hsize
    obtain ⟨L₀, heq₀, hL₀⟩ := h₀.admits _ (hL.addState (K' * L t)) (by
      rwa [hothers s hs, hothers t ht])
    have hback₀ (q : Nat) (hq : q < a.size) : L₀ q = L q :=
      (heq₀ q (hlt q hq)).trans (hothers q hq)
    obtain ⟨L₁, heq₁, hL₁⟩ := h.admits L₀ hL₀ (by
      rwa [hback₀ s hs, heq₀ _ hsize, hmiddle])
    have hback₁ (q : Nat) (hq : q < a.size) : L₁ q = L q :=
      (heq₁ q (h₀.lt_size (hlt q hq))).trans (hback₀ q hq)
    obtain ⟨L₂, heq₂, hL₂⟩ := h'.admits L₁ hL₁ (by
      rw [hback₁ t ht, heq₁ _ (h₀.lt_size hsize), heq₀ _ hsize, hmiddle])
    exact ⟨L₂, fun q hq => (heq₂ q (h.lt_size (h₀.lt_size (hlt q hq)))).trans (hback₁ q hq), hL₂⟩

/-- One part after another, with a new state in between. -/
theorem Joins.mul (h : a.addState.2.Joins s a.size K b) (h' : b.Joins a.size t K' c)
    (hs : s < a.size) (ht : t < a.size) : a.Joins s t (K * K') c :=
  zero_add (K * K') ▸ (joins_zero _ s t).detour h h' hs ht

/-! ## §5 Ways -/

/-- The words that can be read between two states. -/
def ways (a : Nfa) (s t : Nat) : Language Nat :=
  {word | a.Path s word t}

theorem ways_mono (h : a.Grows b) (s t : Nat) : a.ways s t ≤ b.ways s t :=
  fun _ hpath => hpath.mono h

theorem one_le_ways_self (a : Nfa) (s : Nat) : 1 ≤ a.ways s s := by
  intro word hword
  obtain rfl := Language.mem_one _ |>.mp hword
  exact .done s

theorem ways_mul_le (a : Nfa) (s t q : Nat) : a.ways s t * a.ways t q ≤ a.ways s q := by
  intro word hword
  obtain ⟨first, hfirst, later, hlater, rfl⟩ := Language.mem_mul.mp hword
  exact hfirst.append hlater

/-- If edges lead to states, what is left to read on the ways to a state is a label. -/
theorem Admits.ways (h : a.Admits fun _ => ⊤) (t : Nat) : a.Admits fun s => a.ways s t where
  empty s m hm := ⟨(h.empty s m hm).1, fun _ hpath => .empty hm hpath⟩
  edge s e he := ⟨(h.edge s e he).1, fun _ hlo hhi _ hpath => .edge he hlo hhi hpath⟩

theorem ways_addAccepting (a : Nfa) (token : Term) (s t : Nat) :
    (a.addAccepting token).2.ways s t = a.ways s t := by
  ext word
  exact ⟨fun hpath => hpath.of_subset (by simp) (by simp),
    fun hpath => hpath.of_subset (by simp) (by simp)⟩

/-- Nothing leads away from a state without edges. -/
theorem Path.eq_of_state_eq {word : List Nat} (h : a.Path s word t) (hs : a.state s = {}) :
    t = s ∧ word = [] := by
  cases h with
  | done => exact ⟨rfl, rfl⟩
  | empty hm =>
    rw [hs] at hm
    cases hm
  | edge he =>
    rw [hs] at he
    cases he

theorem ways_self_of_state_eq (hs : a.state s = {}) : a.ways s s = 1 :=
  le_antisymm (fun _ hpath => Language.mem_one _ |>.mpr (hpath.eq_of_state_eq hs).2)
    (one_le_ways_self a s)

theorem ways_of_state_eq (hs : a.state s = {}) (hne : t ≠ s) : a.ways s t = 0 :=
  bot_unique fun _ hpath => hne (hpath.eq_of_state_eq hs).1

/-- From states only states are reached. -/
theorem Admits.lt_size_of_path (h : a.Admits fun _ => ⊤) {word : List Nat}
    (hpath : a.Path s word t) (hs : s < a.size) : t < a.size := by
  induction hpath with
  | done => exact hs
  | empty hm _ ih => exact ih (h.empty _ _ hm).1
  | edge he _ _ _ ih => exact ih (h.edge _ _ he).1

/-- What a new part adds are the ways that go through it, once or again and again. -/
theorem Joins.ways_eq_kstar {i j : Nat} (h : a.Joins s t K b) (hclosed : a.Admits fun _ => ⊤)
    (hi : i < a.size) (hj : j < a.size) :
    b.ways i j = a.ways i j + a.ways i s * K * (a.ways t s * K)∗ * a.ways t j := by
  let again : Language Nat := (a.ways t s * K)∗
  refine le_antisymm ?_ (add_le (ways_mono h.grows i j) ?_)
  · let L (q : Nat) : Language Nat := a.ways q j + a.ways q s * (K * again * a.ways t j)
    have hL : a.Admits L := (hclosed.ways j).add ((hclosed.ways s).mul_right _)
    have hround : K * L t ≤ L s := by
      have honce : a.ways t j + a.ways t s * (K * again * a.ways t j) ≤ again * a.ways t j := by
        refine add_le (by simpa using mul_le_mul_left one_le_kstar (a.ways t j)) ?_
        have hfurther := mul_le_mul_left (mul_kstar_le_kstar (a := a.ways t s * K)) (a.ways t j)
        simpa only [mul_assoc] using hfurther
      calc K * L t ≤ K * (again * a.ways t j) := mul_le_mul_right honce K
        _ = 1 * (K * again * a.ways t j) := by rw [one_mul, mul_assoc]
        _ ≤ a.ways s s * (K * again * a.ways t j) := mul_le_mul_left (one_le_ways_self a s) _
        _ ≤ L s := le_add_self
    obtain ⟨L', heq, hL'⟩ := h.admits L hL hround
    have hend : [] ∈ L' j := by
      rw [heq j hj]
      exact .inl (.done j)
    intro word hpath
    have hlabel := hL'.of_path hpath hend
    rw [List.append_nil, heq i hi] at hlabel
    rw [mul_assoc _ again, mul_assoc _ K, ← mul_assoc K]
    exact hlabel
  · have hagain : again ≤ b.ways t t := by
      have hround : a.ways t s * K ≤ b.ways t t :=
        (mul_le_mul' (ways_mono h.grows t s) h.reads).trans (ways_mul_le b t s t)
      have hrepeat : b.ways t t * (a.ways t s * K) ≤ b.ways t t :=
        (mul_le_mul_right hround _).trans (ways_mul_le b t t t)
      simpa using kstar_le_of_mul_le_left (one_le_ways_self b t) hrepeat
    calc a.ways i s * K * again * a.ways t j
        ≤ b.ways i s * b.ways s t * b.ways t t * b.ways t j :=
          mul_le_mul' (mul_le_mul' (mul_le_mul' (ways_mono h.grows i s) h.reads) hagain)
            (ways_mono h.grows t j)
      _ ≤ b.ways i t * b.ways t t * b.ways t j :=
          mul_le_mul_left (mul_le_mul_left (ways_mul_le b i s t) _) _
      _ ≤ b.ways i t * b.ways t j := mul_le_mul_left (ways_mul_le b i t t) _
      _ ≤ b.ways i j := ways_mul_le b i t j

/-- If no way leads back from the end of a new part to its start, what it adds are the ways that
go through it once. -/
theorem Joins.ways_eq {q : Nat} (h : a.Joins s t K b) (hclosed : a.Admits fun _ => ⊤)
    (hs : s < a.size) (hback : a.ways t s = 0) (hq : q < a.size) :
    b.ways s q = a.ways s q + a.ways s s * K * a.ways t q := by
  rw [h.ways_eq_kstar hclosed hs hq, hback, zero_mul, kstar_zero, mul_one]

end Nfa

end GrammarCompiler
