/-
GrammarCompiler.Proofs.Distinguishing — which states of the smallest automaton
can be told apart by words.

Classes are split by edges as they are written, so two states that read all
words alike stay apart if one of them has two edges that touch where the other
one has a single edge. That is the only reason: if states that read alike are
written alike, no two of the states that remain read alike, and no automaton
that reads the same has fewer states.

  §1 Reading alike — what states are read as, and what edges carry over.
  §2 Classes       — states that are written alike stay in one class.
  §3 Leaders       — each class has one of the states that remain.
  §4 Sizes         — automata of which no two states read alike.
-/
import GrammarCompiler.Proofs.Classifying
import GrammarCompiler.Proofs.Drafting
import GrammarCompiler.Proofs.Tabling

namespace GrammarCompiler

open Minimize

namespace Dfa

/-! ## §1 Reading alike -/

/-- The tokens that a word is read as from a state on. -/
def acceptedFrom (a : Dfa) (i : Nat) (word : List Nat) : List Term :=
  ((a.run? i word).map fun k => (a.state k).accepting).getD []

/-- Every word is read alike from two states on. -/
def Alike (a : Dfa) (i j : Nat) : Prop :=
  ∀ word, a.acceptedFrom i word = a.acceptedFrom j word

/-- A word leads to a state. -/
def IsReached (a : Dfa) (i : Nat) : Prop :=
  ∃ word, a.run? 0 word = some i

/-- No two states read alike. -/
def IsReduced (a : Dfa) : Prop :=
  ∀ i < a.size, ∀ j < a.size, a.Alike i j → i = j

/-- The ranges of code units that lead on from a state, as they are written. -/
def ranges (a : Dfa) (i : Nat) : List (Nat × Nat) :=
  (a.state i).edges.map fun e => (e.lo, e.hi)

variable {a b : Dfa} {i j k : Nat}

@[simp] theorem acceptedFrom_nil (a : Dfa) (i : Nat) :
    a.acceptedFrom i [] = (a.state i).accepting :=
  rfl

theorem acceptedFrom_zero (a : Dfa) (word : List Nat) : a.acceptedFrom 0 word = a.accepted word := by
  rw [acceptedFrom, accepted]
  cases a.run? 0 word <;> rfl

theorem acceptedFrom_append {word : List Nat} (h : a.run? i word = some j) (rest : List Nat) :
    a.acceptedFrom i (word ++ rest) = a.acceptedFrom j rest := by
  rw [acceptedFrom, run?_append, h, Option.bind_some, acceptedFrom]

theorem acceptedFrom_cons {unit : Nat} (h : a.step? i unit = some j) (word : List Nat) :
    a.acceptedFrom i (unit :: word) = a.acceptedFrom j word := by
  rw [acceptedFrom, run?, h, Option.bind_some, acceptedFrom]

theorem Alike.accepting_eq (h : a.Alike i j) : (a.state i).accepting = (a.state j).accepting :=
  h []

/-- What one code unit leads to from states that read alike reads alike. -/
theorem Alike.step {i' j' unit : Nat} (h : a.Alike i j) (hi : a.step? i unit = some i')
    (hj : a.step? j unit = some j') : a.Alike i' j' := by
  intro word
  rw [← acceptedFrom_cons hi, ← acceptedFrom_cons hj]
  exact h (unit :: word)

theorem acceptedFrom_of_size_le (h : a.size ≤ i) (word : List Nat) : a.acceptedFrom i word = [] := by
  cases word with
  | nil => rw [acceptedFrom_nil, state_of_size_le h]
  | cons unit word => rw [acceptedFrom, run?, step?, state_of_size_le h]; rfl

theorem lt_size_of_run? (hsize : 0 < a.size)
    (hinside : ∀ i, ∀ e ∈ (a.state i).edges, e.target < a.size) {word : List Nat}
    (h : a.run? 0 word = some i) : i < a.size := by
  have hrun (word : List Nat) (j : Nat) (hj : j < a.size) (h : a.run? j word = some i) :
      i < a.size := by
    induction word generalizing j with
    | nil => exact Option.some.inj h ▸ hj
    | cons unit word ih =>
      obtain ⟨j', hstep, h⟩ := Option.bind_eq_some_iff.mp h
      obtain ⟨e, he, rfl⟩ := Option.map_eq_some_iff.mp hstep
      exact ih _ (hinside _ e (List.mem_of_find?_eq_some he)) h
  exact hrun word 0 hsize h

theorem IsReached.step {unit : Nat} (h : a.IsReached i) (hstep : a.step? i unit = some j) :
    a.IsReached j := by
  obtain ⟨word, hword⟩ := h
  refine ⟨word ++ [unit], ?_⟩
  rw [run?_append, hword, Option.bind_some, run?, hstep, Option.bind_some, run?]

end Dfa

namespace Minimize

/-! ## §2 Classes -/

/-- States that are related have the same tokens and the same ranges, and are
followed by states that are related. -/
structure IsWritten (a : Dfa) (R : Nat → Nat → Prop) : Prop where
  accepting : ∀ i j, R i j → (a.state i).accepting = (a.state j).accepting
  edges : ∀ i j, R i j → List.Forall₂ (fun e f : UnitEdge => e.lo = f.lo ∧ e.hi = f.hi ∧
    R e.target f.target) (a.state i).edges (a.state j).edges

/-- States that are related are in one class. -/
def Classes.Keeps (size : Nat) (R : Nat → Nat → Prop) (c : Classes) : Prop :=
  ∀ i < size, ∀ j < size, R i j → c.classOf i = c.classOf j

variable {a : Dfa} {R : Nat → Nat → Prop} {c last : Classes}

theorem Classes.keeps_start (hsize : 0 < a.size) (h : IsWritten a R) :
    (Classes.start a).Keeps a.size R := by
  intro i hi j hj hij
  refine ((Classes.splits_start hsize).iff i hi j hj).mpr ⟨?_, h.accepting i j hij⟩
  simp [Classes.classOf, hi, hj]

/-- A round does not part states that are related. -/
theorem Classes.Keeps.refine (hinside : ∀ i, ∀ e ∈ (a.state i).edges, e.target < a.size)
    (h : IsWritten a R) (hsorts : c.Sorts a.size) (hc : c.Keeps a.size R) :
    (Minimize.refine a c).Keeps a.size R := by
  intro i hi j hj hij
  refine (hsorts.splits_refine.iff i hi j hj).mpr ⟨hc i hi j hj hij, ?_⟩
  have hedges := h.edges i j hij
  have hi' := hinside i
  have hj' := hinside j
  simp only [edgeKey]
  generalize (a.state i).edges = es at hedges hi'
  generalize (a.state j).edges = fs at hedges hj'
  induction hedges with
  | nil => rfl
  | cons hef _ ih =>
    obtain ⟨hlo, hhi, htargets⟩ := hef
    obtain ⟨he, hes⟩ := List.forall_mem_cons.mp hi'
    obtain ⟨hf, hfs⟩ := List.forall_mem_cons.mp hj'
    rw [List.map_cons, List.map_cons, hlo, hhi, hc _ he _ hf htargets, ih hes hfs]

theorem Loops.keeps (hinside : ∀ i, ∀ e ∈ (a.state i).edges, e.target < a.size)
    (h : IsWritten a R) (hloops : Loops a c last) (hsorts : c.Sorts a.size)
    (hc : c.Keeps a.size R) : last.Keeps a.size R := by
  induction hloops with
  | last => exact hc.refine hinside h hsorts
  | again _ _ ih => exact ih hsorts.splits_refine.sorts (hc.refine hinside h hsorts)

/-- The classes in the end are the largest ones that edges respect as they are
written. -/
theorem exists_isStable_keeps (hsize : 0 < a.size)
    (hinside : ∀ i, ∀ e ∈ (a.state i).edges, e.target < a.size) (h : IsWritten a R) :
    ∃ c : Classes, c.IsStable a ∧ c.ofState = classes a ∧ c.Keeps a.size R := by
  obtain ⟨last, hloops, hlast⟩ := loops_classes hsize
  have hsorts := (Classes.splits_start hsize).sorts
  exact ⟨last, hloops.isStable hinside hsorts (Classes.agrees_start hsize), hlast,
    hloops.keeps hinside h hsorts (Classes.keeps_start hsize h)⟩

theorem map_ranges_edgeKey (a : Dfa) (c : Classes) (i : Nat) :
    (edgeKey a c i).map (fun key => (key.1, key.2.1)) = a.ranges i := by
  simp [edgeKey, Dfa.ranges]

end Minimize

namespace Dfa

/-! ## §3 Leaders -/

variable {a b : Dfa} {c : Classes} {i j k l p q : Nat}

/-- States of one class have one leader. -/
theorem leader_congr (hc : c.Sorts a.size) (hclasses : c.ofState = classes a) (hi : i < a.size)
    (hj : j < a.size) (h : c.classOf i = c.classOf j) : a.leader i = a.leader j := by
  have hclass {i : Nat} (hi : i < a.size) : (classes a)[i]? = some (c.classOf i) :=
    hclasses ▸ hc.getElem?_eq hi
  have hleader {i : Nat} (hi : i < a.size) :
      a.leader i = ((classes a).findIdx? (· == c.classOf i)).getD i := by
    simp [leader, hi, representative, hclass hi]
  have hfound : ((classes a).findIdx? (· == c.classOf i)).isSome = true := by
    rw [Array.findIdx?_isSome, Array.any_eq_true']
    exact ⟨c.classOf i, Array.mem_of_getElem? (hclass hi), beq_self_eq_true _⟩
  obtain ⟨x, hx⟩ := Option.isSome_iff_exists.mp hfound
  rw [hleader hi, hleader hj, ← h, hx, Option.getD_some, Option.getD_some]

/-- The states that remain are leaders. -/
theorem exists_leader_eq (h : a.IsOrdered) (hp : p ∈ a.leaders) :
    ∃ i < a.size, a.leader i = p := by
  have hinside (p r : Nat) (hway : Walk.HasWay (a.edgeWays a.leader) p r) : p < a.size := by
    obtain ⟨e, he, _⟩ := hasWay_edgeWays.mp hway
    by_contra hp
    rw [state_of_size_le (by omega)] at he
    cases he
  obtain ⟨_, hleads⟩ := (Walk.mem_walk_iff (a.sum_edgeWays a.leader) hinside).mp hp
  cases hleads with
  | refl => exact ⟨0, h.nonempty, rfl⟩
  | tail _ hway =>
    obtain ⟨e, he, heq⟩ := hasWay_edgeWays.mp hway
    exact ⟨e.target, h.inside _ e he, heq⟩

/-- A class has one of the states that remain at most. -/
theorem eq_of_mem_leaders (h : a.IsOrdered) (hc : c.Sorts a.size) (hclasses : c.ofState = classes a)
    (hp : p ∈ a.leaders) (hq : q ∈ a.leaders) (hclass : c.classOf p = c.classOf q) : p = q := by
  obtain ⟨i, hi, rfl⟩ := exists_leader_eq h hp
  obtain ⟨j, hj, rfl⟩ := exists_leader_eq h hq
  rw [classOf_leader hclasses hi, classOf_leader hclasses hj] at hclass
  exact leader_congr hc hclasses hi hj hclass

theorem nodup_leaders (a : Dfa) : a.leaders.Nodup :=
  Walk.nodup_walk (a.sum_edgeWays a.leader)

/-- What mirrors a state is read as the state is. -/
theorem Mirrors.acceptedFrom_eq (h : a.IsOrdered) (hc : c.IsStable a)
    (hclasses : c.ofState = classes a) (hmirrors : a.Mirrors c k q) (word : List Nat) :
    a.minimize.acceptedFrom k word = a.acceptedFrom q word := by
  have hrun := hmirrors.run h hc hclasses word
  rw [acceptedFrom, acceptedFrom]
  generalize a.minimize.run? k word = k', a.run? q word = q' at hrun
  cases hrun with
  | none => rfl
  | some hmirrors => simp [hmirrors.accepting_eq hc]

/-- A word that leads to a state leads to one that mirrors it. -/
theorem exists_mirrors (h : a.IsOrdered) (hc : c.IsStable a) (hclasses : c.ofState = classes a)
    (hq : a.IsReached q) : ∃ k < a.minimize.size, a.Mirrors c k q := by
  obtain ⟨word, hword⟩ := hq
  have hrun := (mirrors_zero h hclasses).run h hc hclasses word
  rw [hword] at hrun
  generalize a.minimize.run? 0 word = k' at hrun
  cases hrun with
  | some hmirrors =>
    have ⟨p, hp, _⟩ := hmirrors
    exact ⟨_, size_minimize ▸ (List.getElem?_eq_some_iff.mp hp).1, hmirrors⟩

/-- Every state that remains mirrors one that a word leads to. -/
theorem exists_isReached_mirrors (h : a.IsOrdered)
    (hfull : ∀ i, ∀ e ∈ (a.state i).edges, e.lo < e.hi) (hc : c.IsStable a)
    (hclasses : c.ofState = classes a) (hk : k < a.minimize.size) :
    ∃ q, a.IsReached q ∧ a.Mirrors c k q := by
  obtain ⟨word, hword⟩ := (minimize_reads h).2.2.2.2.1 hfull k hk
  have hrun := (mirrors_zero h hclasses).run h hc hclasses word
  rw [hword] at hrun
  generalize hq : a.run? 0 word = q' at hrun
  cases hrun with
  | some hmirrors => exact ⟨_, ⟨word, hq⟩, hmirrors⟩

/-- States that words lead to are written alike if they read alike. -/
def IsWrittenAlike (a : Dfa) : Prop :=
  ∀ i j, a.IsReached i → a.IsReached j → a.Alike i j → a.ranges i = a.ranges j

theorem isWritten_alike (h : a.IsOrdered) (hfull : ∀ i, ∀ e ∈ (a.state i).edges, e.lo < e.hi)
    (hwritten : a.IsWrittenAlike) :
    IsWritten a fun i j => a.IsReached i ∧ a.IsReached j ∧ a.Alike i j where
  accepting _ _ hij := hij.2.2.accepting_eq
  edges i j hij := by
    obtain ⟨hi, hj, hij⟩ := hij
    have hranges : List.Forall₂ (fun e f : UnitEdge => (e.lo, e.hi) = (f.lo, f.hi))
        (a.state i).edges (a.state j).edges := by
      have heq := hwritten i j hi hj hij
      rwa [ranges, ranges, ← List.forall₂_eq_eq_eq, List.forall₂_map_left_iff,
        List.forall₂_map_right_iff] at heq
    rw [List.forall₂_iff_zip] at hranges ⊢
    refine ⟨hranges.1, fun {e f} hmem => ?_⟩
    obtain ⟨hlo, hhi⟩ := Prod.mk.inj (hranges.2 hmem)
    obtain ⟨he, hf⟩ := List.of_mem_zip hmem
    -- The lowest code unit of the range leads to both targets.
    have hstep : a.step? i e.lo = some e.target := (h.inOrder i).follow?_lo he (hfull i e he)
    have hstep' : a.step? j e.lo = some f.target :=
      hlo ▸ (h.inOrder j).follow?_lo hf (hfull j f hf)
    exact ⟨hlo, hhi, hi.step hstep, hj.step hstep', hij.step hstep hstep'⟩

/-- No two of the states that remain read alike, if states that read alike were
written alike, and only then. -/
theorem isReduced_minimize_iff (h : a.IsOrdered)
    (hfull : ∀ i, ∀ e ∈ (a.state i).edges, e.lo < e.hi) :
    a.minimize.IsReduced ↔ a.IsWrittenAlike := by
  constructor
  · intro hreduced i j hi hj hij
    obtain ⟨c, hc, hclasses⟩ := exists_isStable h.nonempty h.inside
    obtain ⟨k, hk, hki⟩ := exists_mirrors h hc hclasses hi
    obtain ⟨l, hl, hlj⟩ := exists_mirrors h hc hclasses hj
    obtain rfl : k = l := by
      refine hreduced k hk l hl fun word => ?_
      rw [hki.acceptedFrom_eq h hc hclasses, hlj.acceptedFrom_eq h hc hclasses, hij word]
    obtain ⟨p, hp, hilt, hpi⟩ := hki
    obtain ⟨p', hp', hjlt, hpj⟩ := hlj
    obtain rfl : p = p' := Option.some.inj (hp.symm.trans hp')
    rw [← map_ranges_edgeKey a c, hc.edges i hilt j hjlt (hpi.symm.trans hpj), map_ranges_edgeKey]
  · intro hwritten k hk l hl hkl
    obtain ⟨c, hc, hclasses, hkeeps⟩ :=
      exists_isStable_keeps h.nonempty h.inside (isWritten_alike h hfull hwritten)
    obtain ⟨i, hi, hki⟩ := exists_isReached_mirrors h hfull hc hclasses hk
    obtain ⟨j, hj, hlj⟩ := exists_isReached_mirrors h hfull hc hclasses hl
    have hij : a.Alike i j := by
      intro word
      rw [← hki.acceptedFrom_eq h hc hclasses, ← hlj.acceptedFrom_eq h hc hclasses, hkl word]
    obtain ⟨p, hp, hilt, hpi⟩ := hki
    obtain ⟨q, hq, hjlt, hqj⟩ := hlj
    have hclass : c.classOf p = c.classOf q :=
      (hpi.trans (hkeeps i hilt j hjlt ⟨hi, hj, hij⟩)).trans hqj.symm
    obtain rfl : p = q := eq_of_mem_leaders h hc.sorts hclasses (List.mem_of_getElem? hp)
      (List.mem_of_getElem? hq) hclass
    exact (List.getElem?_inj (size_minimize ▸ hk) a.nodup_leaders).mp (hp.trans hq.symm)

/-! ## §4 Sizes -/

/-- An automaton that has a state for each way of reading has at least as many
states as one of which no two states read alike. -/
theorem IsReduced.size_le (h : a.IsReduced)
    (hb : ∀ i < a.size, ∃ j < b.size, ∀ word, b.acceptedFrom j word = a.acceptedFrom i word) :
    a.size ≤ b.size := by
  have hmap (i : Nat) : ∃ j, i < a.size →
      j < b.size ∧ ∀ word, b.acceptedFrom j word = a.acceptedFrom i word := by
    by_cases hi : i < a.size
    · obtain ⟨j, hj⟩ := hb i hi
      exact ⟨j, fun _ => hj⟩
    · exact ⟨0, fun hi' => absurd hi' hi⟩
  choose f hf using hmap
  have hcard : (Finset.range a.size).card ≤ (Finset.range b.size).card := by
    refine Finset.card_le_card_of_injOn f (fun i hi => ?_) fun i hi j hj hij => ?_
    · simpa using (hf i (by simpa using hi)).1
    · simp only [Finset.coe_range, Set.mem_Iio] at hi hj
      refine h i hi j hj fun word => ?_
      rw [← (hf i hi).2, ← (hf j hj).2, hij]
  simpa using hcard

/-- No automaton that reads and stops alike has fewer states than one that is
reached in all states, no two of which read alike. -/
theorem IsReduced.size_le_of_stops (h : a.IsReduced) (hreached : ∀ i < a.size, a.IsReached i)
    (hsize : 0 < b.size) (hinside : ∀ i, ∀ e ∈ (b.state i).edges, e.target < b.size)
    (hreads : ∀ word, (b.run? 0 word).map (fun i => (b.state i).accepting) =
      (a.run? 0 word).map fun i => (a.state i).accepting) : a.size ≤ b.size := by
  refine h.size_le fun i hi => ?_
  obtain ⟨word, hword⟩ := hreached i hi
  have hstop := hreads word
  rw [hword, Option.map_some, Option.map_eq_some_iff] at hstop
  obtain ⟨j, hj, _⟩ := hstop
  refine ⟨j, lt_size_of_run? hsize hinside hj, fun rest => ?_⟩
  have hrest := congrArg (·.getD []) (hreads (word ++ rest))
  rwa [run?_append, run?_append, hj, hword] at hrest

/-- If every state leads on to a token, no automaton that reads alike has fewer
states, wherever it stops. -/
theorem IsReduced.size_le_of_reads (h : a.IsReduced) (hreached : ∀ i < a.size, a.IsReached i)
    (halive : ∀ i < a.size, ∃ word, a.acceptedFrom i word ≠ [])
    (hreads : ∀ word, b.accepted word = a.accepted word) : a.size ≤ b.size := by
  refine h.size_le fun i hi => ?_
  obtain ⟨word, hword⟩ := hreached i hi
  have hfrom (rest : List Nat) : b.acceptedFrom 0 (word ++ rest) = a.acceptedFrom i rest := by
    rw [acceptedFrom_zero, hreads, ← acceptedFrom_zero, acceptedFrom_append hword]
  obtain ⟨rest, hrest⟩ := halive i hi
  cases hj : b.run? 0 word with
  | none =>
    rw [← hfrom, acceptedFrom, run?_append, hj] at hrest
    exact absurd rfl hrest
  | some j =>
    have hsame (rest : List Nat) : b.acceptedFrom j rest = a.acceptedFrom i rest := by
      rw [← hfrom, acceptedFrom_append hj]
    refine ⟨j, ?_, hsame⟩
    by_contra hlt
    rw [← hsame, acceptedFrom_of_size_le (Nat.le_of_not_lt hlt)] at hrest
    exact hrest rfl

theorem size_minimize_le (a : Dfa) : a.minimize.size ≤ a.size := by
  have hsub : a.leaders ⊆ List.range a.size := fun _ hp =>
    List.mem_range.mpr (lt_size_of_mem_leaders hp)
  simpa [size_minimize] using (a.nodup_leaders.subperm hsub).length_le

end Dfa

/-- Making the smallest automaton leaves no two states that read all words alike
exactly if states that read alike are written alike before. Then no automaton
that reads and stops alike has fewer states, nor any that reads alike if every
state leads on to a token, and there is nothing to gain from making the smallest
automaton again. -/
theorem Nfa.minimize_compile_isReduced_iff {a : Nfa} {start : Nat} {terms : TermTable} {dfa : Dfa}
    (h : a.compile start terms = .ok dfa) :
    (dfa.minimize.IsReduced ↔ dfa.IsWrittenAlike) ∧ (dfa.IsWrittenAlike →
      (∀ b : Dfa, 0 < b.size → (∀ i, ∀ e ∈ (b.state i).edges, e.target < b.size) →
        (∀ word, (b.run? 0 word).map (fun i => (b.state i).accepting) =
          (dfa.run? 0 word).map fun i => (dfa.state i).accepting) → dfa.minimize.size ≤ b.size) ∧
      ((∀ i < dfa.minimize.size, ∃ word, dfa.minimize.acceptedFrom i word ≠ []) →
        ∀ b : Dfa, (∀ word, b.accepted word = dfa.accepted word) → dfa.minimize.size ≤ b.size) ∧
      dfa.minimize.minimize.size = dfa.minimize.size) := by
  have hordered := isOrdered_of_compile h
  have hsound := isSound_of_compile h
  have hiff := Dfa.isReduced_minimize_iff hordered hsound.full
  refine ⟨hiff, fun hwritten => ?_⟩
  have hreduced := hiff.mpr hwritten
  obtain ⟨_, _, hreads, _, hreached, hordered'⟩ := Dfa.minimize_reads hordered
  have hreached : ∀ i < dfa.minimize.size, dfa.minimize.IsReached i := hreached hsound.full
  have hreads' := (Dfa.minimize_reads hordered').2.2.1
  refine ⟨fun b hsize hinside hb => ?_, fun halive b hb => ?_, ?_⟩
  · exact hreduced.size_le_of_stops hreached hsize hinside fun word => by rw [hb, hreads]
  · refine hreduced.size_le_of_reads hreached halive fun word => ?_
    rw [hb, ← Dfa.acceptedFrom_zero, ← Dfa.acceptedFrom_zero, Dfa.acceptedFrom, Dfa.acceptedFrom,
      hreads]
  · have hordered'' := Dfa.isOrdered_minimize hordered'
    exact Nat.le_antisymm (Dfa.size_minimize_le _)
      (hreduced.size_le_of_stops hreached hordered''.nonempty hordered''.inside hreads')

/-- It is enough to tell states that are written differently apart by some words. -/
theorem Dfa.isWrittenAlike_of_words {a : Dfa} (h : a.IsOrdered) (words : List (List Nat))
    (hwords : ∀ i < a.size, ∀ j < a.size, a.ranges i = a.ranges j ∨
      ∃ word ∈ words, a.acceptedFrom i word ≠ a.acceptedFrom j word) : a.IsWrittenAlike := by
  rintro i j ⟨_, hi⟩ ⟨_, hj⟩ halike
  rcases hwords i (lt_size_of_run? h.nonempty h.inside hi) j
    (lt_size_of_run? h.nonempty h.inside hj) with hranges | ⟨word, _, hne⟩
  · exact hranges
  · exact absurd (halike word) hne

/-- `a` or `b`, and then `x`. -/
def twoStarts : Nfa :=
  ⟨#[{ edges := [⟨0x61, 0x62, 1⟩, ⟨0x62, 0x63, 2⟩] }, { edges := [⟨0x78, 0x79, 3⟩] },
    { edges := [⟨0x78, 0x79, 3⟩] }, { accepting := [⟨2⟩] }]⟩

/-- States that are written alike become one, and none of the three that remain
can be spared. -/
theorem Nfa.minimize_compile_isReduced_twoStarts : ∃ dfa,
    twoStarts.compile 0 ⟨#[], []⟩ = .ok dfa ∧ dfa.size = 4 ∧ dfa.minimize.size = 3 ∧
      dfa.IsWrittenAlike ∧ dfa.minimize.IsReduced ∧
      ∀ b : Dfa, (∀ word, b.accepted word = dfa.accepted word) → 3 ≤ b.size := by
  have hcheck : ((twoStarts.compile 0 ⟨#[], []⟩).toOption.any fun dfa =>
      decide (dfa.size = 4 ∧ dfa.minimize.size = 3 ∧
        (∀ i < dfa.size, ∀ j < dfa.size, dfa.ranges i = dfa.ranges j ∨
          ∃ word ∈ [[], [0x78]], dfa.acceptedFrom i word ≠ dfa.acceptedFrom j word) ∧
        ∀ i < dfa.minimize.size, ∃ word ∈ [[0x61, 0x78], [0x78], []],
          dfa.minimize.acceptedFrom i word ≠ [])) = true := by
    decide +kernel
  obtain ⟨dfa, h, hcheck⟩ := exists_ok_of_any hcheck
  obtain ⟨hsize, hleft, hwords, halive⟩ := of_decide_eq_true hcheck
  have hwritten := Dfa.isWrittenAlike_of_words (isOrdered_of_compile h) _ hwords
  obtain ⟨hreduced, hleast⟩ := minimize_compile_isReduced_iff h
  refine ⟨dfa, h, hsize, hleft, hwritten, hreduced.mpr hwritten, fun b hb => ?_⟩
  rw [← hleft]
  exact (hleast hwritten).2.1 (fun i hi => (halive i hi).imp fun _ hword => hword.2) b hb

/-- A token in which the same two characters are written as one range and as
two. -/
def splitRanges : Text.Source :=
  ⟨"", "@top T \x7b t \x7d @tokens \x7b" ++
    "t \x7b \"c\" $[a-b] \"x\" | \"d\" (\"a\" \"x\" | \"b\" \"x\") \x7d \x7d"⟩

theorem Dfa.alike_of_state_eq {a : Dfa} {i j : Nat} (h : a.state i = a.state j) : a.Alike i j := by
  intro word
  cases word with
  | nil => rw [acceptedFrom_nil, acceptedFrom_nil, h]
  | cons unit word => rw [acceptedFrom, acceptedFrom, run?, run?, step?, step?, h]

/-- Two states that read alike remain, as they are written differently; only
afterwards are they written alike, and a second round would make them one. -/
theorem Nfa.minimize_splitRanges_not_isReduced : ∃ b journal dfa,
    Blueprint.ofSource splitRanges = (.ok b, journal) ∧
      b.draft.tokens.compile Draft.tokenStart b.draft.terms = .ok dfa ∧
      ¬ dfa.minimize.IsReduced ∧ dfa.minimize.minimize.size < dfa.minimize.size ∧
      ∀ word, dfa.minimize.minimize.accepted word = dfa.minimize.accepted word := by
  have hcheck : (Blueprint.ofSource splitRanges).1.toOption.any (fun b =>
      (b.draft.tokens.compile Draft.tokenStart b.draft.terms).toOption.any fun dfa =>
        decide (dfa.minimize.size = 5 ∧ dfa.minimize.minimize.size = 4 ∧
          dfa.minimize.state 1 = dfa.minimize.state 4)) = true := by
    decide +kernel
  obtain ⟨b, journal, hsource, hcheck⟩ := exists_ok_fst_of_any hcheck
  obtain ⟨dfa, h, hcheck⟩ := exists_ok_of_any hcheck
  obtain ⟨hsize, hsize', hstate⟩ := of_decide_eq_true hcheck
  refine ⟨b, journal, dfa, hsource, h, fun hreduced => ?_, by omega, fun word => ?_⟩
  · have heq := hreduced 1 (by omega) 4 (by omega) (Dfa.alike_of_state_eq hstate)
    omega
  · have hordered := Dfa.isOrdered_minimize (isOrdered_of_compile h)
    rw [← Dfa.acceptedFrom_zero, ← Dfa.acceptedFrom_zero, Dfa.acceptedFrom, Dfa.acceptedFrom,
      Dfa.map_accepting_minimize hordered]

end GrammarCompiler
