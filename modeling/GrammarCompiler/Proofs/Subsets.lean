/-
GrammarCompiler.Proofs.Subsets — the automaton without choices reads the same
tokens.

A state of that automaton stands for a set of states that is closed under empty
edges. The search for all sets ends, since there are only finitely many of
them. Then the set that a word leads to holds exactly the relevant states that
paths with this word lead to.

  §1 Closed sets — what code units and words make of them.
  §2 Searches    — every set that was looked at has edges to others.
  §3 Finite sets — the search has enough fuel.
  §4 Runs        — the sets that words lead to.
  §5 Results     — the tokens of words, and the token that is empty.
-/
import GrammarCompiler.Proofs.Lists
import GrammarCompiler.Proofs.Paths
import GrammarCompiler.Proofs.Spans

namespace GrammarCompiler

namespace Subset

variable {a : Nfa}

/-! ## §1 Closed sets -/

/-- The edges of all states of a set. -/
def edgesOf (a : Nfa) (set : List Nat) : List UnitEdge :=
  set.flatMap fun s => (a.state s).edges

/-- A set of relevant states that has all relevant states which empty edges
lead to. -/
structure IsClosed (a : Nfa) (set : List Nat) : Prop where
  sorted : set.Pairwise (· < ·)
  relevant : ∀ p ∈ set, a.isRelevant p = true
  closed : ∀ p ∈ set, ∀ q, a.isRelevant q = true → a.Path p [] q → q ∈ set

theorem isClosed_closure (a : Nfa) (s : Nat) : IsClosed a (a.closure s) where
  sorted := a.pairwise_closure s
  relevant _ hp := (Nfa.mem_closure_iff.mp hp).1
  closed _ hp _ hq hpath :=
    Nfa.mem_closure_iff.mpr ⟨hq, (Nfa.mem_closure_iff.mp hp).2.append hpath⟩

theorem isClosed_targetsAt (a : Nfa) (edges : List UnitEdge) (unit : Nat) :
    IsClosed a (targetsAt a.closure edges unit) where
  sorted := pairwise_targetsAt a.pairwise_closure unit
  relevant p hp := by
    obtain ⟨e, _, _, _, hp⟩ := mem_targetsAt.mp hp
    exact (isClosed_closure a e.target).relevant p hp
  closed p hp q hq hpath := by
    obtain ⟨e, he, hlo, hhi, hp⟩ := mem_targetsAt.mp hp
    exact mem_targetsAt.mpr
      ⟨e, he, hlo, hhi, (isClosed_closure a e.target).closed p hp q hq hpath⟩

/-- The paths that read a code unit first go through the set that it leads
to. -/
theorem IsClosed.exists_path_cons_iff {set : List Nat} (hset : IsClosed a set) {unit : Nat}
    {word : List Nat} {q : Nat} (hq : a.isRelevant q = true) :
    (∃ p ∈ set, a.Path p (unit :: word) q) ↔
      ∃ p ∈ targetsAt a.closure (edgesOf a set) unit, a.Path p word q := by
  simp only [mem_targetsAt, edgesOf, List.mem_flatMap]
  constructor
  · rintro ⟨p, hp, hpath⟩
    obtain ⟨m, hm, e, he, hlo, hhi, hrest⟩ := hpath.exists_edge
    have hmem : m ∈ set := hset.closed p hp m (Nfa.isRelevant_of_mem_edges he) hm
    obtain ⟨r, hr, hpath⟩ := hrest.exists_mem_closure hq
    exact ⟨r, ⟨e, ⟨m, hmem, he⟩, hlo, hhi, hr⟩, hpath⟩
  · rintro ⟨r, ⟨e, ⟨m, hm, he⟩, hlo, hhi, hr⟩, hpath⟩
    exact ⟨m, hm, .edge he hlo hhi ((Nfa.mem_closure_iff.mp hr).2.append hpath)⟩

/-! ## §2 Searches -/

/-- An edge leads to the set that a range leads to. -/
def Fits (sets : Array (List Nat)) (s : Span) (e : UnitEdge) : Prop :=
  e.lo = s.lo ∧ e.hi = s.hi ∧ sets[e.target]? = some s.targets

/-- The sets found are different closed sets, each with a place for edges. -/
structure Found.IsSound (a : Nfa) (f : Found) : Prop where
  sizes : f.edges.size = f.sets.size
  distinct : f.sets.toList.Nodup
  closed : ∀ set ∈ f.sets, IsClosed a set

/-- From one point of a search to a later one: sets stay in their places, and
so do edges; each set that is added is pending. -/
structure Found.Later (f : Found) (pending : List Nat) (f' : Found) (pending' : List Nat) :
    Prop where
  sets : ∀ (i : Nat) set, f.sets[i]? = some set → f'.sets[i]? = some set
  edges : ∀ i < f.sets.size, f'.edges[i]? = f.edges[i]?
  waits : ∀ i ∈ pending, i ∈ pending'
  added : ∀ i < f'.sets.size, i < f.sets.size ∨ i ∈ pending'
  cost : pending'.length + f.sets.size = pending.length + f'.sets.size

theorem Found.Later.refl (f : Found) (pending : List Nat) : f.Later pending f pending :=
  ⟨fun _ _ h => h, fun _ _ => rfl, fun _ h => h, fun _ h => .inl h, rfl⟩

theorem Found.Later.size_le {f f' : Found} {p p' : List Nat} (h : f.Later p f' p') :
    f.sets.size ≤ f'.sets.size := by
  by_contra hlt
  have hlast := h.sets (f.sets.size - 1) _ (Array.getElem?_eq_getElem (by omega))
  have := (Array.getElem?_eq_some_iff.mp hlast).1
  omega

theorem Found.Later.trans {f f' f'' : Found} {p p' p'' : List Nat} (h : f.Later p f' p')
    (h' : f'.Later p' f'' p'') : f.Later p f'' p'' where
  sets i set hi := h'.sets i set (h.sets i set hi)
  edges i hi := (h'.edges i (Nat.lt_of_lt_of_le hi h.size_le)).trans (h.edges i hi)
  waits i hi := h'.waits i (h.waits i hi)
  added i hi := by
    rcases h'.added i hi with hi | hi
    · exact (h.added i hi).imp_right (h'.waits i)
    · exact .inr hi
  cost := by
    have := h.cost
    have := h'.cost
    omega

theorem Fits.mono {f f' : Found} {p p' : List Nat} (h : f.Later p f' p') {s : Span}
    {e : UnitEdge} (hfits : Fits f.sets s e) : Fits f'.sets s e :=
  ⟨hfits.1, hfits.2.1, h.sets _ _ hfits.2.2⟩

/-- A new set stands behind those that are there. -/
theorem Found.IsSound.push {f : Found} {set : List Nat} (hf : f.IsSound a)
    (hset : IsClosed a set) (hnew : set ∉ f.sets) :
    IsSound a ⟨f.sets.push set, f.edges.push []⟩ := by
  refine ⟨by simp [hf.sizes], ?_, fun other hother => ?_⟩
  · rw [Array.toList_push]
    refine List.nodup_append.mpr ⟨hf.distinct, List.nodup_singleton _, ?_⟩
    rintro other hother _ hlast rfl
    rw [List.mem_singleton.mp hlast] at hother
    exact hnew (Array.mem_toList_iff.mp hother)
  · rcases Array.mem_push.mp hother with hother | rfl
    · exact hf.closed other hother
    · exact hset

theorem Found.later_push {f : Found} (hsizes : f.edges.size = f.sets.size) (pending : List Nat)
    (set : List Nat) :
    f.Later pending ⟨f.sets.push set, f.edges.push []⟩ (f.sets.size :: pending) where
  sets i other hi := by
    have := (Array.getElem?_eq_some_iff.mp hi).1
    simp only [Array.getElem?_push]
    rw [if_neg (by omega), hi]
  edges i hi := by
    simp only [Array.getElem?_push]
    rw [if_neg (by omega)]
  waits i hi := List.mem_cons_of_mem _ hi
  added i hi := by
    simp only [Array.size_push] at hi
    by_cases hlast : i = f.sets.size
    · exact .inr (by simp [hlast])
    · exact .inl (by omega)
  cost := by
    simp only [List.length_cons, Array.size_push]
    omega

/-- Following a range adds an edge that fits it. -/
theorem later_follow {f : Found} {span : Span} (pending : List Nat) (edges : List UnitEdge)
    (hf : f.IsSound a) (hspan : IsClosed a span.targets) :
    ∃ f' pending' e, follow (f, pending, edges) span = (f', pending', edges ++ [e]) ∧
      f'.IsSound a ∧ f.Later pending f' pending' ∧ Fits f'.sets span e := by
  rw [follow]
  cases hfind : f.sets.findIdx? (· == span.targets) with
  | some i =>
    obtain ⟨hi, heq, _⟩ := Array.findIdx?_eq_some_iff_getElem.mp hfind
    have hset : f.sets[i]? = some span.targets := by
      rw [Array.getElem?_eq_getElem hi, eq_of_beq heq]
    exact ⟨f, pending, ⟨span.lo, span.hi, i⟩, rfl, hf, .refl f pending, rfl, rfl, hset⟩
  | none =>
    have hnew : span.targets ∉ f.sets := fun hmem => by
      have := Array.findIdx?_eq_none_iff.mp hfind _ hmem
      simp at this
    exact ⟨_, _, ⟨span.lo, span.hi, f.sets.size⟩, rfl, hf.push hspan hnew,
      Found.later_push hf.sizes pending span.targets, rfl, rfl, by simp⟩

/-- Following ranges one after another adds edges that fit them. -/
theorem later_foldl_follow {f : Found} {spans : List Span} (pending : List Nat)
    (edges : List UnitEdge) (hf : f.IsSound a) (hspans : ∀ s ∈ spans, IsClosed a s.targets) :
    ∃ f' pending' new, spans.foldl follow (f, pending, edges) = (f', pending', edges ++ new) ∧
      f'.IsSound a ∧ f.Later pending f' pending' ∧ List.Forall₂ (Fits f'.sets) spans new := by
  induction spans generalizing f pending edges with
  | nil => exact ⟨f, pending, [], by simp, hf, .refl f pending, .nil⟩
  | cons span spans ih =>
    obtain ⟨hspan, hspans⟩ := List.forall_mem_cons.mp hspans
    obtain ⟨f₁, pending₁, e, hfollow, hf₁, hlater₁, hfits⟩ := later_follow pending edges hf hspan
    obtain ⟨f', pending', new, hfold, hf', hlater, hall⟩ := ih pending₁ (edges ++ [e]) hf₁ hspans
    refine ⟨f', pending', e :: new, ?_, hf', hlater₁.trans hlater, .cons (hfits.mono hlater) hall⟩
    rw [List.foldl_cons, hfollow, hfold, List.append_assoc, List.singleton_append]

/-- The edges of all sets that are not pending fit their ranges. -/
def Found.IsDone (a : Nfa) (f : Found) (pending : List Nat) : Prop :=
  ∀ (i : Nat) set, f.sets[i]? = some set → i ∉ pending → ∃ edges, f.edges[i]? = some edges ∧
    List.Forall₂ (Fits f.sets) (spans a.closure (edgesOf a set)) edges

theorem isClosed_of_mem_spans {set : List Nat} {s : Span}
    (hs : s ∈ spans a.closure (edgesOf a set)) : IsClosed a s.targets := by
  obtain ⟨hascending, hcovers⟩ := spans_spec a.closure (edgesOf a set)
  obtain ⟨heq, _⟩ := (hcovers s.lo s.targets).mp
    ⟨s, hs, Nat.le_refl _, hascending.nonempty s hs, rfl⟩
  exact heq ▸ isClosed_targetsAt a _ _

/-- When a pending set has been looked at, its edges get their place. -/
theorem Found.IsDone.visit {f f' : Found} {i : Nat} {pending pending' : List Nat}
    {new : List UnitEdge} (h : f.IsDone a (i :: pending)) (hf' : f'.IsSound a)
    (hlater : f.Later pending f' pending')
    (hfits : List.Forall₂ (Fits f'.sets)
      (spans a.closure (edgesOf a (f.sets[i]?.getD []))) new) :
    IsDone a { f' with edges := f'.edges.setIfInBounds i new } pending' := by
  intro j set hj hnot
  have hj' : j < f'.sets.size := (Array.getElem?_eq_some_iff.mp hj).1
  have hold := (hlater.added j hj').resolve_right hnot
  have hj₀ : f.sets[j]? = some set := by
    have hat := Array.getElem?_eq_getElem hold
    rw [hat, ← hlater.sets j _ hat]
    exact hj
  by_cases heq : i = j
  · subst heq
    rw [hj₀] at hfits
    refine ⟨new, ?_, hfits⟩
    simp only [Array.getElem?_setIfInBounds_self]
    rw [if_pos (by rw [hf'.sizes]; omega)]
  · have hnot₀ : j ∉ i :: pending := by
      simp only [List.mem_cons, not_or]
      exact ⟨fun h => heq h.symm, fun h => hnot (hlater.waits j h)⟩
    obtain ⟨edges, hedges, hfits⟩ := h j set hj₀ hnot₀
    refine ⟨edges, ?_, hfits.imp fun _ _ h => h.mono hlater⟩
    simp only [Array.getElem?_setIfInBounds]
    rw [if_neg heq, hlater.edges j hold, hedges]

/-! ## §3 Finite sets -/

/-- There are not more sets than subsets of all states. -/
theorem Found.IsSound.size_le {f : Found} (h : f.IsSound a) : f.sets.size ≤ 2 ^ a.size := by
  have hinj : Set.InjOn List.toFinset {set | set ∈ f.sets.toList} := by
    intro x hx y hy heq
    have hx := (h.closed x (Array.mem_toList_iff.mp hx)).sorted
    have hy := (h.closed y (Array.mem_toList_iff.mp hy)).sorted
    have hperm : x.Perm y := (List.perm_ext_iff_of_nodup
      (hx.imp fun hlt => Nat.ne_of_lt hlt) (hy.imp fun hlt => Nat.ne_of_lt hlt)).mpr fun q => by
        rw [← List.mem_toFinset, heq, List.mem_toFinset]
    exact hperm.eq_of_pairwise (fun _ _ _ _ hlt hgt => absurd hgt (Nat.lt_asymm hlt)) hx hy
  have hsubset : (f.sets.toList.map List.toFinset).toFinset ⊆ (Finset.range a.size).powerset := by
    intro s hs
    obtain ⟨set, hset, rfl⟩ := List.mem_map.mp (List.mem_toFinset.mp hs)
    refine Finset.mem_powerset.mpr fun q hq => Finset.mem_range.mpr ?_
    exact Nfa.lt_size_of_isRelevant
      ((h.closed set (Array.mem_toList_iff.mp hset)).relevant q (List.mem_toFinset.mp hq))
  have hcard := Finset.card_le_card hsubset
  rw [List.toFinset_card_of_nodup (h.distinct.map_on hinj), List.length_map,
    Array.length_toList, Finset.card_powerset, Finset.card_range] at hcard
  exact hcard

/-- The search ends, and then all sets have edges. -/
theorem explore_spec {fuel : Nat} {pending : List Nat} {f : Found} (hf : f.IsSound a)
    (hdone : f.IsDone a pending)
    (hfuel : pending.length + 2 ^ a.size ≤ fuel + f.sets.size) :
    ∃ f', explore a a.closure fuel pending f = some f' ∧ f'.IsSound a ∧ f'.IsDone a [] ∧
      ∀ (i : Nat) set, f.sets[i]? = some set → f'.sets[i]? = some set := by
  induction fuel generalizing pending f with
  | zero =>
    have hle := hf.size_le
    obtain rfl : pending = [] := List.length_eq_zero_iff.mp (by omega)
    exact ⟨f, rfl, hf, hdone, fun _ _ h => h⟩
  | succ fuel ih =>
    cases pending with
    | nil => exact ⟨f, rfl, hf, hdone, fun _ _ h => h⟩
    | cons i pending =>
      obtain ⟨f₁, pending₁, new, hfold, hf₁, hlater, hfits⟩ := later_foldl_follow pending [] hf
        fun s (hs : s ∈ spans a.closure (edgesOf a (f.sets[i]?.getD []))) =>
          isClosed_of_mem_spans hs
      have hf₂ : Found.IsSound a { f₁ with edges := f₁.edges.setIfInBounds i new } :=
        ⟨by simp [hf₁.sizes], hf₁.distinct, hf₁.closed⟩
      obtain ⟨f', hexplore, hf', hdone', hsets⟩ := ih hf₂ (hdone.visit hf₁ hlater hfits) (by
        have := hlater.cost
        simp only [List.length_cons] at hfuel this ⊢
        omega)
      refine ⟨f', ?_, hf', hdone', fun j set hj => hsets j set (hlater.sets j set hj)⟩
      rw [explore]
      simp only [edgesOf] at hfold
      simp only [hfold, List.nil_append]
      exact hexplore

/-! ## §4 Runs -/

/-- The automaton of a search that is done. -/
def Found.toDfa (a : Nfa) (f : Found) : Dfa :=
  ⟨f.sets.zipWith (fun set edges => ⟨accepting a set, edges⟩) f.edges⟩

/-- A state has the tokens of its set, and edges that fit the ranges of the
set. -/
theorem Found.IsDone.state_eq {f : Found} (h : f.IsDone a []) {i : Nat} {set : List Nat}
    (hi : f.sets[i]? = some set) : ∃ edges, (f.toDfa a).state i = ⟨accepting a set, edges⟩ ∧
      List.Forall₂ (Fits f.sets) (spans a.closure (edgesOf a set)) edges := by
  obtain ⟨edges, hedges, hfits⟩ := h i set hi List.not_mem_nil
  refine ⟨edges, ?_, hfits⟩
  simp [Dfa.state, toDfa, Array.getElem?_zipWith, hi, hedges]

/-- The edges of a state are not empty, in ascending order and disjoint. -/
theorem Found.IsDone.edges_ascending {f : Found} (h : f.IsDone a []) {i : Nat}
    {set : List Nat} (hi : f.sets[i]? = some set) :
    (∀ e ∈ ((f.toDfa a).state i).edges, e.lo < e.hi) ∧
      ((f.toDfa a).state i).edges.Pairwise fun e e' => e.hi ≤ e'.lo := by
  obtain ⟨edges, hstate, hfits⟩ := h.state_eq hi
  obtain ⟨-, hnonempty, hdisjoint⟩ := (spans_spec a.closure (edgesOf a set)).1
  rw [hstate]
  clear hstate
  generalize spans a.closure (edgesOf a set) = spans at hfits hnonempty hdisjoint
  induction hfits with
  | nil => exact ⟨by simp, .nil⟩
  | @cons s e spans edges hfit hfits ih =>
    obtain ⟨hs, hspans⟩ := List.forall_mem_cons.mp hnonempty
    obtain ⟨hfirst, hrest⟩ := List.pairwise_cons.mp hdisjoint
    obtain ⟨hlt, hpairwise⟩ := ih hspans hrest
    refine ⟨List.forall_mem_cons.mpr ⟨by rw [hfit.1, hfit.2.1]; exact hs, hlt⟩,
      List.pairwise_cons.mpr ⟨fun e' he' => ?_, hpairwise⟩⟩
    obtain ⟨s', hs', hfit'⟩ := exists_of_mem_forall₂ hfits.flip he'
    rw [hfit.2.1, hfit'.1]
    exact hfirst s' hs'

/-- A code unit leads to the set of all states that it leads to, and nowhere if
there are none. -/
theorem Found.IsDone.step?_spec {f : Found} (h : f.IsDone a []) {i : Nat} {set : List Nat}
    (hi : f.sets[i]? = some set) (unit : Nat) :
    match (f.toDfa a).step? i unit with
    | some j => f.sets[j]? = some (targetsAt a.closure (edgesOf a set) unit)
    | none => targetsAt a.closure (edgesOf a set) unit = [] := by
  obtain ⟨edges, hstate, hfits⟩ := h.state_eq hi
  have hcovers := (spans_spec a.closure (edgesOf a set)).2 unit
  rw [Dfa.step?, hstate]
  cases hfind : edges.find? fun e => e.lo ≤ unit && unit < e.hi with
  | some e =>
    have hcover := List.find?_some hfind
    simp only [Bool.and_eq_true, decide_eq_true_eq] at hcover
    obtain ⟨s, hs, hlo, hhi, hset⟩ :=
      exists_of_mem_forall₂ hfits.flip (List.mem_of_find?_eq_some hfind)
    obtain ⟨heq, _⟩ := (hcovers s.targets).mp ⟨s, hs, by omega, by omega, rfl⟩
    simpa [hfind, ← heq] using hset
  | none =>
    simp only [Option.map_none]
    by_contra hne
    obtain ⟨s, hs, hlo, hhi, _⟩ := (hcovers _).mpr ⟨rfl, hne⟩
    obtain ⟨e, he, hlo', hhi', _⟩ := exists_of_mem_forall₂ hfits hs
    have := List.find?_eq_none.mp hfind e he
    simp at this
    omega

/-- A word leads to the set of all relevant states that paths lead to, and
nowhere if there are none. -/
theorem Found.IsDone.run?_spec {f : Found} (h : f.IsDone a []) (hf : f.IsSound a) {i : Nat}
    {set : List Nat} (hi : f.sets[i]? = some set) (word : List Nat) :
    match (f.toDfa a).run? i word with
    | some j => ∃ set', f.sets[j]? = some set' ∧
        ∀ q, q ∈ set' ↔ a.isRelevant q = true ∧ ∃ p ∈ set, a.Path p word q
    | none => ∀ q, a.isRelevant q = true → ¬ ∃ p ∈ set, a.Path p word q := by
  have hset : IsClosed a set := hf.closed set (Array.mem_of_getElem? hi)
  induction word generalizing i set with
  | nil =>
    refine ⟨set, hi, fun q => ⟨fun hq => ⟨hset.relevant q hq, q, hq, .done q⟩, ?_⟩⟩
    rintro ⟨hq, p, hp, hpath⟩
    exact hset.closed p hp q hq hpath
  | cons unit word ih =>
    have hstep := h.step?_spec hi unit
    rw [Dfa.run?]
    cases hnext : (f.toDfa a).step? i unit with
    | some k =>
      rw [hnext] at hstep
      have hrest := ih hstep (isClosed_targetsAt a _ unit)
      simp only [Option.bind_some]
      cases hrun : (f.toDfa a).run? k word with
      | some j =>
        rw [hrun] at hrest
        obtain ⟨set', hj, hmem⟩ := hrest
        refine ⟨set', hj, fun q => (hmem q).trans (and_congr_right fun hq => ?_)⟩
        exact (hset.exists_path_cons_iff hq).symm
      | none =>
        rw [hrun] at hrest
        exact fun q hq => (hset.exists_path_cons_iff hq).not.mpr (hrest q hq)
    | none =>
      rw [hnext] at hstep
      intro q hq
      rw [hset.exists_path_cons_iff hq, show targetsAt _ _ _ = [] from hstep]
      simp

/-! ## §5 Results -/

theorem accepting_eq (a : Nfa) (set : List Nat) : accepting a set =
    ((set.flatMap fun s => (a.state s).accepting).foldl Term.addNew []).mergeSort Term.le := by
  rw [accepting, List.foldl_flatMap]

theorem mem_accepting {set : List Nat} {t : Term} :
    t ∈ accepting a set ↔ ∃ q ∈ set, t ∈ (a.state q).accepting := by
  rw [accepting_eq, List.mem_mergeSort, Term.mem_foldl_addNew]
  simp

/-- The tokens of a set are in order, without repetition. -/
theorem pairwise_accepting (a : Nfa) (set : List Nat) :
    (accepting a set).Pairwise fun t u => t.index < u.index := by
  rw [accepting_eq]
  generalize hfound : (set.flatMap fun s => (a.state s).accepting).foldl Term.addNew [] = found
  have hnodup : (found.mergeSort Term.le).Nodup :=
    (List.mergeSort_perm _ _).nodup_iff.mpr (hfound ▸ Term.nodup_foldl_addNew List.nodup_nil)
  have hsorted := @List.pairwise_mergeSort _ Term.le (by simp [Term.le]; omega)
    (by simp [Term.le]; omega) found
  refine hsorted.imp₂ (fun t u hle hne => ?_) hnodup
  simp only [Term.le, decide_eq_true_eq] at hle
  exact Nat.lt_of_le_of_ne hle fun heq => hne (Term.eq_of_index_eq heq)

end Subset

namespace Dfa

/-- The tokens that a word is read as. -/
def accepted (a : Dfa) (word : List Nat) : List Term :=
  match a.run? 0 word with
  | some i => (a.state i).accepting
  | none => []

theorem state_of_size_le {a : Dfa} {i : Nat} (h : a.size ≤ i) : a.state i = ⟨[], []⟩ := by
  rw [state, Array.getElem?_eq_none h]
  rfl

/-- There is a first state, and no edge is empty or leads out of the
automaton. -/
structure IsSound (a : Dfa) : Prop where
  nonempty : 0 < a.size
  full : ∀ i, ∀ e ∈ (a.state i).edges, e.lo < e.hi
  inside : ∀ i, ∀ e ∈ (a.state i).edges, e.target < a.size

end Dfa

theorem Subset.Found.size_toDfa {a : Nfa} {f : Found} (hf : f.IsSound a) :
    (f.toDfa a).size = f.sets.size := by
  simp [Dfa.size, toDfa, hf.sizes]

theorem Subset.Found.isSound_toDfa {a : Nfa} {f : Found} (hf : f.IsSound a) (hdone : f.IsDone a [])
    (hsize : 0 < f.sets.size) : (f.toDfa a).IsSound := by
  have hedge (i : Nat) (e : UnitEdge) (he : e ∈ ((f.toDfa a).state i).edges) :
      e.lo < e.hi ∧ e.target < (f.toDfa a).size := by
    by_cases hi : i < (f.toDfa a).size
    · rw [size_toDfa hf] at hi
      have hset := Array.getElem?_eq_getElem hi
      obtain ⟨edges, hstate, hfits⟩ := hdone.state_eq hset
      refine ⟨(hdone.edges_ascending hset).1 e he, ?_⟩
      rw [hstate] at he
      obtain ⟨s, _, _, _, htarget⟩ := exists_of_mem_forall₂ hfits.flip he
      rw [size_toDfa hf]
      exact (Array.getElem?_eq_some_iff.mp htarget).1
    · rw [Dfa.state_of_size_le (Nat.le_of_not_lt hi)] at he
      cases he
  refine ⟨?_, fun i e he => (hedge i e he).1, fun i e he => (hedge i e he).2⟩
  rwa [size_toDfa hf]

namespace Nfa

variable (a : Nfa) (start : Nat)

/-- A word is read as a token if a path with it ends where the token does. -/
def Reads (word : List Nat) (token : Term) : Prop :=
  ∃ q, a.Path start word q ∧ token ∈ (a.state q).accepting

variable {a start}

theorem closure_of_size_le (h : a.size ≤ start) : a.closure start = [] := by
  refine List.eq_nil_iff_forall_not_mem.mpr fun q hq => ?_
  obtain ⟨hq, hpath⟩ := mem_closure_iff.mp hq
  cases hpath with
  | done => exact absurd (lt_size_of_isRelevant hq) (by omega)
  | empty hm => simp [state_of_size_le h] at hm

variable (a start)

/-- The search from the closure of the start finds a set for every word. -/
theorem exists_found : ∃ f : Subset.Found,
    Subset.explore a a.closure (1 <<< a.size + 1) [0] ⟨#[a.closure start], #[[]]⟩ = some f ∧
      f.IsSound a ∧ f.IsDone a [] ∧ f.sets[0]? = some (a.closure start) := by
  have hsound : (⟨#[a.closure start], #[[]]⟩ : Subset.Found).IsSound a :=
    ⟨rfl, by simp, by simpa using Subset.isClosed_closure a start⟩
  have hdone : (⟨#[a.closure start], #[[]]⟩ : Subset.Found).IsDone a [0] := by
    intro i set hi hnot
    have := (Array.getElem?_eq_some_iff.mp hi).1
    simp at this hnot
    omega
  have hfuel : [0].length + 2 ^ a.size ≤ 1 <<< a.size + 1 + 1 := by
    simp [Nat.shiftLeft_eq]
    omega
  obtain ⟨f, hexplore, hf, hfdone, hsets⟩ := Subset.explore_spec hsound hdone hfuel
  exact ⟨f, hexplore, hf, hfdone, hsets 0 _ rfl⟩

variable {a start} in
/-- The automaton of a search reads what the one with choices reads. -/
theorem mem_accepted_iff {f : Subset.Found} (hf : f.IsSound a) (hdone : f.IsDone a [])
    (hstart : f.sets[0]? = some (a.closure start)) {word : List Nat} {token : Term} :
    token ∈ (f.toDfa a).accepted word ↔ a.Reads start word token := by
  have hreads : a.Reads start word token ↔ ∃ q, a.isRelevant q = true ∧
      (∃ p ∈ a.closure start, a.Path p word q) ∧ token ∈ (a.state q).accepting := by
    refine exists_congr fun q => ⟨fun ⟨hpath, htoken⟩ => ?_, fun ⟨_, ⟨p, hp, hpath⟩, htoken⟩ => ?_⟩
    · have hq := isRelevant_of_mem_accepting htoken
      exact ⟨hq, hpath.exists_mem_closure hq, htoken⟩
    · exact ⟨(mem_closure_iff.mp hp).2.append hpath, htoken⟩
  have hrun := hdone.run?_spec hf hstart word
  rw [hreads, Dfa.accepted]
  cases hword : (f.toDfa a).run? 0 word with
  | some j =>
    rw [hword] at hrun
    obtain ⟨set, hj, hmem⟩ := hrun
    obtain ⟨edges, hstate, _⟩ := hdone.state_eq hj
    simp only [hstate, Subset.mem_accepting, hmem, and_assoc]
  | none =>
    rw [hword] at hrun
    simp only [List.not_mem_nil, false_iff]
    rintro ⟨q, hq, hpath, _⟩
    exact hrun q hq hpath

theorem compile_eq (terms : TermTable) {f : Subset.Found}
    (h : Subset.explore a a.closure (1 <<< a.size + 1) [0] ⟨#[a.closure start], #[[]]⟩ = some f) :
    a.compile start terms = match ((f.toDfa a).state 0).accepting with
      | [] => .ok (f.toDfa a)
      | token :: _ => .error (.grammar (.emptyToken (terms.name token)) none) := by
  have hclosure : (fun i => ((Array.range a.size).map a.closure)[i]?.getD []) = a.closure := by
    funext i
    by_cases hi : i < a.size
    · simp [hi]
    · simp [hi, closure_of_size_le (Nat.le_of_not_lt hi)]
  simp only [compile]
  rw [hclosure, show _ = a.closure start from congrFun hclosure start, h]
  rfl

variable {a start} in
/-- What comes out has a first state, and no edge is empty or leads out of it. -/
theorem isSound_of_compile {terms : TermTable} {dfa : Dfa}
    (h : a.compile start terms = .ok dfa) : dfa.IsSound := by
  obtain ⟨f, hexplore, hf, hdone, hstart⟩ := a.exists_found start
  rw [a.compile_eq start terms hexplore] at h
  split at h
  next =>
    cases h
    exact Subset.Found.isSound_toDfa hf hdone (Array.getElem?_eq_some_iff.mp hstart).1
  next => cases h

/-- The automaton without choices reads every word as the tokens that the one
with choices reads it as, unless a token can be empty. -/
theorem compile_reads (terms : TermTable) :
    match a.compile start terms with
    | .error e => ∃ token, a.Reads start [] token ∧
        e = .grammar (.emptyToken (terms.name token)) none
    | .ok dfa => (∀ token, ¬ a.Reads start [] token) ∧ 0 < dfa.size ∧
        (∀ i < dfa.size, (∀ e ∈ (dfa.state i).edges, e.lo < e.hi ∧ e.target < dfa.size) ∧
          (dfa.state i).edges.Pairwise fun e e' => e.hi ≤ e'.lo) ∧
        ∀ word, (dfa.accepted word).Pairwise (fun t u => t.index < u.index) ∧
          ∀ token, token ∈ dfa.accepted word ↔ a.Reads start word token := by
  obtain ⟨f, hexplore, hf, hdone, hstart⟩ := a.exists_found start
  have hreads {word : List Nat} {token : Term} :
      token ∈ (f.toDfa a).accepted word ↔ a.Reads start word token :=
    mem_accepted_iff hf hdone hstart
  rw [a.compile_eq start terms hexplore]
  cases hempty : ((f.toDfa a).state 0).accepting with
  | cons token tokens =>
    exact ⟨token, hreads.mp (by simp [Dfa.accepted, Dfa.run?, hempty]), rfl⟩
  | nil =>
    have hpos := (Array.getElem?_eq_some_iff.mp hstart).1
    have hsound := Subset.Found.isSound_toDfa hf hdone hpos
    refine ⟨fun token htoken => ?_, hsound.nonempty, fun i hi => ?_,
      fun word => ⟨?_, fun _ => hreads⟩⟩
    · have := hreads.mpr htoken
      simp [Dfa.accepted, Dfa.run?, hempty] at this
    · rw [Subset.Found.size_toDfa hf] at hi
      exact ⟨fun e he => ⟨hsound.full i e he, hsound.inside i e he⟩,
        (hdone.edges_ascending (Array.getElem?_eq_getElem hi)).2⟩
    · rw [Dfa.accepted]
      cases hrun : (f.toDfa a).run? 0 word with
      | none => exact .nil
      | some j =>
        have hword := hdone.run?_spec hf hstart word
        rw [hrun] at hword
        obtain ⟨set, hj, _⟩ := hword
        obtain ⟨edges, hstate, _⟩ := hdone.state_eq hj
        simp only [hstate]
        exact Subset.pairwise_accepting a set

end Nfa

end GrammarCompiler
