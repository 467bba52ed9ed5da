/-
GrammarCompiler.Proofs.Classifying — the smallest automaton reads every word
as before.

A state that remains mirrors all states of its class. What an edge of one
leads to mirrors what the edge of another leads to, so two runs that begin in
such states stay together, and they stop together.

  §1 Edges  — what is read by edges that were joined.
  §2 Mirrors — states that remain, and those they stand for.
  §3 Runs   — all words, and the states that they lead to.
-/
import GrammarCompiler.Proofs.Refining

namespace GrammarCompiler

namespace Minimize

/-! ## §1 Edges -/

/-- Edges in ascending order that do not overlap. -/
structure InOrder (edges : List UnitEdge) : Prop where
  ranges : ∀ e ∈ edges, e.lo ≤ e.hi
  apart : edges.Pairwise fun e e' => e.hi ≤ e'.lo

/-- Where edges lead on a code unit. -/
def follow? (edges : List UnitEdge) (unit : Nat) : Option Nat :=
  (edges.find? fun e => e.lo ≤ unit && unit < e.hi).map UnitEdge.target

/-- Edges of which those that touch and lead to the same state are joined. -/
def joined (edges : List UnitEdge) : List UnitEdge :=
  edges.foldr consEdge []

/-- Edges that lead to other states. -/
def redirected (place : Nat → Nat) (edges : List UnitEdge) : List UnitEdge :=
  edges.map fun e => { e with target := place e.target }

theorem edges_moveTargets (place : Nat → Nat) (s : DfaState) :
    (moveTargets place s).edges = joined (redirected place s.edges) :=
  rfl

theorem joined_cons (e : UnitEdge) (edges : List UnitEdge) :
    joined (e :: edges) = consEdge e (joined edges) :=
  rfl

theorem InOrder.tail {e : UnitEdge} {edges : List UnitEdge} (h : InOrder (e :: edges)) :
    InOrder edges :=
  ⟨(List.forall_mem_cons.mp h.ranges).2, (List.pairwise_cons.mp h.apart).2⟩

theorem InOrder.redirected {edges : List UnitEdge} (h : InOrder edges) (place : Nat → Nat) :
    InOrder (redirected place edges) := by
  constructor
  · intro e' he'
    obtain ⟨e, he, rfl⟩ := List.mem_map.mp he'
    exact h.ranges e he
  · exact List.pairwise_map.mpr h.apart

theorem follow?_redirected (place : Nat → Nat) (edges : List UnitEdge) (unit : Nat) :
    follow? (redirected place edges) unit = (follow? edges unit).map place := by
  simp [follow?, redirected, List.find?_map, Function.comp_def]

/-- An edge is put in front, or it is joined with the first one. -/
theorem consEdge_cases (e : UnitEdge) (edges : List UnitEdge) :
    consEdge e edges = e :: edges ∨ ∃ next rest, edges = next :: rest ∧ e.hi = next.lo ∧
      e.target = next.target ∧ consEdge e edges = ⟨e.lo, next.hi, e.target⟩ :: rest := by
  cases edges with
  | nil => exact .inl rfl
  | cons next rest =>
    by_cases htouch : e.hi = next.lo ∧ e.target = next.target
    · exact .inr ⟨next, rest, rfl, htouch.1, htouch.2, by simp [consEdge, htouch]⟩
    · exact .inl (by simpa [consEdge] using fun h h' => absurd ⟨h, h'⟩ htouch)

theorem follow?_cons (e : UnitEdge) (edges : List UnitEdge) (unit : Nat) :
    follow? (e :: edges) unit =
      if e.lo ≤ unit ∧ unit < e.hi then some e.target else follow? edges unit := by
  by_cases hunit : e.lo ≤ unit ∧ unit < e.hi
  · simp [follow?, hunit]
  · have hfind : (e.lo ≤ unit && unit < e.hi) = false := by simpa using hunit
    simp [follow?, hfind, hunit]

theorem follow?_consEdge {e : UnitEdge} {edges : List UnitEdge} (he : e.lo ≤ e.hi)
    (hedges : ∀ e ∈ edges, e.lo ≤ e.hi) (unit : Nat) :
    follow? (consEdge e edges) unit = follow? (e :: edges) unit := by
  rcases consEdge_cases e edges with heq | ⟨next, rest, rfl, htouch, htarget, heq⟩
  · rw [heq]
  · have hnext := hedges next List.mem_cons_self
    rw [heq, follow?_cons, follow?_cons, follow?_cons, htarget]
    by_cases hunit : e.lo ≤ unit ∧ unit < e.hi
    · rw [if_pos hunit, if_pos ⟨hunit.1, by simp only; omega⟩]
    · rw [if_neg hunit]
      congr 1
      simp only [eq_iff_iff]
      omega

theorem exists_of_mem_consEdge {e e' : UnitEdge} {edges : List UnitEdge}
    (h : e' ∈ consEdge e edges) : ∃ e'' ∈ e :: edges, e''.lo = e'.lo ∧ e''.target = e'.target := by
  rcases consEdge_cases e edges with heq | ⟨next, rest, rfl, _, _, heq⟩
  · exact ⟨e', heq ▸ h, rfl, rfl⟩
  · rw [heq, List.mem_cons] at h
    rcases h with rfl | h
    · exact ⟨e, List.mem_cons_self, rfl, rfl⟩
    · exact ⟨e', by simp [h], rfl, rfl⟩

theorem exists_mem_consEdge {e e' : UnitEdge} {edges : List UnitEdge}
    (h : e' ∈ e :: edges) : ∃ e'' ∈ consEdge e edges, e''.target = e'.target := by
  rcases consEdge_cases e edges with heq | ⟨next, rest, rfl, _, htarget, heq⟩
  · exact ⟨e', heq ▸ h, rfl⟩
  · rw [heq]
    simp only [List.mem_cons, exists_eq_or_imp] at h ⊢
    rcases h with rfl | rfl | h
    · exact .inl rfl
    · exact .inl htarget
    · exact .inr ⟨e', h, rfl⟩

theorem InOrder.consEdge {e : UnitEdge} {edges : List UnitEdge} (h : InOrder (e :: edges)) :
    InOrder (consEdge e edges) := by
  rcases consEdge_cases e edges with heq | ⟨next, rest, rfl, htouch, _, heq⟩
  · exact heq ▸ h
  · have he := h.ranges e List.mem_cons_self
    have hnext := h.tail.ranges next List.mem_cons_self
    rw [heq]
    constructor
    · refine List.forall_mem_cons.mpr ⟨?_, h.tail.tail.ranges⟩
      simp only
      omega
    · apply List.pairwise_cons.mpr
      exact ⟨(List.pairwise_cons.mp h.tail.apart).1, h.tail.tail.apart⟩

/-- Joining edges makes no new beginnings and leads nowhere else. -/
theorem exists_of_mem_joined {edges : List UnitEdge} {e' : UnitEdge} (h : e' ∈ joined edges) :
    ∃ e ∈ edges, e.lo = e'.lo ∧ e.target = e'.target := by
  induction edges generalizing e' with
  | nil => cases h
  | cons e edges ih =>
    obtain ⟨e₁, he₁, hlo, htarget⟩ := exists_of_mem_consEdge (joined_cons e edges ▸ h)
    rcases List.mem_cons.mp he₁ with rfl | he₁
    · exact ⟨e₁, List.mem_cons_self, hlo, htarget⟩
    · obtain ⟨e₂, he₂, hlo₂, htarget₂⟩ := ih he₁
      exact ⟨e₂, List.mem_cons_of_mem e he₂, hlo₂.trans hlo, htarget₂.trans htarget⟩

theorem exists_mem_joined {edges : List UnitEdge} {e : UnitEdge} (h : e ∈ edges) :
    ∃ e' ∈ joined edges, e'.target = e.target := by
  induction edges with
  | nil => cases h
  | cons first edges ih =>
    rw [joined_cons]
    rcases List.mem_cons.mp h with rfl | h
    · exact exists_mem_consEdge List.mem_cons_self
    · obtain ⟨e₁, he₁, htarget₁⟩ := ih h
      obtain ⟨e₂, he₂, htarget₂⟩ := exists_mem_consEdge (List.mem_cons_of_mem first he₁)
      exact ⟨e₂, he₂, htarget₂.trans htarget₁⟩

theorem InOrder.joined {edges : List UnitEdge} (h : InOrder edges) : InOrder (joined edges) := by
  induction edges with
  | nil => exact h
  | cons e edges ih =>
    have hrest := ih h.tail
    rw [joined_cons]
    apply InOrder.consEdge
    constructor
    · exact List.forall_mem_cons.mpr ⟨h.ranges e List.mem_cons_self, hrest.ranges⟩
    · refine List.pairwise_cons.mpr ⟨?_, hrest.apart⟩
      intro e' he'
      obtain ⟨e'', he'', hlo, _⟩ := exists_of_mem_joined he'
      rw [← hlo]
      exact (List.pairwise_cons.mp h.apart).1 e'' he''

theorem follow?_joined {edges : List UnitEdge} (h : InOrder edges) (unit : Nat) :
    follow? (joined edges) unit = follow? edges unit := by
  induction edges with
  | nil => rfl
  | cons e edges ih =>
    rw [joined_cons, follow?_consEdge (h.ranges e List.mem_cons_self) h.tail.joined.ranges,
      follow?_cons, follow?_cons, ih h.tail]

/-- The lowest code unit of an edge that is not empty leads where the edge
leads. -/
theorem InOrder.follow?_lo {edges : List UnitEdge} (h : InOrder edges) {e : UnitEdge}
    (he : e ∈ edges) (hfull : e.lo < e.hi) : follow? edges e.lo = some e.target := by
  induction edges with
  | nil => cases he
  | cons first edges ih =>
    rw [follow?_cons]
    rcases List.mem_cons.mp he with rfl | he
    · rw [if_pos ⟨Nat.le_refl _, hfull⟩]
    · have hbehind := (List.pairwise_cons.mp h.apart).1 e he
      rw [if_neg (by omega)]
      exact ih h.tail he

/-- Edges that are the same when they are read with classes lead to the same
classes. -/
theorem map_follow?_eq {a : Dfa} {c : Classes} {i j : Nat}
    (h : edgeKey a c i = edgeKey a c j) (unit : Nat) :
    (follow? (a.state i).edges unit).map c.classOf =
      (follow? (a.state j).edges unit).map c.classOf := by
  have hkey (i : Nat) : (follow? (a.state i).edges unit).map c.classOf =
      ((edgeKey a c i).find? fun k => k.1 ≤ unit && unit < k.2.1).map fun k => k.2.2 := by
    simp [follow?, edgeKey, List.find?_map, Function.comp_def]
  rw [hkey, hkey, h]

end Minimize

namespace Dfa

open Minimize

/-! ## §2 Mirrors -/

/-- There is a first state, no edge leads out of the automaton, and the edges of
each state are in order. -/
structure IsOrdered (a : Dfa) : Prop where
  nonempty : 0 < a.size
  inside : ∀ i, ∀ e ∈ (a.state i).edges, e.target < a.size
  inOrder : ∀ i, InOrder (a.state i).edges

theorem step?_eq (a : Dfa) (i unit : Nat) : a.step? i unit = follow? (a.state i).edges unit :=
  rfl

section

variable {a : Dfa} {c : Classes}

/-- The state that remains of a class is in this class. -/
theorem classOf_leader (hclasses : c.ofState = classes a) {i : Nat}
    (hi : i < a.size) : c.classOf (a.leader i) = c.classOf i := by
  have hleader : a.leader i = representative (classes a) i := by simp [leader, hi]
  have hget (j : Nat) : (classes a)[j]?.getD 0 = c.classOf j := by
    rw [Classes.classOf, hclasses]
  rw [hleader, representative, hget]
  cases hfind : (classes a).findIdx? (· == c.classOf i) with
  | none => rfl
  | some j =>
    obtain ⟨hj, hclass, _⟩ := Array.findIdx?_eq_some_iff_getElem.mp hfind
    rw [Option.getD_some, ← hget j, Array.getElem?_eq_getElem hj]
    simpa using hclass

/-- The state in this place of those that remain is in the class of another
state. -/
def Mirrors (a : Dfa) (c : Classes) (k q : Nat) : Prop :=
  ∃ p, a.leaders[k]? = some p ∧ q < a.size ∧ c.classOf p = c.classOf q

theorem size_minimize : a.minimize.size = a.leaders.length := by
  simp [minimize_eq, size]

theorem lt_size_of_mem_leaders {p : Nat} (hp : p ∈ a.leaders) : p < a.size :=
  Walk.lt_size_of_mem_walk (a.sum_edgeWays a.leader) hp

/-- The places of the states that states lead to once only few states
remain. -/
def placeOf (a : Dfa) (i : Nat) : Nat :=
  a.leaders.idxOf (a.leader i)

theorem state_minimize {k p : Nat} (hp : a.leaders[k]? = some p) :
    a.minimize.state k = moveTargets a.placeOf (a.state p) := by
  obtain ⟨hk, rfl⟩ := List.getElem?_eq_some_iff.mp hp
  simp [minimize_eq, state, hk]
  rfl

theorem edges_minimize {k p : Nat} (hp : a.leaders[k]? = some p) :
    (a.minimize.state k).edges = joined (redirected a.placeOf (a.state p).edges) := by
  rw [state_minimize hp, edges_moveTargets]

/-- What an edge of a state that remains leads to remains, too. -/
theorem leader_target_mem (h : a.IsOrdered) {p : Nat} (hp : p ∈ a.leaders) {e : UnitEdge}
    (he : e ∈ (a.state p).edges) : a.leader e.target ∈ a.leaders :=
  Walk.mem_walk_of_hasWay (a.sum_edgeWays a.leader) hp (hasWay_edgeWays.mpr ⟨e, he, rfl⟩)
    (leader_lt (h.inside p e he))

theorem getElem?_placeOf (h : a.IsOrdered) {p : Nat} (hp : p ∈ a.leaders) {e : UnitEdge}
    (he : e ∈ (a.state p).edges) :
    a.leaders[a.placeOf e.target]? = some (a.leader e.target) := by
  have hmem := leader_target_mem h hp he
  rw [placeOf, List.getElem?_eq_getElem (List.idxOf_lt_length_of_mem hmem), List.getElem_idxOf]

theorem Mirrors.accepting_eq (hc : c.IsStable a) {k q : Nat} (h : a.Mirrors c k q) :
    (a.minimize.state k).accepting = (a.state q).accepting := by
  obtain ⟨p, hp, hq, hclass⟩ := h
  rw [state_minimize hp]
  exact hc.agrees p (lt_size_of_mem_leaders (List.mem_of_getElem? hp)) q hq hclass

/-- A code unit leads from states that mirror each other to such states, or it
leads nowhere from both. -/
theorem Mirrors.step (h : a.IsOrdered) (hc : c.IsStable a) (hclasses : c.ofState = classes a)
    {k q : Nat} (hmirrors : a.Mirrors c k q) (unit : Nat) :
    Option.Rel (a.Mirrors c) (a.minimize.step? k unit) (a.step? q unit) := by
  obtain ⟨p, hp, hq, hclass⟩ := hmirrors
  have hmem := List.mem_of_getElem? hp
  have hplt := lt_size_of_mem_leaders hmem
  have htargets := map_follow?_eq (hc.edges p hplt q hq hclass) unit
  rw [step?_eq, step?_eq, edges_minimize hp, follow?_joined ((h.inOrder p).redirected _),
    follow?_redirected]
  cases hstep : follow? (a.state p).edges unit with
  | none =>
    rw [hstep, Option.map_none, eq_comm, Option.map_eq_none_iff] at htargets
    rw [htargets]
    exact .none
  | some p' =>
    rw [hstep, Option.map_some, eq_comm] at htargets
    obtain ⟨q', hq', hclass'⟩ := Option.map_eq_some_iff.mp htargets
    obtain ⟨e, hfind, rfl⟩ := Option.map_eq_some_iff.mp hstep
    obtain ⟨f, hfind', rfl⟩ := Option.map_eq_some_iff.mp hq'
    have he := List.mem_of_find?_eq_some hfind
    have hf := List.mem_of_find?_eq_some hfind'
    rw [hq']
    refine .some ⟨a.leader e.target, getElem?_placeOf h hmem he, h.inside q f hf, ?_⟩
    rw [classOf_leader hclasses (h.inside p e he), hclass']

theorem exists_leaders_eq_cons (h : a.IsOrdered) : ∃ rest, a.leaders = a.leader 0 :: rest := by
  obtain ⟨stops, hwalk⟩ : ∃ stops, walk a.size a.edgeCount (a.edgeWays a.leader) (a.leader 0) =
      ⟨a.leader 0, []⟩ :: stops := Walk.walk_eq_cons _ (leader_lt h.nonempty)
  exact ⟨stops.map Walk.Stop.node, by simp [leaders, hwalk]⟩

theorem mirrors_zero (h : a.IsOrdered) (hclasses : c.ofState = classes a) : a.Mirrors c 0 0 := by
  obtain ⟨rest, hrest⟩ := exists_leaders_eq_cons h
  exact ⟨a.leader 0, by simp [hrest], h.nonempty, classOf_leader hclasses h.nonempty⟩

/-! ## §3 Runs -/

theorem Mirrors.run (h : a.IsOrdered) (hc : c.IsStable a) (hclasses : c.ofState = classes a)
    (word : List Nat) {k q : Nat} (hmirrors : a.Mirrors c k q) :
    Option.Rel (a.Mirrors c) (a.minimize.run? k word) (a.run? q word) := by
  induction word generalizing k q with
  | nil => exact .some hmirrors
  | cons unit word ih =>
    have hstep := hmirrors.step h hc hclasses unit
    simp only [run?]
    generalize a.minimize.step? k unit = next, a.step? q unit = next' at hstep
    cases hstep with
    | none => exact .none
    | some hnext => exact ih hnext

end

/-- There is an edge from one state to the other. -/
def HasEdge (a : Dfa) (i j : Nat) : Prop :=
  ∃ e ∈ (a.state i).edges, e.target = j

/-- Edges of which none is empty are gone along by the words of their lowest
code units. -/
theorem exists_run?_of_hasEdge {a : Dfa} (h : a.IsOrdered)
    (hfull : ∀ i, ∀ e ∈ (a.state i).edges, e.lo < e.hi) {i j : Nat}
    (hleads : Relation.ReflTransGen a.HasEdge i j) : ∃ word, a.run? i word = some j := by
  induction hleads using Relation.ReflTransGen.head_induction_on with
  | refl => exact ⟨[], rfl⟩
  | head hedge _ ih =>
    obtain ⟨e, he, rfl⟩ := hedge
    obtain ⟨word, hword⟩ := ih
    refine ⟨e.lo :: word, ?_⟩
    rw [run?, step?_eq, (h.inOrder _).follow?_lo he (hfull _ e he)]
    exact hword

section

variable {a : Dfa}

theorem hasEdge_minimize {p r : Nat} (hp : p ∈ a.leaders)
    (hway : Walk.HasWay (a.edgeWays a.leader) p r) :
    a.minimize.HasEdge (a.leaders.idxOf p) (a.leaders.idxOf r) := by
  obtain ⟨e, he, rfl⟩ := hasWay_edgeWays.mp hway
  have hplace : a.leaders[a.leaders.idxOf p]? = some p := by
    rw [List.getElem?_eq_getElem (List.idxOf_lt_length_of_mem hp), List.getElem_idxOf]
  have hmem : { e with target := a.placeOf e.target } ∈ redirected a.placeOf (a.state p).edges :=
    List.mem_map_of_mem he
  obtain ⟨e', he', htarget⟩ := exists_mem_joined hmem
  rw [← edges_minimize hplace] at he'
  exact ⟨e', he', htarget⟩

/-- Every state that remains can be reached. -/
theorem hasEdge_reached (h : a.IsOrdered) {k : Nat} (hk : k < a.minimize.size) :
    Relation.ReflTransGen a.minimize.HasEdge 0 k := by
  have hinside (p r : Nat) (hway : Walk.HasWay (a.edgeWays a.leader) p r) : p < a.size := by
    obtain ⟨e, he, _⟩ := hasWay_edgeWays.mp hway
    by_contra hp
    rw [state_of_size_le (by omega)] at he
    cases he
  have hmem (p : Nat) : p ∈ a.leaders ↔
      p < a.size ∧ Relation.ReflTransGen (Walk.HasWay (a.edgeWays a.leader)) (a.leader 0) p :=
    Walk.mem_walk_iff (a.sum_edgeWays a.leader) hinside
  have hplace (p : Nat)
      (hleads : Relation.ReflTransGen (Walk.HasWay (a.edgeWays a.leader)) (a.leader 0) p) :
      Relation.ReflTransGen a.minimize.HasEdge 0 (a.leaders.idxOf p) := by
    induction hleads with
    | refl =>
      obtain ⟨rest, hrest⟩ := exists_leaders_eq_cons h
      rw [hrest, List.idxOf_cons_self]
    | tail hleads hway ih =>
      have hp := (hmem _).mpr ⟨hinside _ _ hway, hleads⟩
      exact ih.tail (hasEdge_minimize hp hway)
  rw [size_minimize] at hk
  have hnodup : a.leaders.Nodup := Walk.nodup_walk (a.sum_edgeWays a.leader)
  rw [← hnodup.idxOf_getElem k hk]
  exact hplace _ ((hmem _).mp (List.getElem_mem hk)).2

theorem isOrdered_minimize (h : a.IsOrdered) : a.minimize.IsOrdered := by
  constructor
  · obtain ⟨rest, hrest⟩ := exists_leaders_eq_cons h
    rw [size_minimize, hrest]
    exact Nat.succ_pos _
  · intro k e he
    rw [size_minimize]
    cases hp : a.leaders[k]? with
    | none =>
      rw [state_of_size_le (size_minimize ▸ List.getElem?_eq_none_iff.mp hp)] at he
      cases he
    | some p =>
      rw [edges_minimize hp] at he
      obtain ⟨e', he', _, htarget⟩ := exists_of_mem_joined he
      obtain ⟨e₀, he₀, rfl⟩ := List.mem_map.mp he'
      rw [← htarget]
      exact List.idxOf_lt_length_of_mem (leader_target_mem h (List.mem_of_getElem? hp) he₀)
  · intro k
    cases hp : a.leaders[k]? with
    | none =>
      rw [state_of_size_le (size_minimize ▸ List.getElem?_eq_none_iff.mp hp)]
      exact ⟨by simp, .nil⟩
    | some p =>
      rw [edges_minimize hp]
      exact ((h.inOrder p).redirected _).joined

/-- The same tokens end after a word. -/
theorem map_accepting_minimize (h : a.IsOrdered) (word : List Nat) :
    (a.minimize.run? 0 word).map (fun i => (a.minimize.state i).accepting) =
      (a.run? 0 word).map fun i => (a.state i).accepting := by
  obtain ⟨c, hc, hclasses⟩ := exists_isStable h.nonempty h.inside
  have hrun := (mirrors_zero h hclasses).run h hc hclasses word
  generalize a.minimize.run? 0 word = i, a.run? 0 word = j at hrun
  cases hrun with
  | none => rfl
  | some hmirrors => simp [hmirrors.accepting_eq hc]

/-- Making the smallest automaton ends: classes are split until their number
stays the same, and what remains is visited, both without a limit that could be
met. For every word the smallest automaton stops where the other one stops, and
after a word that both read the same tokens end. All of its states can be reached,
and their edges are in order. -/
theorem minimize_reads (h : a.IsOrdered) :
    (∃ last, Loops a (Classes.start a) last ∧ last.ofState = classes a) ∧
      Walk.Visits (a.edgeWays a.leader) (Array.replicate a.size false) [⟨a.leader 0, []⟩]
        (walk a.size a.edgeCount (a.edgeWays a.leader) (a.leader 0)) ∧
      (∀ word, (a.minimize.run? 0 word).map (fun i => (a.minimize.state i).accepting) =
        (a.run? 0 word).map fun i => (a.state i).accepting) ∧
      (∀ i < a.minimize.size, Relation.ReflTransGen a.minimize.HasEdge 0 i) ∧
      ((∀ i, ∀ e ∈ (a.state i).edges, e.lo < e.hi) →
        ∀ i < a.minimize.size, ∃ word, a.minimize.run? 0 word = some i) ∧
      a.minimize.IsOrdered := by
  have hordered := isOrdered_minimize h
  refine ⟨loops_classes h.nonempty, Walk.visits_walk (a.sum_edgeWays a.leader),
    map_accepting_minimize h, fun i hi => hasEdge_reached h hi, ?_, hordered⟩
  intro hfull i hi
  have hsound : a.minimize.IsSound := isSound_minimize ⟨h.nonempty, hfull, h.inside⟩
  exact exists_run?_of_hasEdge hordered hsound.full (hasEdge_reached h hi)

end

/-- It is enough to look at the states that are there. -/
theorem isOrdered_of_states {a : Dfa} (hsize : 0 < a.size)
    (hstates : ∀ s ∈ a.states, (∀ e ∈ s.edges, e.target < a.size ∧ e.lo ≤ e.hi) ∧
      s.edges.Pairwise fun e e' => e.hi ≤ e'.lo) : a.IsOrdered := by
  have hstate (i : Nat) : (∀ e ∈ (a.state i).edges, e.target < a.size ∧ e.lo ≤ e.hi) ∧
      (a.state i).edges.Pairwise fun e e' => e.hi ≤ e'.lo := by
    by_cases hi : i < a.size
    · exact hstates _ (Array.mem_of_getElem? (getElem?_states hi))
    · simp [state_of_size_le (Nat.le_of_not_lt hi)]
  constructor
  · exact hsize
  · intro i e he
    exact ((hstate i).1 e he).1
  · intro i
    exact ⟨fun e he => ((hstate i).1 e he).2, (hstate i).2⟩

/-- Two states that are alike, with edges to them that touch. -/
def twoWays : Dfa :=
  ⟨#[⟨[], [⟨0x61, 0x62, 1⟩, ⟨0x62, 0x63, 2⟩]⟩, ⟨[], [⟨0x64, 0x65, 3⟩]⟩,
    ⟨[], [⟨0x64, 0x65, 3⟩]⟩, ⟨[⟨2⟩], []⟩]⟩

/-- One of the two states remains, and all words are read as before. -/
theorem minimize_reads_twoWays :
    twoWays.IsOrdered ∧ twoWays.minimize.size = 3 ∧
      (twoWays.minimize.state 0).edges = [⟨0x61, 0x63, 1⟩] ∧
      (∃ last, Loops twoWays (Classes.start twoWays) last ∧ last.ofState = classes twoWays) ∧
      (∀ word, (twoWays.minimize.run? 0 word).map (fun i => (twoWays.minimize.state i).accepting) =
        (twoWays.run? 0 word).map fun i => (twoWays.state i).accepting) ∧
      ∀ i < twoWays.minimize.size, ∃ word, twoWays.minimize.run? 0 word = some i := by
  have hordered : twoWays.IsOrdered := isOrdered_of_states (by decide) (by decide)
  have hfull (i : Nat) : ∀ e ∈ (twoWays.state i).edges, e.lo < e.hi := by
    by_cases hi : i < twoWays.size
    · have hstates : ∀ s ∈ twoWays.states, ∀ e ∈ s.edges, e.lo < e.hi := by decide
      exact hstates _ (Array.mem_of_getElem? (getElem?_states hi))
    · simp [state_of_size_le (Nat.le_of_not_lt hi)]
  obtain ⟨hloops, _, hreads, _, hwords, _⟩ := minimize_reads hordered
  exact ⟨hordered, by decide +kernel, by decide +kernel, hloops, hreads, hwords hfull⟩

end Dfa

/-- The edges of what tokens are compiled to are in order. -/
theorem Nfa.isOrdered_of_compile {a : Nfa} {start : Nat} {terms : TermTable} {dfa : Dfa}
    (h : a.compile start terms = .ok dfa) : dfa.IsOrdered := by
  have hreads := @Nfa.compile_reads a start terms
  rw [h] at hreads
  obtain ⟨_, hsize, hedges, _⟩ := hreads
  refine Dfa.isOrdered_of_states hsize fun s hs => ?_
  obtain ⟨i, hi, rfl⟩ := Array.mem_iff_getElem.mp hs
  have hstate : dfa.state i = dfa.states[i] := by simp [Dfa.state, hi]
  obtain ⟨hranges, hapart⟩ := hstate ▸ hedges i hi
  exact ⟨fun e he => ⟨(hranges e he).2, Nat.le_of_lt (hranges e he).1⟩, hapart⟩

end GrammarCompiler
