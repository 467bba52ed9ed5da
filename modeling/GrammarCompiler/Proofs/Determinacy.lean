/-
GrammarCompiler.Proofs.Determinacy — shrinking an automaton brings no choice
into it.

Without ambiguity marks, each state of a full automaton has at most one action
for a terminal and at most one goto for a symbol. States only share a cluster in
the end if they do the same for each symbol that both of them know, so the state
that a cluster becomes has no choice either. Merging identical states keeps the
actions and gotos of one state in each place.

  §1 Loops      — passes over clusters, however many it takes.
  §2 Partitions — each state is in one cluster.
  §3 Gathering  — what the state of a cluster has of its members.
  §4 Rounds     — what merging identical states keeps.
  §5 Shrinking  — all of it together.
-/
import GrammarCompiler.Proofs.Borrowing
import GrammarCompiler.Proofs.StateMerging

namespace GrammarCompiler

namespace Collapse

open Automaton (state)

variable {g : Grammar} {states : Automaton} {c c' : Clustering}

/-! ## §1 Loops -/

/-- One pass over the clusters. Also tells whether a state had to move. -/
def pass (g : Grammar) (states : Automaton) (c : Clustering) : Clustering × Bool :=
  (List.range c.clusters.size).foldl (split g states) (c, false)

/-- Passes that are repeated for as long as states move, without a limit on their
number, lead from one clustering to another. -/
inductive Loops (g : Grammar) (states : Automaton) : Clustering → Clustering → Prop where
  | last {c c' : Clustering} (rests : pass g states c = (c', false)) : Loops g states c c'
  | again {c c' last : Clustering} (moves : pass g states c = (c', true))
      (rest : Loops g states c' last) : Loops g states c last

/-- The limit on the number of passes is never met. -/
theorem loops_passes {fuel : Nat} (h : Arranged states c none c.members)
    (hfuel : c.mapping.size * c.mapping.size < fuel + c.rank) :
    Loops g states c (passes g states fuel c).1 := by
  induction fuel generalizing c with
  | zero =>
    have := h.rank_le
    omega
  | succ fuel ih =>
    obtain ⟨c', moved, heq, hmoves, hcases⟩ := moves_foldl_split (g := g)
      (List.range c.clusters.size) false (fun i hi => List.mem_range.mp hi) h
    unfold passes
    simp only [heq]
    rcases hcases with ⟨_, rfl, _⟩ | ⟨rfl, hrank⟩
    · exact .last heq
    · refine .again heq (ih hmoves.arranged ?_)
      rw [hmoves.mapping_size]
      omega

theorem loops_clustering (g : Grammar) (states : Automaton) :
    Loops g states (states.foldl (assign states) ⟨#[], #[]⟩) (clustering g states) := by
  obtain ⟨hcores, hsize⟩ := byCore_foldl states
  refine loops_passes hcores.arranged ?_
  rw [hsize]
  omega

/-! ## §2 Partitions -/

/-- Each of `n` states is in one cluster, and no cluster is empty. -/
structure Clustering.IsPartition (c : Clustering) (n : Nat) : Prop where
  inside : ∀ p, ∀ i ∈ c.members p, p < c.clusters.size ∧ i < n
  nonempty : ∀ p < c.clusters.size, c.members p ≠ []
  nodup : ∀ p, (c.members p).Nodup
  covers : ∀ i < n, ∃! p, i ∈ c.members p

theorem isPartition_clustering (g : Grammar) (states : Automaton) :
    (clustering g states).IsPartition states.size := by
  have h := (settled_clustering g states).arranged
  refine ⟨fun p i hi => ⟨h.lt_size hi, (mem_members_iff.mp hi).1⟩, fun p => (h.taken p).mpr,
    h.nodup, fun i hi => ⟨place g states i, mem_members_iff.mpr ⟨hi, rfl⟩, fun p hp => ?_⟩⟩
  exact (mem_members_iff.mp hp).2.symm

/-- States of one cluster agree on all but lookahead. -/
theorem sameCore_of_members {p i j : Nat} (hi : i ∈ (clustering g states).members p)
    (hj : j ∈ (clustering g states).members p) (hne : i ≠ j) :
    sameCore (state states i) (state states j) = true :=
  ((settled_clustering g states).arranged.cores p p i j hi hj rfl).resolve_left hne

end Collapse

/-! ## §3 Gathering -/

/-- `s.Gathers g f members`: what a state does is what its members do, where
targets are named by `f`. Nothing is added and nothing is lost; of actions that do
the same one is there. -/
structure State.Gathers (g : Grammar) (f : Nat → Nat) (s : State) (members : List State) :
    Prop where
  actions : ∀ y ∈ s.actions, ∃ m ∈ members, ∃ x ∈ m.actions, y = x.map f
  keeps : ∀ m ∈ members, ∀ x ∈ m.actions, ∃ y ∈ s.actions, y.same g (x.map f) = true
  gotos : ∀ y, y ∈ s.gotos ↔ ∃ m ∈ members, ∃ x ∈ m.gotos, y = x.map f

theorem Action.term_map (f : Nat → Nat) (x : Action) : (x.map f).term = x.term := by
  cases x <;> rfl

theorem Action.deed_map (g : Grammar) (f : Nat → Nat) (x : Action) :
    (x.map f).deed g id = x.deed g f := by
  cases x <;> rfl

/-- No two actions do the same, and no goto is there twice. -/
structure State.HasNoCopies (g : Grammar) (s : State) : Prop where
  actions : (s.actions.map (Action.deed g id)).Nodup
  gotos : s.gotos.Nodup

namespace Collapse

open Automaton (state)

variable {g : Grammar} {f : Nat → Nat} {states : Automaton}

theorem mem_addNew {actions : List Action} {known : Array Action} {y : Action}
    (hy : y ∈ (actions.foldl (fun known a => if known.any fun b => b.same g a then known
      else known.push a) known).toList) : y ∈ known.toList ∨ y ∈ actions := by
  induction actions generalizing known with
  | nil => exact .inl hy
  | cons a actions ih =>
    rw [List.foldl_cons] at hy
    rcases ih hy with hy | hy
    · split at hy
      · exact .inl hy
      · rw [Array.toList_push, List.mem_append, List.mem_singleton] at hy
        rcases hy with hy | rfl
        · exact .inl hy
        · exact .inr (.head _)
    · exact .inr (.tail _ hy)

theorem nodup_addNew {actions : List Action} {known : Array Action}
    (h : (known.toList.map (Action.deed g id)).Nodup) :
    ((actions.foldl (fun known a => if known.any fun b => b.same g a then known
      else known.push a) known).toList.map (Action.deed g id)).Nodup := by
  induction actions generalizing known with
  | nil => exact h
  | cons a actions ih =>
    rw [List.foldl_cons]
    refine ih ?_
    split
    · exact h
    · rename_i hnew
      rw [Array.toList_push, List.map_append, List.map_singleton, List.nodup_append]
      refine ⟨h, List.nodup_singleton _, fun d hd d' hd' heq => hnew ?_⟩
      obtain ⟨b, hb, rfl⟩ := List.mem_map.mp hd
      rw [List.mem_singleton.mp hd'] at heq
      rw [← Array.any_toList, List.any_eq_true]
      exact ⟨b, hb, Action.same_iff.mpr heq⟩

theorem nodup_addGotos {gotos known : List Goto} (h : known.Nodup) :
    (gotos.foldl (fun known a => if known.contains a then known else known ++ [a])
      known).Nodup := by
  induction gotos generalizing known with
  | nil => exact h
  | cons a gotos ih =>
    rw [List.foldl_cons]
    refine ih ?_
    split
    · exact h
    · rename_i hnew
      refine List.nodup_append.mpr ⟨h, List.nodup_singleton _, fun x hx y hy heq => hnew ?_⟩
      rw [List.mem_singleton.mp hy] at heq
      simpa [heq] using hx

/-- Each step of merging keeps copies out. -/
theorem hasNoCopies_absorb {into s : State} (h : into.HasNoCopies g) :
    (absorb g f into s).HasNoCopies g where
  actions := nodup_addNew h.actions
  gotos := nodup_addGotos h.gotos

theorem hasNoCopies_mergeStates (members : List State) :
    (mergeStates g f members).HasNoCopies g := by
  have hfoldl : ∀ into : State, into.HasNoCopies g →
      (members.foldl (absorb g f) into).HasNoCopies g := by
    induction members with
    | nil => exact fun into h => h
    | cons s members ih => exact fun into h => ih _ (hasNoCopies_absorb h)
  have hmerged := hfoldl { members.headD default with items := [], actions := [], gotos := [] }
    ⟨List.nodup_nil, List.nodup_nil⟩
  exact ⟨(((List.mergeSort_perm _ _).map _).nodup_iff).mpr hmerged.actions,
    ((List.mergeSort_perm _ _).nodup_iff).mpr hmerged.gotos⟩

/-- The actions of merged states come from their members. -/
theorem mem_actions_foldl_absorb {members : List State} {into : State} {y : Action}
    (hy : y ∈ (members.foldl (absorb g f) into).actions) :
    y ∈ into.actions ∨ ∃ m ∈ members, ∃ x ∈ m.actions, y = x.map f := by
  induction members generalizing into with
  | nil => exact .inl hy
  | cons s members ih =>
    rcases ih hy with h | ⟨m, hm, hx⟩
    · rcases mem_addNew h with h | h
      · exact .inl (by simpa using h)
      · obtain ⟨x, hx, rfl⟩ := List.mem_map.mp h
        exact .inr ⟨s, .head _, x, hx, rfl⟩
    · exact .inr ⟨m, .tail _ hm, hx⟩

/-- What merged states do is what the state that they become does. -/
theorem gathers_mergeStates (members : List State) :
    (mergeStates g f members).Gathers g f members where
  actions _ hy := (mem_actions_foldl_absorb (List.mem_mergeSort.mp hy)).resolve_left (by simp)
  keeps m hm x hx := by
    have hdeed : (x.map f).deed g id ∈ m.deeds g f := by
      cases x with
      | shift t q => exact State.shift_mem_deeds.mpr ⟨q, hx, rfl⟩
      | reduce t r => exact State.reduce_mem_deeds.mpr ⟨r, hx, rfl, rfl, rfl⟩
    have hmerged := mem_deeds_mergeStates.mpr ⟨m, hm, hdeed⟩
    rw [State.deeds, List.mem_append] at hmerged
    rcases hmerged with h | h
    · obtain ⟨y, hy, heq⟩ := List.mem_map.mp h
      exact ⟨y, hy, Action.same_iff.mpr heq⟩
    · obtain ⟨y, _, heq⟩ := List.mem_map.mp h
      cases x <;> cases heq
  gotos y := by
    have hdeed : ∀ (s : State) (f : Nat → Nat) (y : Goto), Deed.goto y.term y.target ∈ s.deeds g f ↔
        ∃ x ∈ s.gotos, y = x.map f := by
      intro s f y
      rw [State.goto_mem_deeds]
      constructor
      · rintro ⟨p, hp, heq⟩
        exact ⟨_, hp, by rw [Goto.map, heq]⟩
      · rintro ⟨x, hx, rfl⟩
        exact ⟨x.target, hx, rfl⟩
    have hid : y ∈ (mergeStates g f members).gotos ↔
        ∃ x ∈ (mergeStates g f members).gotos, y = x.map id := by
      constructor
      · exact fun h => ⟨y, h, rfl⟩
      · rintro ⟨x, hx, rfl⟩
        exact hx
    rw [hid, ← hdeed, mem_deeds_mergeStates]
    simp only [hdeed]

/-- The states of a cluster. -/
def membersOf (g : Grammar) (states : Automaton) (p : Nat) : List State :=
  ((clustering g states).members p).map (state states)

theorem filterMap_members (p : Nat) :
    ((clustering g states).members p).filterMap (fun m => states[m]?) = membersOf g states p := by
  unfold membersOf
  rw [List.filterMap_eq_map_iff_forall_eq_some.mpr]
  intro i hi
  have hlt := (mem_members_iff.mp hi).1
  simp [state, hlt]

theorem gathers_collapse {p : Nat} (hp : p < (collapse g states).1.size) :
    ((collapse g states).1.state p).Gathers g (place g states) (membersOf g states p) := by
  rw [state_collapse (by simpa [collapse, clustering] using hp), filterMap_members]
  exact gathers_mergeStates _

theorem hasNoCopies_collapse (p : Nat) : ((collapse g states).1.state p).HasNoCopies g := by
  by_cases hp : p < (collapse g states).1.size
  · rw [state_collapse (by simpa [collapse, clustering] using hp)]
    exact hasNoCopies_mergeStates _
  · rw [Automaton.state_eq_default (Nat.le_of_not_lt hp)]
    exact ⟨List.nodup_nil, List.nodup_nil⟩

/-- A state that a member belongs to is that of its place. -/
theorem exists_of_mem_membersOf {p : Nat} {m : State} (hm : m ∈ membersOf g states p) :
    ∃ i < states.size, place g states i = p ∧ m = state states i := by
  obtain ⟨i, hi, rfl⟩ := List.mem_map.mp hm
  obtain ⟨hlt, hplace⟩ := mem_members_iff.mp hi
  exact ⟨i, hlt, hplace, rfl⟩

theorem isClosed_collapse (hclosed : states.IsClosed) : (collapse g states).1.IsClosed where
  shifts {p q t} hq := by
    have hp := Automaton.lt_size_of_mem_actions hq
    obtain ⟨m, hm, x, hx, heq⟩ := (gathers_collapse hp).actions _ hq
    obtain ⟨i, _, _, rfl⟩ := exists_of_mem_membersOf hm
    cases x with
    | shift t' q' =>
      cases heq
      exact (collapsed_collapse hclosed).inside q' (hclosed.shifts hx)
    | reduce t' r => cases heq
  gotos {p y} hy := by
    have hp := Automaton.lt_size_of_mem_gotos hy
    obtain ⟨m, hm, x, hx, rfl⟩ := ((gathers_collapse hp).gotos _).mp hy
    obtain ⟨i, _, _, rfl⟩ := exists_of_mem_membersOf hm
    exact (collapsed_collapse hclosed).inside x.target (hclosed.gotos hx)

/-- A goto of the state of a cluster is a goto of one of its states. -/
theorem exists_goto_of_collapse {p : Nat} {y : Goto}
    (hy : y ∈ ((collapse g states).1.state p).gotos) :
    ∃ i < states.size, place g states i = p ∧
      ∃ x ∈ (state states i).gotos, y = x.map (place g states) := by
  have hp := Automaton.lt_size_of_mem_gotos hy
  obtain ⟨m, hm, x, hx, rfl⟩ := ((gathers_collapse hp).gotos _).mp hy
  obtain ⟨i, hi, hplace, rfl⟩ := exists_of_mem_membersOf hm
  exact ⟨i, hi, hplace, x, hx, rfl⟩

/-- Where states have one goto for a symbol, the states of their clusters have one. -/
theorem nodup_gotos_collapse (hclosed : states.IsClosed)
    (h : ∀ i, ((state states i).gotos.map Goto.term).Nodup) (p : Nat) :
    (((collapse g states).1.state p).gotos.map Goto.term).Nodup := by
  have hc := collapsed_collapse (g := g) hclosed
  refine (List.nodup_map_iff_inj_on (hasNoCopies_collapse p).gotos).mpr ?_
  intro y hy y' hy' hterm
  obtain ⟨i, hi, hplace, ⟨t, q⟩, hx, rfl⟩ := exists_goto_of_collapse hy
  obtain ⟨j, hj, hplace', ⟨t', q'⟩, hx', rfl⟩ := exists_goto_of_collapse hy'
  obtain rfl : t = t' := hterm
  have htarget := hc.target_eq h hi hj (hplace.trans hplace'.symm) hx hx'
  rw [Goto.map, Goto.map, htarget]

/-- Where states have no choice, the states of their clusters have none. -/
theorem determined_collapse (hclosed : states.IsClosed) (h : states.Determined) :
    (collapse g states).1.Determined := by
  have hc := collapsed_collapse (g := g) hclosed
  refine ⟨fun p => ?_, nodup_gotos_collapse hclosed h.gotos⟩
  -- Actions for one terminal come from members that do the same for it.
  refine (List.nodup_map_iff_inj_on (hasNoCopies_collapse p).actions.of_map).mpr ?_
  intro y hy y' hy' hterm
  have hp := Automaton.lt_size_of_mem_actions hy
  obtain ⟨m, hm, x, hx, rfl⟩ := (gathers_collapse hp).actions _ hy
  obtain ⟨m', hm', x', hx', rfl⟩ := (gathers_collapse hp).actions _ hy'
  obtain ⟨i, hi, hplace, rfl⟩ := exists_of_mem_membersOf hm
  obtain ⟨j, hj, hplace', rfl⟩ := exists_of_mem_membersOf hm'
  have hterm : x.term = x'.term := by simpa [Action.term_map] using hterm
  have hdeed := hc.deed_eq h.actions hi hj (hplace.trans hplace'.symm) hx hx' hterm
  refine List.inj_on_of_nodup_map (hasNoCopies_collapse p).actions hy hy' ?_
  rw [Action.deed_map, Action.deed_map]
  exact hdeed

end Collapse

/-! ## §4 Rounds -/

namespace Identical

open Automaton (state)

variable {g : Grammar} {states : Automaton}

/-- The first state that is kept in a place gives it its actions and gotos. -/
theorem KeptFrom.exists_source {n : Nat} {k : Kept} (h : KeptFrom g states n k) {p : Nat}
    (hp : p < k.states.size) : ∃ i, (state k.states p).actions = (state states i).actions ∧
      (state k.states p).gotos = (state states i).gotos := by
  classical
  have hplace := h.numbered.onto p hp
  exact ⟨Nat.find hplace, h.first _ p (Nat.find_spec hplace) fun j hj => Nat.find_min hplace hj⟩

/-- After a round, each state has the actions and gotos of one before, with targets moved. -/
theorem exists_source_round (states : Automaton) (p : Nat) :
    let k := states.foldl (keep g) ⟨#[], #[]⟩
    let mapping (i : Nat) := k.mapping[i]?.getD i
    let next : Automaton := k.states.map (moveTargets g mapping)
    ∃ i, (state next p).actions.Perm ((state states i).actions.map (.map mapping)) ∧
      (state next p).gotos.Perm ((state states i).gotos.map (.map mapping)) := by
  intro k mapping next
  have hkept : KeptFrom g states states.size k := keptFrom_foldl g states
  have hsize : next.size = k.states.size := Array.size_map
  by_cases hp : p < k.states.size
  · obtain ⟨i, hactions, hgotos⟩ := hkept.exists_source hp
    have hstate : state next p = moveTargets g mapping (state k.states p) := state_map hp
    refine ⟨i, ?_⟩
    rw [hstate, ← hactions, ← hgotos]
    exact ⟨List.mergeSort_perm _ _, List.mergeSort_perm _ _⟩
  · rw [Automaton.state_eq_default (Nat.le_of_not_lt (hsize ▸ hp))]
    refine ⟨states.size, ?_⟩
    rw [Automaton.state_eq_default (Nat.le_refl _)]
    exact ⟨.nil, .nil⟩

/-- A round keeps automata determined and closed. -/
theorem determined_round (hclosed : states.IsClosed) (h : states.Determined) :
    let k := states.foldl (keep g) ⟨#[], #[]⟩
    let next : Automaton := k.states.map (moveTargets g fun i => k.mapping[i]?.getD i)
    next.Determined ∧ next.IsClosed := by
  intro k next
  have hkept : KeptFrom g states states.size k := keptFrom_foldl g states
  let mapping (i : Nat) := k.mapping[i]?.getD i
  have hsize : next.size = k.states.size := Array.size_map
  have hinside : ∀ i < states.size, mapping i < next.size := fun i hi =>
    hsize ▸ hkept.numbered.inside i _ (hkept.place_iff.mpr ⟨hi, rfl⟩)
  have hsource := exists_source_round (g := g) states
  refine ⟨⟨fun p => ?_, fun p => ?_⟩, ⟨fun {p q t} hq => ?_, fun {p x} hx => ?_⟩⟩
  · obtain ⟨i, hactions, _⟩ := hsource p
    rw [State.terms, (hactions.map _).nodup_iff, List.map_map]
    exact (List.map_congr_left fun a _ => Action.term_map mapping a) ▸ h.actions i
  · obtain ⟨i, _, hgotos⟩ := hsource p
    rw [(hgotos.map _).nodup_iff, List.map_map]
    exact h.gotos i
  · obtain ⟨i, hactions, _⟩ := hsource p
    obtain ⟨x, hx, heq⟩ := List.mem_map.mp (hactions.mem_iff.mp hq)
    cases x with
    | shift t' q' =>
      cases heq
      exact hinside q' (hclosed.shifts hx)
    | reduce t' r => cases heq
  · obtain ⟨i, _, hgotos⟩ := hsource p
    obtain ⟨y, hy, rfl⟩ := List.mem_map.mp (hgotos.mem_iff.mp hx)
    exact hinside y.target (hclosed.gotos hy)

theorem determined_rounds (fuel : Nat) {states : Automaton} (hclosed : states.IsClosed)
    (h : states.Determined) :
    (rounds g fuel states).Determined ∧ (rounds g fuel states).IsClosed := by
  induction fuel generalizing states with
  | zero => exact ⟨h, hclosed⟩
  | succ fuel ih =>
    unfold rounds
    dsimp only
    split
    · exact ⟨h, hclosed⟩
    · obtain ⟨hnext, hnext'⟩ := determined_round (g := g) hclosed h
      exact ih hnext' hnext

/-- In the end, each state has gotos for the symbols that one in the beginning has them for. -/
theorem exists_gotos_rounds (fuel : Nat) (states : Automaton) (p : Nat) :
    ∃ i, ((state (rounds g fuel states) p).gotos.map Goto.term).Perm
      ((state states i).gotos.map Goto.term) := by
  induction fuel generalizing states p with
  | zero => exact ⟨p, .refl _⟩
  | succ fuel ih =>
    unfold rounds
    dsimp only
    split
    · exact ⟨p, .refl _⟩
    · obtain ⟨q, hlater⟩ := ih _ p
      obtain ⟨i, _, hgotos⟩ := exists_source_round (g := g) states q
      refine ⟨i, hlater.trans ?_⟩
      simpa [Function.comp_def, Goto.map] using hgotos.map Goto.term

end Identical

/-! ## §5 Shrinking -/

/-- Groups of tokens make no difference to whether there is a choice. -/
theorem Automaton.Regroups.determined {a a' : Automaton} (h : a.Regroups a')
    (ha : a.Determined) : a'.Determined where
  actions i := by
    obtain ⟨_, hi⟩ := h.state_eq i
    exact hi ▸ ha.actions i
  gotos i := by
    obtain ⟨_, hi⟩ := h.state_eq i
    exact hi ▸ ha.gotos i

/-- In a full automaton of a grammar that allows no ambiguities, each state has at most one
action for a terminal. Collapsing it, with whatever groups its states have found, comes to an
end with each state in one cluster, where it only meets states that are no entries either and
that agree with it on tokens, on what is skipped and on dotted rules. The state of a cluster has
the actions and gotos of its members, no more and no less, and still at most one action for a
terminal and one goto for a symbol, and these lead to states that are there. So it is after
identical states have been merged. -/
theorem collapse_isSafe {g : Grammar} {table : FirstTable} {starts : List Term} {noSkip : Term}
    {full states : Automaton} (h : fullAutomaton g table starts noSkip = .ok full)
    (hg : g.NoAmbiguities) (hgroups : full.Regroups states) :
    let c := Collapse.clustering g states
    let place := Collapse.place g states
    let collapsed := (collapse g states).1
    let merged := mergeIdentical g collapsed
    (∀ i, (full.state i).terms.Nodup) ∧
    Collapse.Loops g states (states.foldl (Collapse.assign states) ⟨#[], #[]⟩) c ∧
    (c.IsPartition states.size ∧ ∀ p, ∀ i ∈ c.members p, place i = p ∧
      ∀ j ∈ c.members p, i ≠ j →
        let s := states.state i
        let s' := states.state j
        s.start = none ∧ s'.start = none ∧ s.group = s'.group ∧ s.skip = s'.skip ∧
          s.items.map Item.toDotted = s'.items.map Item.toDotted) ∧
    (collapsed.size = c.clusters.size ∧ ∀ p < collapsed.size,
      (collapsed.state p).Gathers g place ((c.members p).map states.state)) ∧
    (collapsed.Determined ∧ collapsed.IsClosed) ∧ merged.Determined ∧ merged.IsClosed := by
  intro c place collapsed merged
  obtain ⟨seeds, hb⟩ := fullAutomaton_built h
  have hfull : full.Determined := ⟨fun i => hb.nodup_terms hg, fun i => hb.nodup_gotos⟩
  have hstates : states.Determined := hgroups.determined hfull
  have hclosed : states.IsClosed := hgroups.isClosed hb.isClosed
  have hcollapsed : collapsed.Determined := Collapse.determined_collapse hclosed hstates
  have hcollapsed' : collapsed.IsClosed := Collapse.isClosed_collapse hclosed
  have hsize : collapsed.size = c.clusters.size := Array.size_map
  refine ⟨hfull.actions, Collapse.loops_clustering g states,
    ⟨Collapse.isPartition_clustering g states, fun p i hi =>
      ⟨(Collapse.mem_members_iff.mp hi).2, fun j hj hne =>
        Collapse.sameCore_iff.mp (Collapse.sameCore_of_members hi hj hne)⟩⟩,
    ⟨hsize, fun p => Collapse.gathers_collapse⟩, ⟨hcollapsed, hcollapsed'⟩,
    Identical.determined_rounds _ hcollapsed' hcollapsed⟩

/-- The automaton of `T → A`, `T → x A y`, `A → `, `A → a` is one to which that applies. -/
theorem collapse_isSafe_twoPlaces :
    ∃ full, fullAutomaton twoPlacesGrammar (FirstTable.ofGrammar twoPlacesGrammar) [⟨3⟩] ⟨2⟩ =
        .ok full ∧ (collapse twoPlacesGrammar full).1.size < full.size ∧
      (collapse twoPlacesGrammar full).1.Determined := by
  have hcheck : (fullAutomaton twoPlacesGrammar (FirstTable.ofGrammar twoPlacesGrammar) [⟨3⟩]
      ⟨2⟩).toOption.any (fun a =>
        decide ((collapse twoPlacesGrammar a).1.size < a.size)) = true := by
    cbv
  obtain ⟨full, h, hsize⟩ := exists_ok_of_any hcheck
  have hnone : twoPlacesGrammar.NoAmbiguities := by
    unfold Grammar.NoAmbiguities
    decide
  obtain ⟨_, _, _, _, ⟨hdetermined, _⟩, _⟩ := collapse_isSafe h hnone (.refl full)
  exact ⟨full, h, of_decide_eq_true hsize, hdetermined⟩

end GrammarCompiler
