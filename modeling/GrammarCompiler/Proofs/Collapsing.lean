/-
GrammarCompiler.Proofs.Collapsing — what becomes of the states of a cluster.

The state that a cluster becomes does all that its states do, and nothing else,
when states are known by their clusters. It accepts if any of them does
(`collapsed_collapse`).

  §1 Merging  — several states become one.
  §2 Clusters — states of one cluster.
  §3 Automata — all clusters at once.
  §4 Groups   — states with and without their groups of tokens.
-/
import GrammarCompiler.Proofs.Clustering
import GrammarCompiler.Proofs.Closure
import GrammarCompiler.Proofs.Simulation
import GrammarCompiler.Tokenizer.Groups

namespace GrammarCompiler

namespace Collapse

open Automaton (state)

/-! ## §1 Merging -/

variable {g : Grammar} {f : Nat → Nat}

/-- Adding actions that do something new leaves all that is done. -/
theorem deed_mem_foldl {actions : List Action} {known : Array Action} {d : Deed} :
    d ∈ (actions.foldl (fun known a => if known.any fun b => b.same g a then known
        else known.push a) known).toList.map (Action.deed g id) ↔
      d ∈ known.toList.map (Action.deed g id) ∨ d ∈ actions.map (Action.deed g id) := by
  induction actions generalizing known with
  | nil => simp
  | cons a actions ih =>
    rw [List.foldl_cons, ih, List.map_cons, List.mem_cons, ← or_assoc]
    refine or_congr_left ?_
    split
    · rename_i hany
      rw [← Array.any_toList, List.any_eq_true] at hany
      obtain ⟨b, hb, hsame⟩ := hany
      refine ⟨.inl, fun h => h.elim id fun heq => ?_⟩
      rw [heq, ← Action.same_iff.mp hsame]
      exact List.mem_map_of_mem hb
    · simp [or_comm]

theorem goto_mem_foldl {gotos known : List Goto} {x : Goto} :
    x ∈ gotos.foldl (fun known a => if known.contains a then known else known ++ [a]) known ↔
      x ∈ known ∨ x ∈ gotos := by
  induction gotos generalizing known with
  | nil => simp
  | cons a gotos ih =>
    rw [List.foldl_cons, ih, List.mem_cons, ← or_assoc]
    refine or_congr_left ?_
    split
    · rename_i hin
      exact ⟨.inl, fun h => h.elim id fun heq => heq ▸ by simpa using hin⟩
    · simp

/-- Taking in a state adds what it does. -/
theorem mem_deeds_absorb {into s : State} {d : Deed} :
    d ∈ (absorb g f into s).deeds g id ↔ d ∈ into.deeds g id ∨ d ∈ s.deeds g f := by
  have hactions : (s.actions.map (Action.map f)).map (Action.deed g id) =
      s.actions.map (Action.deed g f) := by
    rw [List.map_map]
    refine List.map_congr_left fun a _ => ?_
    cases a <;> rfl
  have hgotos : ∀ y, y ∈ (absorb g f into s).gotos ↔
      y ∈ into.gotos ∨ y ∈ s.gotos.map (Goto.map f) :=
    fun y => goto_mem_foldl
  have hdone : d ∈ (absorb g f into s).actions.map (Action.deed g id) ↔
      d ∈ into.actions.map (Action.deed g id) ∨ d ∈ s.actions.map (Action.deed g f) := by
    rw [← hactions]
    exact deed_mem_foldl
  have hleads : d ∈ (absorb g f into s).gotos.map (fun x => Deed.goto x.term (id x.target)) ↔
      d ∈ into.gotos.map (fun x => Deed.goto x.term (id x.target)) ∨
        d ∈ s.gotos.map fun x => Deed.goto x.term (f x.target) := by
    simp only [List.mem_map, hgotos]
    constructor
    · rintro ⟨y, hy | ⟨x, hx, rfl⟩, rfl⟩
      · exact .inl ⟨y, hy, rfl⟩
      · exact .inr ⟨x, hx, rfl⟩
    · rintro (⟨y, hy, rfl⟩ | ⟨x, hx, rfl⟩)
      · exact ⟨y, .inl hy, rfl⟩
      · exact ⟨x.map f, .inr ⟨x, hx, rfl⟩, rfl⟩
  rw [State.deeds, State.deeds, State.deeds, List.mem_append, List.mem_append, List.mem_append,
    hdone, hleads]
  tauto

/-- The state that several states become does what they do. -/
theorem mem_deeds_mergeStates {members : List State} {d : Deed} :
    d ∈ (mergeStates g f members).deeds g id ↔ ∃ s ∈ members, d ∈ s.deeds g f := by
  have hfoldl : ∀ into : State, d ∈ (members.foldl (absorb g f) into).deeds g id ↔
      d ∈ into.deeds g id ∨ ∃ s ∈ members, d ∈ s.deeds g f := by
    induction members with
    | nil => simp
    | cons s members ih =>
      intro into
      rw [List.foldl_cons, ih, mem_deeds_absorb, or_assoc, List.exists_mem_cons_iff]
  have hfinish : ∀ s : State, d ∈ (s.finish g).deeds g id ↔ d ∈ s.deeds g id := by
    intro s
    simp [State.deeds, State.finish]
  have hblank := hfoldl { members.headD default with items := [], actions := [], gotos := [] }
  unfold mergeStates
  rw [hfinish]
  refine hblank.trans (or_iff_right fun hnone => ?_)
  cases hnone

/-- It has the items of all, as far as their dotted rules go. -/
theorem exists_item_mergeStates {members : List State} {p : Dotted → Prop} :
    (∃ i ∈ (mergeStates g f members).items, p i.toDotted) ↔
      ∃ s ∈ members, ∃ i ∈ s.items, p i.toDotted := by
  have hfoldl : ∀ into : State, (∃ i ∈ (members.foldl (absorb g f) into).items, p i.toDotted) ↔
      (∃ i ∈ into.items, p i.toDotted) ∨ ∃ s ∈ members, ∃ i ∈ s.items, p i.toDotted := by
    induction members with
    | nil => simp
    | cons s members ih =>
      intro into
      rw [List.foldl_cons, ih, List.exists_mem_cons_iff, ← or_assoc]
      exact or_congr_left (Item.exists_append_notIn _ _)
  have hblank := hfoldl { members.headD default with items := [], actions := [], gotos := [] }
  unfold mergeStates
  simp only [State.finish, Item.sort, List.mem_mergeSort]
  exact hblank.trans (or_iff_right (by simp))

/-- It accepts if any of them does. -/
theorem accepting_mergeStates {members : List State} :
    (mergeStates g f members).accepting g = true ↔ ∃ s ∈ members, s.accepting g = true := by
  simp only [State.accepting, List.any_eq_true]
  exact exists_item_mergeStates (p := fun d => (g.terms.isTop d.rule.name && d.atEnd) = true)

theorem start_mergeStates (members : List State) :
    (mergeStates g f members).start = (members.headD default).start := by
  have hfoldl : ∀ into : State, (members.foldl (absorb g f) into).start = into.start := by
    induction members with
    | nil => exact fun _ => rfl
    | cons s members ih => exact fun into => ih _
  exact hfoldl _

end Collapse

/-! ## §2 Clusters -/

/-- `s.Fits g f s'`: what two states do for the same symbol is the same, when
targets are named by `f`; for a terminal, if the second state has only one
action for it. -/
structure State.Fits (g : Grammar) (f : Nat → Nat) (s s' : State) : Prop where
  actions : s'.terms.Nodup → ∀ x ∈ s.actions, ∀ y ∈ s'.actions, x.term = y.term →
    x.deed g f = y.deed g f
  gotos : ∀ x ∈ s.gotos, ∀ y ∈ s'.gotos, x.term = y.term → f x.target = f y.target

/-- Shifts and gotos lead to states that are there. -/
structure Automaton.IsClosed (a : Automaton) : Prop where
  shifts : ∀ {s q : Nat} {t : Term}, .shift t q ∈ (a.state s).actions → q < a.size
  gotos : ∀ {s : Nat} {x : Goto}, x ∈ (a.state s).gotos → x.target < a.size

namespace Collapse

open Automaton (state)

variable {g : Grammar} {states : Automaton}

/-- The cluster of a state. -/
def place (g : Grammar) (states : Automaton) (i : Nat) : Nat :=
  (clustering g states).mapping[i]?.getD i

theorem mapping_eq_some_iff {i p : Nat} :
    (clustering g states).mapping[i]? = some p ↔ i < states.size ∧ place g states i = p := by
  have hsize := (settled_clustering g states).size
  unfold place
  by_cases hi : i < states.size
  · simp [hsize, hi]
  · rw [Array.getElem?_eq_none (by omega)]
    simp [hi]

/-- The states of a cluster are those that have its place. -/
theorem mem_members_iff {i p : Nat} :
    i ∈ (clustering g states).members p ↔ i < states.size ∧ place g states i = p := by
  rw [(settled_clustering g states).arranged.place p i, mapping_eq_some_iff]
  exact and_iff_right nofun

theorem place_eq_of_mapping {q q' : Nat} (hq : q < states.size)
    (h : (clustering g states).mapping[q]? = (clustering g states).mapping[q']?) :
    place g states q = place g states q' := by
  have hq : (clustering g states).mapping[q]? = some (place g states q) :=
    mapping_eq_some_iff.mpr ⟨hq, rfl⟩
  exact (mapping_eq_some_iff.mp (h ▸ hq)).2.symm

/-- Actions that match do the same. -/
theorem deed_eq_of_matching (hclosed : states.IsClosed) {i : Nat} {x y : Action}
    (hx : x ∈ (state states i).actions) (hterm : x.term = y.term)
    (h : matching g (clustering g states).mapping x y = true) :
    x.deed g (place g states) = y.deed g (place g states) := by
  cases x with
  | shift t q =>
    cases y with
    | shift t' q' =>
      obtain rfl : t = t' := hterm
      have hplace := place_eq_of_mapping (hclosed.shifts hx) (by simpa [matching] using h)
      rw [Action.deed, Action.deed, hplace]
    | reduce t' r' => cases h
  | reduce t r =>
    cases y with
    | shift t' q' => cases h
    | reduce t' r' =>
      obtain rfl : t = t' := hterm
      obtain ⟨hname, hlength, hwrap⟩ := Rule.sameReduce_iff.mp h
      rw [Action.deed, Action.deed, hname, hlength, hwrap]

/-- An action is the only one for its terminal, where each terminal has one. -/
theorem filter_term_eq {actions : List Action} {y : Action}
    (hone : (actions.map Action.term).Nodup) (hy : y ∈ actions) :
    actions.filter (fun z => z.term == y.term) = [y] := by
  have hterms : (actions.filter fun z => z.term == y.term).map Action.term = [y.term] := by
    rw [show (fun z : Action => z.term == y.term) = (fun t => t == y.term) ∘ Action.term from rfl,
      ← List.filter_map, List.filter_beq, List.count_eq_one_of_mem hone (List.mem_map_of_mem hy)]
    rfl
  obtain ⟨z, hz⟩ := List.length_eq_one_iff.mp (by simpa using congrArg List.length hterms)
  have hmem : y ∈ actions.filter fun z => z.term == y.term := List.mem_filter.mpr ⟨hy, by simp⟩
  rw [hz] at hmem ⊢
  rw [List.mem_singleton.mp hmem]

theorem fits_of_fits (hclosed : states.IsClosed) {i j : Nat}
    (h : fits g (clustering g states).mapping (state states i) (state states j) = true) :
    (state states i).Fits g (place g states) (state states j) := by
  obtain ⟨hgotos, hactions⟩ := (Bool.and_eq_true _ _).mp h
  refine ⟨fun hone x hx y hy hterm => ?_, fun x hx y hy hterm => ?_⟩
  · have hfits := List.all_eq_true.mp hactions x hx
    unfold actionFits at hfits
    -- The second state has this one action for the terminal.
    simp only [hterm, filter_term_eq hone hy] at hfits
    have hmatch : matching g (clustering g states).mapping y x = true := by simpa using hfits
    exact (deed_eq_of_matching hclosed hy hterm.symm hmatch).symm
  · have hfits := List.all_eq_true.mp (List.all_eq_true.mp hgotos x hx) y hy
    refine place_eq_of_mapping (hclosed.gotos hx) ?_
    simpa [hterm] using hfits

theorem compatible_comm {mapping : Array Nat} (i j : Nat) :
    compatible g states mapping i j = compatible g states mapping j i := by
  unfold compatible
  cases states[i]? with
  | none => cases states[j]? <;> rfl
  | some a =>
    cases states[j]? with
    | none => rfl
    | some b => exact Bool.and_comm _ _

/-- States of one cluster fit each other. -/
theorem fits_of_place_eq (hclosed : states.IsClosed) {i j : Nat} (hi : i < states.size)
    (hj : j < states.size) (hplace : place g states i = place g states j) (hne : i ≠ j) :
    (state states i).Fits g (place g states) (state states j) := by
  have hsymm : Std.Symm fun s s' =>
      compatible g states (clustering g states).mapping s s' = true :=
    ⟨fun s s' h => compatible_comm s s' ▸ h⟩
  have hcompatible := ((settled_clustering g states).fits (place g states j)).forall
    (mem_members_iff.mpr ⟨hi, hplace⟩) (mem_members_iff.mpr ⟨hj, rfl⟩) hne
  apply fits_of_fits hclosed
  unfold compatible at hcompatible
  rw [Array.getElem?_eq_getElem hi, Array.getElem?_eq_getElem hj] at hcompatible
  simpa [state, hi, hj] using ((Bool.and_eq_true _ _).mp hcompatible).1

end Collapse

/-! ## §3 Automata -/

/-- What collapsing makes of an automaton: a state for each place, which does what
the states in its place do. These are for the same dotted rules and fit each other.
Entries are alone in their places. -/
structure Collapsed (g : Grammar) (a : Automaton) (place : Nat → Nat) (b : Automaton) : Prop where
  inside : ∀ i < a.size, place i < b.size
  onto : ∀ p < b.size, ∃ i < a.size, place i = p
  start : ∀ i < a.size, (b.state (place i)).start = (a.state i).start
  alone : ∀ i < a.size, ∀ j < a.size, place i = place j → i ≠ j →
    (a.state i).start = none ∧ (a.state j).start = none
  cores : ∀ i < a.size, ∀ j < a.size, place i = place j →
    (a.state i).items.map Item.toDotted = (a.state j).items.map Item.toDotted
  fits : ∀ i < a.size, ∀ j < a.size, place i = place j → i ≠ j →
    (a.state i).Fits g place (a.state j)
  deeds : ∀ p < b.size, ∀ d, d ∈ (b.state p).deeds g id ↔
    ∃ i < a.size, place i = p ∧ d ∈ (a.state i).deeds g place
  accepting : ∀ p < b.size, (b.state p).accepting g = true ↔
    ∃ i < a.size, place i = p ∧ (a.state i).accepting g = true

namespace Collapse

open Automaton (state)

variable {g : Grammar} {states : Automaton}

/-- The state that a cluster becomes. -/
theorem state_collapse {p : Nat} (hp : p < (clustering g states).clusters.size) :
    state (collapse g states).1 p = mergeStates g (place g states)
      (((clustering g states).members p).filterMap fun m => states[m]?) := by
  have hcollapse : (collapse g states).1 = (clustering g states).clusters.map fun cluster =>
      mergeStates g (place g states) (cluster.members.filterMap fun m => states[m]?) := rfl
  rw [hcollapse]
  simp [state, Clustering.members, hp]

theorem exists_member_iff {p : Nat} {Q : State → Prop} :
    (∃ s ∈ ((clustering g states).members p).filterMap (fun m => states[m]?), Q s) ↔
      ∃ i < states.size, place g states i = p ∧ Q (state states i) := by
  simp only [List.mem_filterMap, mem_members_iff]
  constructor
  · rintro ⟨s, ⟨i, ⟨hi, hplace⟩, hs⟩, hq⟩
    exact ⟨i, hi, hplace, by rwa [state, hs]⟩
  · rintro ⟨i, hi, hplace, hq⟩
    exact ⟨state states i, ⟨i, ⟨hi, hplace⟩, by simp [state, hi]⟩, hq⟩

theorem collapsed_collapse (hclosed : states.IsClosed) :
    Collapsed g states (place g states) (collapse g states).1 := by
  have hsettled := settled_clustering g states
  have hsize : (collapse g states).1.size = (clustering g states).clusters.size := Array.size_map
  have halike : ∀ i < states.size, ∀ j < states.size, place g states i = place g states j →
      Alike states i j := fun i hi j hj heq =>
    hsettled.arranged.cores _ _ i j (mem_members_iff.mpr ⟨hi, rfl⟩)
      (mem_members_iff.mpr ⟨hj, heq.symm⟩) rfl
  have hinside : ∀ i < states.size, place g states i < (clustering g states).clusters.size :=
    fun i hi => (hsettled.arranged.taken _).mp (List.ne_nil_of_mem (mem_members_iff.mpr ⟨hi, rfl⟩))
  have halone : ∀ i < states.size, ∀ j < states.size, place g states i = place g states j → i ≠ j →
      (state states i).start = none ∧ (state states j).start = none := by
    intro i hi j hj heq hne
    obtain ⟨hstart, hstart', _⟩ := sameCore_iff.mp ((halike i hi j hj heq).resolve_left hne)
    exact ⟨hstart, hstart'⟩
  exact {
    inside := fun i hi => hsize ▸ hinside i hi
    onto := by
      intro p hp
      obtain ⟨i, hi⟩ := List.exists_mem_of_ne_nil _ ((hsettled.arranged.taken p).mpr (hsize ▸ hp))
      exact ⟨i, mem_members_iff.mp hi⟩
    start := by
      intro i hi
      rw [state_collapse (hinside i hi), start_mergeStates]
      obtain ⟨s, hs, _⟩ := exists_member_iff.mpr ⟨i, hi, rfl, rfl⟩
      obtain ⟨first, rest, hmembers⟩ := List.exists_cons_of_ne_nil (List.ne_nil_of_mem hs)
      rw [hmembers, List.headD_cons]
      obtain ⟨j, hj, heq, rfl⟩ : ∃ j < states.size, place g states j = place g states i ∧
          first = state states j := by
        rw [← exists_member_iff, hmembers]
        exact ⟨first, .head _, rfl⟩
      by_cases hij : j = i
      · rw [hij]
      · obtain ⟨hstart, hstart'⟩ := halone j hj i hi heq hij
        rw [hstart, hstart']
    alone := halone
    cores := by
      intro i hi j hj heq
      rcases halike i hi j hj heq with rfl | hcore
      · rfl
      · exact (sameCore_iff.mp hcore).2.2.2.2
    fits := fun i hi j hj => fits_of_place_eq hclosed hi hj
    deeds := by
      intro p hp d
      rw [state_collapse (hsize ▸ hp), mem_deeds_mergeStates]
      exact exists_member_iff
    accepting := by
      intro p hp
      rw [state_collapse (hsize ▸ hp), accepting_mergeStates]
      exact exists_member_iff }

end Collapse

/-! ## §4 Groups -/

/-- A state without its group of tokens. -/
def State.ungrouped (s : State) : State :=
  { s with group := none }

/-- The same automaton, but for the groups of tokens that states belong to. -/
def Automaton.Regroups (a a' : Automaton) : Prop :=
  a'.map State.ungrouped = a.map State.ungrouped

namespace Automaton.Regroups

variable {g : Grammar} {a a' : Automaton}

theorem refl (a : Automaton) : a.Regroups a :=
  rfl

theorem size_eq (h : a.Regroups a') : a'.size = a.size := by
  simpa using congrArg Array.size h

theorem state_eq (h : a.Regroups a') (i : Nat) :
    ∃ group, a'.state i = { a.state i with group } := by
  have hi : (a'[i]?).map State.ungrouped = (a[i]?).map State.ungrouped := by
    rw [← Array.getElem?_map, ← Array.getElem?_map, h]
  have hstate : (a'.state i).ungrouped = (a.state i).ungrouped := by
    rw [state, state]
    cases hs : a'[i]? <;> cases hs' : a[i]? <;> rw [hs, hs'] at hi <;> simp_all
  exact ⟨_, congrArg (fun s : State => { s with group := (a'.state i).group }) hstate⟩

theorem isClosed (h : a.Regroups a') (hclosed : a.IsClosed) : a'.IsClosed where
  shifts {s _ _} hq := by
    obtain ⟨_, hs⟩ := h.state_eq s
    rw [hs] at hq
    exact h.size_eq ▸ hclosed.shifts hq
  gotos {s _} hx := by
    obtain ⟨_, hs⟩ := h.state_eq s
    rw [hs] at hx
    exact h.size_eq ▸ hclosed.gotos hx

/-- It does not matter for what collapsing makes of states. -/
theorem collapsed (h : a.Regroups a') {place : Nat → Nat} {b : Automaton}
    (hc : Collapsed g a' place b) : Collapsed g a place b := by
  have hsize := h.size_eq
  have hstart (i : Nat) : (a'.state i).start = (a.state i).start := by
    obtain ⟨_, hs⟩ := h.state_eq i
    rw [hs]
  have hitems (i : Nat) : (a'.state i).items = (a.state i).items := by
    obtain ⟨_, hs⟩ := h.state_eq i
    rw [hs]
  have hdeeds (i : Nat) : (a'.state i).deeds g place = (a.state i).deeds g place := by
    obtain ⟨_, hs⟩ := h.state_eq i
    rw [hs]
    rfl
  have haccepting (i : Nat) : (a'.state i).accepting g = (a.state i).accepting g := by
    rw [State.accepting, hitems, State.accepting]
  have hfits (i j : Nat) (hf : (a'.state i).Fits g place (a'.state j)) :
      (a.state i).Fits g place (a.state j) := by
    obtain ⟨_, hi⟩ := h.state_eq i
    obtain ⟨_, hj⟩ := h.state_eq j
    rw [hi, hj] at hf
    exact ⟨hf.actions, hf.gotos⟩
  obtain ⟨inside, onto, start, alone, cores, fits, deeds, accepting⟩ := hc
  simp only [hsize, hstart, hitems] at inside onto start alone cores fits
  simp only [hsize, hdeeds, haccepting] at deeds accepting
  exact ⟨inside, onto, start, alone, cores,
    fun i hi j hj heq hne => hfits i j (fits i hi j hj heq hne), deeds, accepting⟩

end Automaton.Regroups

namespace TokenGroups

variable {g : Grammar} {origins : TokenOrigins} {skips : Skipping} {hard : List Overlap}

theorem states_foldl_report {s : State} {wanted : List Term} {threats : List Threat}
    {p : Progress} : (threats.foldl (report g s wanted) p).states = p.states := by
  induction threats generalizing p with
  | nil => rfl
  | cons t threats ih =>
    rw [List.foldl_cons, ih, report]
    split <;> rfl

theorem ungrouped_assign {p p' : Progress} {s : State}
    (h : assign g origins skips hard p s = .ok p') :
    p'.states.map State.ungrouped = (p.states.push s).map State.ungrouped := by
  unfold assign at h
  dsimp only at h
  split at h
  · cases h
    rfl
  split at h
  · cases h
  split at h
  · cases h
    rfl
  · cases h
    simp [State.ungrouped, states_foldl_report]

theorem ungrouped_foldlM {states : List State} {p p' : Progress}
    (h : states.foldlM (assign g origins skips hard) p = .ok p') :
    p'.states.map State.ungrouped = (p.states ++ states.toArray).map State.ungrouped := by
  induction states generalizing p with
  | nil =>
    cases h
    simp
  | cons s states ih =>
    rw [List.foldlM_cons] at h
    obtain ⟨p₁, hfirst, h⟩ := exists_ok_of_bind h
    rw [ih h, Array.map_append, ungrouped_assign hfirst]
    simp

/-- Finding groups of tokens for the states changes nothing else. -/
theorem regroups_of_ofAutomaton {ranks : List TokenRank} {declared : List (Term × Term)}
    {tokenizer : Dfa} {states : Automaton} {groups : TokenGroups}
    (h : ofAutomaton g origins skips ranks declared tokenizer states = .ok groups) :
    states.Regroups groups.states := by
  obtain ⟨p, hfold, h⟩ := exists_ok_of_bind (show ofConflicts g origins skips _ states = _ from h)
  have hstates : p.states = groups.states := by
    dsimp only at h
    split at h
    · cases h
    split at h
    · cases h
    · cases h
      rfl
  rw [← Array.foldlM_toList] at hfold
  rw [Automaton.Regroups, ← hstates, ungrouped_foldlM hfold]
  simp

end TokenGroups

end GrammarCompiler
