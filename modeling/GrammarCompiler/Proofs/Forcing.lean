/-
GrammarCompiler.Proofs.Forcing — forced reductions do not run in circles.

A reduction of a single part takes one state off the stack and puts another one
on top of the same state below. States choose one after another, and a choice
can close a circle through what was chosen before. The search that keeps this
from happening follows chosen reductions only, over the states below that all
edges so far have in common. So it comes to an end as long as there is no circle
among what has been chosen, and a negative answer rules out new ones.

  §1 Circles — reductions of a single part, one after another.
  §2 Edges   — where symbols lead, as the search has it.
  §3 Search  — what its answers mean, and that there always is one.
  §4 Choices — what every choice keeps, and so all of them.
-/
import GrammarCompiler.Automaton.Forced
import GrammarCompiler.Automaton.Run
import Mathlib

namespace GrammarCompiler

namespace Forced

/-! ## §1 Circles -/

/-- `Turns a single p s q`: on top of state `p`, the reduction of a single part that makes the
symbol `single s` takes state `s` off the stack and puts state `q` there. -/
def Turns (a : Automaton) (single : Nat → Option Term) (p s q : Nat) : Prop :=
  ∃ t, single s = some t ∧ ⟨t, q⟩ ∈ (a.state p).gotos

/-- On top of no state such reductions lead back to where they started. -/
def NoCircle (a : Automaton) (single : Nat → Option Term) : Prop :=
  ∀ p s, ¬ Relation.TransGen (Turns a single p) s s

/-- The symbol that the default reduction of a state makes of a single part. -/
def defaultSingle (a : Automaton) (s : Nat) : Option Term :=
  (a.state s).defaultReduce.bind fun r => if r.parts.length = 1 then some r.name else none

/-- The symbol that the reduction chosen for a state makes of a single part. -/
def chosenSingle (reductions : Array (Option Forced)) (s : Nat) : Option Term :=
  reductions[s]?.join.bind fun f => if f.depth = 1 then some f.rule.name else none

/-- The symbol noted for a state. -/
def noted (single : Array (Option Term)) (s : Nat) : Option Term :=
  single[s]?.join

variable {a : Automaton} {p s q : Nat} {t : Term}

theorem NoCircle.mono {single single' : Nat → Option Term} (h : NoCircle a single)
    (hsub : ∀ s t, single' s = some t → single s = some t) : NoCircle a single' := by
  intro p s hcircle
  refine h p s (Relation.TransGen.mono ?_ s s hcircle)
  rintro x y ⟨t, hx, hgoto⟩
  exact ⟨t, hsub x t hx, hgoto⟩

section

variable {α : Type} {R S : α → α → Prop} {x y z : α}
variable (hsteps : ∀ y z, S y z → y ≠ x → R y z)
include hsteps

/-- A way to the only point with new steps out of it needs none of them. -/
theorem reflTransGen_of_steps (h : Relation.ReflTransGen S y x) : Relation.ReflTransGen R y x := by
  induction h using Relation.ReflTransGen.head_induction_on with
  | refl => exact .refl
  | @head y z hstep _ ih =>
    by_cases hy : y = x
    · rw [hy]
    · exact .head (hsteps y z hstep hy) ih

/-- A way with new steps out of one point needs none of them, or passes through that point. -/
theorem transGen_of_steps (h : Relation.TransGen S y z) :
    Relation.TransGen R y z ∨ Relation.ReflTransGen S y x ∧ Relation.TransGen S x z := by
  induction h using Relation.TransGen.head_induction_on with
  | @single y hstep =>
    by_cases hy : y = x
    · subst hy
      exact .inr ⟨.refl, .single hstep⟩
    · exact .inl (.single (hsteps y z hstep hy))
  | @head y v hstep hrest ih =>
    by_cases hy : y = x
    · subst hy
      exact .inr ⟨.refl, .head hstep hrest⟩
    · rcases ih with h | ⟨hto, hfrom⟩
      · exact .inl (.head (hsteps y v hstep hy) h)
      · exact .inr ⟨.head hstep hto, hfrom⟩

/-- New steps out of one point close no circle if none of them leads to where there was a way back
to it. -/
theorem not_transGen_of_steps (hnone : ∀ y, ¬ Relation.TransGen R y y)
    (hback : ∀ y, S x y → ¬ Relation.ReflTransGen R y x) : ¬ Relation.TransGen S y y := by
  intro hcircle
  have hthrough : Relation.TransGen S x x := by
    rcases transGen_of_steps hsteps hcircle with h | ⟨hto, hfrom⟩
    · exact absurd h (hnone y)
    · exact hfrom.trans_left hto
  obtain ⟨z, hstep, hrest⟩ := Relation.TransGen.head'_iff.mp hthrough
  exact hback z hstep (reflTransGen_of_steps hsteps hrest)

end

/-! ## §2 Edges -/

/-- `Links edges p t q`: according to the edges, symbol `t` leads from state `p` to state `q`. -/
def Links (edges : List Edge) (p : Nat) (t : Term) (q : Nat) : Prop :=
  ∃ e ∈ edges, e.term = t ∧ e.target = q ∧ p ∈ e.parents

theorem links_addGoto {edges : List Edge} {parent : Nat} {goto : Goto} :
    Links (addGoto parent edges goto) p t q ↔
      Links edges p t q ∨ p = parent ∧ goto = ⟨t, q⟩ := by
  obtain ⟨u, target⟩ := goto
  unfold addGoto
  split
  next hthere =>
    obtain ⟨o, ho, heq⟩ := List.any_eq_true.mp hthere
    simp only [Bool.and_eq_true, beq_iff_eq] at heq
    constructor
    · rintro ⟨e', he', rfl, rfl, hp⟩
      obtain ⟨e, he, rfl⟩ := List.mem_map.mp he'
      split at hp
      next hsame =>
        simp only [Bool.and_eq_true, beq_iff_eq] at hsame
        rcases List.mem_append.mp hp with hp | hp
        · exact .inl ⟨e, he, by simp [hsame], by simp [hsame], hp⟩
        · exact .inr ⟨List.mem_singleton.mp hp, by simp [hsame]⟩
      next hother => exact .inl ⟨e, he, by simp [hother], by simp [hother], hp⟩
    · rintro (⟨e, he, rfl, rfl, hp⟩ | ⟨rfl, hgoto⟩)
      · refine ⟨_, List.mem_map_of_mem he, ?_⟩
        split <;> simp [hp]
      · cases hgoto
        refine ⟨_, List.mem_map_of_mem ho, ?_⟩
        simp [heq]
  next =>
    constructor
    · rintro ⟨e, he, rfl, rfl, hp⟩
      rcases List.mem_append.mp he with he | he
      · exact .inl ⟨e, he, rfl, rfl, hp⟩
      · cases List.mem_singleton.mp he
        exact .inr ⟨List.mem_singleton.mp hp, rfl⟩
    · rintro (⟨e, he, heq⟩ | ⟨rfl, hgoto⟩)
      · exact ⟨e, List.mem_append_left _ he, heq⟩
      · cases hgoto
        exact ⟨_, List.mem_append_right _ (.head _), rfl, rfl, .head _⟩

theorem links_foldl_addGoto {edges : List Edge} {parent : Nat} {gotos : List Goto} :
    Links (gotos.foldl (addGoto parent) edges) p t q ↔
      Links edges p t q ∨ p = parent ∧ ⟨t, q⟩ ∈ gotos := by
  induction gotos generalizing edges with
  | nil => simp
  | cons goto gotos ih =>
    rw [List.foldl_cons, ih, links_addGoto, List.mem_cons, or_assoc, ← and_or_left,
      @eq_comm _ goto]

/-- The edges of an automaton are its gotos. -/
theorem links_edges : Links (edges a) p t q ↔ ⟨t, q⟩ ∈ (a.state p).gotos := by
  have hfold (numbered : List (State × Nat)) (found : List Edge) :
      Links (numbered.foldl (fun found entry => entry.1.gotos.foldl (addGoto entry.2) found) found)
          p t q ↔
        Links found p t q ∨ ∃ entry ∈ numbered, p = entry.2 ∧ ⟨t, q⟩ ∈ entry.1.gotos := by
    induction numbered generalizing found with
    | nil => simp
    | cons entry numbered ih =>
      rw [List.foldl_cons, ih, links_foldl_addGoto, or_assoc, List.exists_mem_cons_iff]
  have hnone : ¬ Links [] p t q := by
    rintro ⟨e, he, _⟩
    cases he
  refine (hfold a.toList.zipIdx []).trans ?_
  rw [or_iff_right hnone]
  constructor
  · rintro ⟨⟨s, id⟩, hentry, rfl, hgoto⟩
    have hs := List.mem_zipIdx_iff_getElem?.mp hentry
    rw [Array.getElem?_toList] at hs
    rwa [Automaton.state, hs]
  · intro hgoto
    cases hs : a[p]? with
    | none =>
      rw [Automaton.state, hs] at hgoto
      cases hgoto
    | some s =>
      rw [Automaton.state, hs] at hgoto
      exact ⟨(s, p), List.mem_zipIdx_iff_getElem?.mpr (by rwa [Array.getElem?_toList]), rfl, hgoto⟩

/-! ## §3 Search -/

/-- A search without a find or a gap found nothing anywhere. -/
theorem anyM_eq_some_false_iff {α : Type} {f : α → Option Bool} {l : List α} :
    l.anyM f = some false ↔ ∀ x ∈ l, f x = some false := by
  induction l with
  | nil => simp [List.anyM]
  | cons x l ih =>
    rw [List.forall_mem_cons, ← ih, List.anyM]
    cases f x with
    | none => simp
    | some b => cases b <;> simp

/-- A search without an answer had none in some place. -/
theorem exists_of_anyM_eq_none {α : Type} {f : α → Option Bool} {l : List α}
    (h : l.anyM f = none) : ∃ x ∈ l, f x = none := by
  induction l with
  | nil => cases h
  | cons x l ih =>
    rw [List.anyM] at h
    cases hx : f x with
    | none => exact ⟨x, .head _, hx⟩
    | some b =>
      cases b with
      | true => simp [hx] at h
      | false =>
        obtain ⟨y, hy, hnone⟩ := ih (by simpa [hx] using h)
        exact ⟨y, .tail _ hy, hnone⟩

/-- The states that an edge shares with those that are still in question. -/
def shared (parents : Option (List Nat)) (e : Edge) : List Nat :=
  match parents with
  | some parents => parents.filter e.parents.contains
  | none => e.parents

theorem mem_shared {parents : Option (List Nat)} {e : Edge} :
    p ∈ shared parents e ↔ (∀ below ∈ parents, p ∈ below) ∧ p ∈ e.parents := by
  cases parents <;> simp [shared]

/-- What the search does at one edge. -/
def follow (edges : List Edge) (single : Array (Option Term)) (start fuel : Nat)
    (parents : Option (List Nat)) (e : Edge) : Option Bool :=
  if (shared parents e).isEmpty then some false
  else if e.target == start then some true
  else
    match noted single e.target with
    | some next => leadsBack edges single start fuel next (some (shared parents e))
    | none => some false

theorem leadsBack_succ (edges : List Edge) (single : Array (Option Term)) (start fuel : Nat)
    (t : Term) (parents : Option (List Nat)) :
    leadsBack edges single start (fuel + 1) t parents =
      (edges.filter fun e => e.term == t).anyM (follow edges single start fuel parents) := by
  rw [leadsBack]
  rfl

section

variable {single : Array (Option Term)} {start fuel : Nat} {parents : Option (List Nat)}

/-- A negative answer is right: on top of none of the states in question there is a way back. -/
theorem not_reflTransGen_of_leadsBack
    (h : leadsBack (edges a) single start fuel t parents = some false)
    (hp : ∀ below ∈ parents, p ∈ below) (hgoto : ⟨t, q⟩ ∈ (a.state p).gotos) :
    ¬ Relation.ReflTransGen (Turns a (noted single) p) q start := by
  induction fuel generalizing t parents q with
  | zero => cases h
  | succ fuel ih =>
    obtain ⟨e, he, rfl, rfl, hbelow⟩ := links_edges.mpr hgoto
    rw [leadsBack_succ, anyM_eq_some_false_iff] at h
    have hfollow := h e (List.mem_filter.mpr ⟨he, beq_self_eq_true _⟩)
    have hshared : p ∈ shared parents e := mem_shared.mpr ⟨hp, hbelow⟩
    rw [follow, if_neg (by simpa using List.ne_nil_of_mem hshared)] at hfollow
    split at hfollow
    next => cases hfollow
    next hne =>
      intro hway
      rcases Relation.ReflTransGen.cases_head hway with heq | ⟨r, ⟨next, hnext, hturn⟩, hrest⟩
      · exact hne (by simp [heq])
      · rw [hnext] at hfollow
        refine ih hfollow ?_ hturn hrest
        rintro below ⟨⟩
        exact hshared

/-- Without an answer, the search has followed a way as long as its fuel on top of one state. -/
theorem exists_way_of_leadsBack_eq_none
    (h : leadsBack (edges a) single start fuel t parents = none)
    (hparents : ∃ p, ∀ below ∈ parents, p ∈ below) :
    ∃ p, (∀ below ∈ parents, p ∈ below) ∧ ∃ way : List Nat, way.length = fuel ∧
      way.IsChain (Turns a (noted single) p) ∧ (∀ s ∈ way, noted single s ≠ none) ∧
      ∀ q ∈ way.head?, ⟨t, q⟩ ∈ (a.state p).gotos := by
  induction fuel generalizing t parents with
  | zero =>
    obtain ⟨p, hp⟩ := hparents
    exact ⟨p, hp, [], rfl, .nil, nofun, nofun⟩
  | succ fuel ih =>
    rw [leadsBack_succ] at h
    obtain ⟨e, he, hfollow⟩ := exists_of_anyM_eq_none h
    obtain ⟨he, hterm⟩ := List.mem_filter.mp he
    rw [follow] at hfollow
    split at hfollow
    next => cases hfollow
    next hne =>
      split at hfollow
      next => cases hfollow
      next =>
        split at hfollow
        next next hnext =>
          obtain ⟨o, ho⟩ := List.exists_mem_of_ne_nil (shared parents e) (by simpa using hne)
          obtain ⟨p, hp, way, hlength, hchain, hnoted, hhead⟩ := ih hfollow ⟨o, by simpa using ho⟩
          obtain ⟨hp, hbelow⟩ := mem_shared.mp (hp _ rfl)
          refine ⟨p, hp, e.target :: way, by simp [hlength], ?_, ?_, ?_⟩
          · refine List.isChain_cons.mpr ⟨?_, hchain⟩
            intro q hq
            exact ⟨next, hnext, hhead q hq⟩
          · simpa [hnext] using hnoted
          · rintro q ⟨⟩
            exact links_edges.mp ⟨e, he, beq_iff_eq.mp hterm, rfl, hbelow⟩
        next => cases hfollow

/-- A way without a circle is no longer than there are notes. -/
theorem length_le_size {way : List Nat} (h : NoCircle a (noted single))
    (hchain : way.IsChain (Turns a (noted single) p)) (hnoted : ∀ s ∈ way, noted single s ≠ none) :
    way.length ≤ single.size := by
  have hnodup : way.Nodup := by
    have hpairs : way.Pairwise (Relation.TransGen (Turns a (noted single) p)) :=
      List.isChain_iff_pairwise.mp (hchain.imp fun _ _ => .single)
    refine hpairs.imp ?_
    rintro x _ hway rfl
    exact h p x hway
  have hsub : way ⊆ List.range single.size := by
    intro s hs
    by_contra hge
    have hnone : single[s]? = none := Array.getElem?_eq_none (by simpa using hge)
    exact hnoted s hs (by rw [noted, hnone]; rfl)
  simpa using (hnodup.subperm hsub).length_le

/-- There is an answer as long as there is no circle yet. -/
theorem leadsBack_ne_none (h : NoCircle a (noted single)) (hfuel : single.size < fuel) :
    leadsBack (edges a) single start fuel t none ≠ none := by
  intro hnone
  obtain ⟨p, _, way, hlength, hchain, hnoted, _⟩ :=
    exists_way_of_leadsBack_eq_none hnone ⟨0, nofun⟩
  have hle := length_le_size h hchain hnoted
  omega

end

/-! ## §4 Choices -/

/-- `IsItem g a s f`: the reduction is by the rule of an item of the state, of as many parts as
have been read of it, and these are not none. The rule is not at the top. -/
def IsItem (g : Grammar) (a : Automaton) (s : Nat) (f : Forced) : Prop :=
  ∃ i ∈ (a.state s).items, i.rule = f.rule ∧ i.dot = f.depth ∧ 0 < f.depth ∧
    g.terms.isTop f.rule.name = false

/-- There is an entry for each state, and every reduction of a single part is noted. -/
structure Tracks (a : Automaton) (c : Chosen) : Prop where
  size_reductions : c.reductions.size = a.size
  size_single : c.single.size = a.size
  covers : ∀ s t, chosenSingle c.reductions s = some t → noted c.single s = some t

/-- What holds of choices at any time. What is noted makes no circle, and states without default
reduction reduce by one of their items. -/
structure Sound (g : Grammar) (a : Automaton) (c : Chosen) : Prop extends Tracks a c where
  noCircle : NoCircle a (noted c.single)
  isItem : ∀ s f, (a.state s).defaultReduce = none → c.reductions[s]? = some (some f) →
    IsItem g a s f

section

variable {g : Grammar} {c : Chosen} {f : Forced}

namespace Tracks

variable (h : Tracks a c) (hs : s < a.size)
include h hs

theorem reductions_choose (x : Nat) :
    (choose c s f).reductions[x]? = if x = s then some (some f) else c.reductions[x]? := by
  simp [choose, Array.getElem?_setIfInBounds, @eq_comm _ s x, h.size_reductions, hs]

theorem noted_choose (x : Nat) : noted (choose c s f).single x =
    if x = s ∧ f.depth = 1 then some f.rule.name else noted c.single x := by
  unfold noted choose
  by_cases hdepth : f.depth = 1
  · by_cases hx : x = s <;> simp [hdepth, h.size_single, hs, hx, @eq_comm _ s x]
  · simp [hdepth]

protected theorem choose : Tracks a (choose c s f) := by
  refine ⟨?_, ?_, fun x t hx => ?_⟩
  · simp [Forced.choose, h.size_reductions]
  · unfold Forced.choose
    split <;> simp [h.size_single]
  · rw [h.noted_choose hs]
    rw [chosenSingle, h.reductions_choose hs] at hx
    by_cases hxs : x = s
    · by_cases hdepth : f.depth = 1 <;> simp_all
    · rw [if_neg hxs] at hx
      rw [if_neg fun hboth => hxs hboth.1]
      exact h.covers x t hx

end Tracks

/-- A choice that leads nowhere back to its state keeps what holds of choices. -/
theorem Sound.choose (h : Sound g a c) (hs : s < a.size) (hitem : IsItem g a s f)
    (hback : f.depth = 1 → ∀ p q, ⟨f.rule.name, q⟩ ∈ (a.state p).gotos →
      ¬ Relation.ReflTransGen (Turns a (noted c.single) p) q s) :
    Sound g a (choose c s f) := by
  have hnoted := h.toTracks.noted_choose (f := f) hs
  refine ⟨h.toTracks.choose hs, ?_, ?_⟩
  · intro p x
    refine not_transGen_of_steps (R := Turns a (noted c.single) p) (x := s) ?_ (h.noCircle p) ?_
    · rintro y z ⟨t, hy, hgoto⟩ hne
      rw [hnoted, if_neg fun hboth => hne hboth.1] at hy
      exact ⟨t, hy, hgoto⟩
    · rintro q ⟨t, ht, hgoto⟩
      rw [hnoted] at ht
      split at ht
      next hnew =>
        cases ht
        exact hback hnew.2 p q hgoto
      next =>
        -- The step was there before, and so was no circle with it.
        intro hway
        exact h.noCircle p s (.head' ⟨t, ht, hgoto⟩ hway)
  · intro x f' hnone hx
    rw [h.toTracks.reductions_choose hs] at hx
    split at hx
    next heq =>
      cases hx
      exact heq ▸ hitem
    next => exact h.isItem x f' hnone hx

/-- A state can always choose among its items. -/
theorem Sound.chooseFirst (h : Sound g a c) (hs : s < a.size) {items : List Item}
    (hitems : ∀ i ∈ items, IsItem g a s ⟨i.rule, i.dot⟩) :
    ∃ c', chooseFirst (edges a) c s items = .ok c' ∧ Sound g a c' := by
  induction items with
  | nil => exact ⟨c, rfl, h⟩
  | cons i items ih =>
    have hitem := hitems i (.head _)
    unfold Forced.chooseFirst
    split
    next hdot =>
      refine ⟨_, rfl, h.choose hs hitem ?_⟩
      intro hdepth
      exact absurd hdepth (by simpa using hdot)
    next =>
      simp only
      split
      next hanswer =>
        refine ⟨_, rfl, h.choose hs hitem ?_⟩
        intro _ p q hgoto
        exact not_reflTransGen_of_leadsBack hanswer nofun hgoto
      next => exact ih fun j hj => hitems j (.tail _ hj)
      next hnone =>
        refine absurd hnone (leadsBack_ne_none h.noCircle ?_)
        calc c.single.size < c.single.size + 1 := Nat.lt_succ_self _
          _ ≤ (c.single.size + 1) * (c.single.size + 1) := Nat.le_mul_self _

/-- Steps that never fail keep what each of them keeps. -/
theorem exists_foldlM_ok {α β ε : Type} {step : β → α → Except ε β} {P : β → Prop} {l : List α}
    (hstep : ∀ x ∈ l, ∀ b, P b → ∃ b', step b x = .ok b' ∧ P b') {b : β} (hb : P b) :
    ∃ b', l.foldlM step b = .ok b' ∧ P b' := by
  induction l generalizing b with
  | nil => exact ⟨b, rfl, hb⟩
  | cons x l ih =>
    obtain ⟨next, hnext, hP⟩ := hstep x (.head _) b hb
    rw [List.foldlM_cons, hnext]
    exact ih (fun y hy => hstep y (.tail _ hy)) hP

theorem mem_candidates {st : State} {i : Item} :
    i ∈ candidates g st ↔ i ∈ st.items ∧ 0 < i.dot ∧ g.terms.isTop i.rule.name = false := by
  simp [candidates]

theorem state_of_mem_zipIdx {entry : State × Nat} (h : entry ∈ a.toList.zipIdx) :
    entry.2 < a.size ∧ a.state entry.2 = entry.1 := by
  have hentry := List.mem_zipIdx_iff_getElem?.mp h
  rw [Array.getElem?_toList] at hentry
  exact ⟨(Array.getElem?_eq_some_iff.mp hentry).1, by rw [Automaton.state, hentry]; rfl⟩

/-- What holds while default reductions are taken over: nothing else is noted or chosen. -/
structure Takes (a : Automaton) (c : Chosen) : Prop extends Tracks a c where
  noted_default : ∀ s t, noted c.single s = some t → defaultSingle a s = some t
  ne_none : ∀ s f, c.reductions[s]? = some (some f) → (a.state s).defaultReduce ≠ none

theorem Takes.chooseDefault (h : Takes a c) {entry : State × Nat}
    (hentry : entry ∈ a.toList.zipIdx) : Takes a (chooseDefault c entry) := by
  obtain ⟨hs, hstate⟩ := state_of_mem_zipIdx hentry
  unfold Forced.chooseDefault
  split
  next r hr =>
    split
    next => exact h
    next =>
      refine ⟨h.toTracks.choose hs, ?_, ?_⟩
      · intro x t hx
        rw [h.toTracks.noted_choose hs] at hx
        split at hx
        next hnew =>
          obtain ⟨rfl, hlength⟩ := hnew
          cases hx
          rw [defaultSingle, hstate, hr, Option.bind_some, if_pos hlength]
        next => exact h.noted_default x t hx
      · intro x f hx
        rw [h.toTracks.reductions_choose hs] at hx
        split at hx
        next heq =>
          rw [heq, hstate, hr]
          exact Option.some_ne_none r
        next => exact h.ne_none x f hx
  next => exact h

/-- Before states choose, default reductions are chosen, and nothing else. -/
theorem sound_start (h : NoCircle a (defaultSingle a)) :
    Sound g a (a.toList.zipIdx.foldl chooseDefault
      ⟨Array.replicate a.size none, Array.replicate a.size none⟩) := by
  have htakes : Takes a (a.toList.zipIdx.foldl chooseDefault
      ⟨Array.replicate a.size none, Array.replicate a.size none⟩) := by
    refine List.foldlRecOn _ _ ?_ fun c hc entry hentry => hc.chooseDefault hentry
    have hnone {α : Type} (s : Nat) : (Array.replicate a.size (none : Option α))[s]?.join = none := by
      rw [Array.getElem?_replicate]
      split <;> rfl
    refine ⟨⟨by simp, by simp, ?_⟩, ?_, ?_⟩
    · intro s t hs
      rw [chosenSingle, hnone] at hs
      cases hs
    · intro s t hs
      rw [noted, hnone] at hs
      cases hs
    · intro s f hs
      have hjoin : some f = none := by
        rw [← hnone s, hs]
        rfl
      cases hjoin
  refine ⟨htakes.toTracks, ?_, ?_⟩
  · exact h.mono htakes.noted_default
  · intro s f hnone hs
    exact absurd hnone (htakes.ne_none s f hs)

end

end Forced

/-- Forced reductions are found, and do not run in circles unless default reductions do. No
reductions of a single part, one after another on top of the same state, lead back to where they
started. A state without default reduction reduces by one of its items, as many parts as have been
read of it, at least one; and it does not reduce by a rule at the top. -/
theorem forcedReductions_noCircle (g : Grammar) (a : Automaton)
    (h : Forced.NoCircle a (Forced.defaultSingle a)) :
    ∃ forced, forcedReductions g a = .ok forced ∧ forced.size = a.size ∧
      Forced.NoCircle a (Forced.chosenSingle forced) ∧
      ∀ s f, (a.state s).defaultReduce = none → forced[s]? = some (some f) →
        ∃ i ∈ (a.state s).items, i.rule = f.rule ∧ i.dot = f.depth ∧ 0 < f.depth ∧
          g.terms.isTop f.rule.name = false := by
  let waiting := (a.toList.zipIdx.filter fun entry => entry.1.defaultReduce.isNone).map fun entry =>
    (entry.2, Forced.candidates g entry.1)
  have hwaiting : ∀ w ∈ waiting, w.1 < a.size ∧
      ∀ i ∈ w.2, Forced.IsItem g a w.1 ⟨i.rule, i.dot⟩ := by
    intro w hw
    obtain ⟨entry, hentry, rfl⟩ := List.mem_map.mp hw
    obtain ⟨hs, hstate⟩ := Forced.state_of_mem_zipIdx (List.mem_filter.mp hentry).1
    refine ⟨hs, fun i hi => ?_⟩
    obtain ⟨hmem, hdot, htop⟩ := Forced.mem_candidates.mp hi
    exact ⟨i, hstate ▸ hmem, rfl, rfl, hdot, htop⟩
  have hsize (size : Nat) (c : Forced.Chosen) (hc : Forced.Sound g a c) : ∃ c',
      Forced.chooseForSize (Forced.edges a) waiting c size = .ok c' ∧ Forced.Sound g a c' := by
    refine Forced.exists_foldlM_ok ?_ hc
    intro w hw c hc
    obtain ⟨hs, hitems⟩ := hwaiting w (List.mem_filter.mp hw).1
    exact hc.chooseFirst hs hitems
  obtain ⟨c, hc, hsound⟩ := Forced.exists_foldlM_ok
    (l := (List.range ((waiting.map fun w => w.2.length).foldl max 0)).map (· + 1))
    (fun size _ => hsize size) (Forced.sound_start (g := g) h)
  refine ⟨c.reductions, ?_, hsound.size_reductions, hsound.noCircle.mono hsound.covers,
    hsound.isItem⟩
  show Except.bind (List.foldlM (Forced.chooseForSize (Forced.edges a) waiting) _ _) _ = _
  rw [hc]
  rfl

namespace Forced

/-- Rules for three symbols: of the parts that are read for `A` and `C`, the first is a `B`, which
is an `A` itself. -/
def turnstileRules : List Rule :=
  let rule (id name : Nat) (parts : List Nat) : Rule :=
    { parts := parts.map .mk, marks := List.replicate (parts.length + 1) .none, id, name := ⟨name⟩,
      skip := .eof }
  [rule 0 3 [2], rule 1 2 [3, 5], rule 2 4 [3, 5, 5]]

/-- The symbols are `A`, `B`, `C` and a terminal. -/
def turnstileGrammar : Grammar where
  terms :=
    { entries := TermTable.initial.entries ++
        #[⟨"A", .nonterminal, none, [], false, false⟩, ⟨"B", .nonterminal, none, [], false, false⟩,
          ⟨"C", .nonterminal, none, [], false, false⟩, ⟨"x", .terminal, none, [], false, false⟩]
      tops := [] }
  numbering := default
  rules := turnstileRules

/-- States that `A`, `B` and `C` lead to. The first makes a `B` of an `A`. In the second a `B` has
been read, of an `A` or a `C`, and making an `A` of it would lead back to the first. -/
def turnstile : Automaton :=
  let state (items : List Item) (gotos : List Goto) (reduce : Option Rule) : State :=
    { items, actions := [], gotos, skip := .eof, start := none, defaultReduce := reduce }
  #[state [] [⟨⟨2⟩, 1⟩, ⟨⟨3⟩, 2⟩, ⟨⟨4⟩, 3⟩] none,
    state [] [] turnstileRules[0]?,
    state ((turnstileRules.drop 1).map fun r => ⟨⟨r, 1⟩, .empty, [], .eof, []⟩) [] none,
    state [] [] none]

end Forced

/-- The second state makes a `C`, which leads nowhere further. -/
theorem forcedReductions_turnstile : Forced.NoCircle Forced.turnstile
      (Forced.defaultSingle Forced.turnstile) ∧
    ∃ forced, forcedReductions Forced.turnstileGrammar Forced.turnstile = .ok forced ∧
      forced.toList.map (Option.map fun f => (f.rule.name.index, f.depth)) =
        [none, some (3, 1), some (4, 1), none] ∧
      Forced.NoCircle Forced.turnstile (Forced.chosenSingle forced) := by
  have hoff (n : Nat) (hn : 4 ≤ n) : Forced.turnstile.state n = default := by
    rw [Automaton.state, Array.getElem?_eq_none (show Forced.turnstile.size ≤ n from hn)]
    rfl
  have hforward : ∀ p < 4, ∀ goto ∈ (Forced.turnstile.state p).gotos, ∀ s < 4,
      Forced.defaultSingle Forced.turnstile s = some goto.term → s < goto.target := by
    decide
  have hturn {p x y : Nat} (h : Forced.Turns Forced.turnstile
      (Forced.defaultSingle Forced.turnstile) p x y) : x < y := by
    obtain ⟨t, hx, hgoto⟩ := h
    refine hforward p ?_ _ hgoto x ?_ hx
    · by_contra hge
      rw [hoff p (not_lt.mp hge)] at hgoto
      cases hgoto
    · by_contra hge
      rw [Forced.defaultSingle, hoff x (not_lt.mp hge)] at hx
      cases hx
  have hcircle : Forced.NoCircle Forced.turnstile (Forced.defaultSingle Forced.turnstile) := by
    intro p s hway
    refine lt_irrefl s (hway.trans_induction_on (motive := fun {x y} _ => x < y) ?_ ?_)
    · exact hturn
    · exact fun _ _ => lt_trans
  obtain ⟨forced, hforced, _, hnone, _⟩ :=
    forcedReductions_noCircle Forced.turnstileGrammar Forced.turnstile hcircle
  have hcheck : (forcedReductions Forced.turnstileGrammar Forced.turnstile).toOption.map
      (fun forced => forced.toList.map (Option.map fun f => (f.rule.name.index, f.depth))) =
        some [none, some (3, 1), some (4, 1), none] := by
    cbv
  rw [hforced] at hcheck
  exact ⟨hcircle, forced, hforced, Option.some.inj hcheck, hnone⟩

end GrammarCompiler
