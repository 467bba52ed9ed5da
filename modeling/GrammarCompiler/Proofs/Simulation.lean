/-
GrammarCompiler.Proofs.Simulation — automata that do the same step by step.

What a state does is a set of deeds, in which targets are named in whatever way
is wanted and a rule is what reducing by it does. A state mirrors another when
their deeds are the same and they accept alike. If every state that a run meets
is mirrored, the run has a mirror image, and there are no other runs.

  §1 Deeds     — what a state does.
  §2 Mirroring — states that do the same.
  §3 Lockstep  — one step here is one step there.
-/
import GrammarCompiler.Automaton.Run

namespace GrammarCompiler

/-! ## §1 Deeds -/

/-- One of the things that a state does: reading a terminal, reducing by a rule
of this name and length when a terminal comes next, or going on with a
symbol. -/
inductive Deed where
  | shift (t : Term) (target : Nat)
  | reduce (t name : Term) (length : Nat) (wrap : Bool)
  | goto (name : Term) (target : Nat)
deriving DecidableEq, Repr

/-- A deed where targets have other names. -/
def Deed.map (f : Nat → Nat) : Deed → Deed
  | shift t q => shift t (f q)
  | reduce t name length wrap => reduce t name length wrap
  | goto name q => goto name (f q)

/-- What an action does. -/
def Action.deed (g : Grammar) (f : Nat → Nat) : Action → Deed
  | shift t q => .shift t (f q)
  | reduce t r => .reduce t r.name r.parts.length (r.isRepeatWrap g.terms)

theorem Rule.sameReduce_iff {terms : TermTable} {r r' : Rule} :
    r.sameReduce terms r' = true ↔ r.name = r'.name ∧ r.parts.length = r'.parts.length ∧
      r.isRepeatWrap terms = r'.isRepeatWrap terms := by
  simp only [Rule.sameReduce, Bool.and_eq_true, beq_iff_eq, and_assoc]

theorem Action.same_iff {g : Grammar} {a b : Action} :
    a.same g b = true ↔ a.deed g id = b.deed g id := by
  cases a <;> cases b <;>
    simp [Action.same, Action.deed, Rule.sameReduce_iff]

/-- All that a state does, where its targets are named by `f`. -/
def State.deeds (g : Grammar) (f : Nat → Nat) (s : State) : List Deed :=
  s.actions.map (Action.deed g f) ++ s.gotos.map fun x => .goto x.term (f x.target)

namespace State

variable {g : Grammar} {f : Nat → Nat} {s : State}

theorem shift_mem_deeds {t : Term} {q : Nat} :
    .shift t q ∈ s.deeds g f ↔ ∃ p, .shift t p ∈ s.actions ∧ f p = q := by
  rw [deeds, List.mem_append, List.mem_map, List.mem_map]
  constructor
  · rintro (⟨action, ha, heq⟩ | ⟨x, _, heq⟩)
    · cases action with
      | shift t' p =>
        cases heq
        exact ⟨p, ha, rfl⟩
      | reduce t' r => cases heq
    · cases heq
  · rintro ⟨p, hp, rfl⟩
    exact .inl ⟨_, hp, rfl⟩

theorem reduce_mem_deeds {t name : Term} {length : Nat} {wrap : Bool} :
    .reduce t name length wrap ∈ s.deeds g f ↔ ∃ r, .reduce t r ∈ s.actions ∧ r.name = name ∧
      r.parts.length = length ∧ r.isRepeatWrap g.terms = wrap := by
  rw [deeds, List.mem_append, List.mem_map, List.mem_map]
  constructor
  · rintro (⟨action, ha, heq⟩ | ⟨x, _, heq⟩)
    · cases action with
      | shift t' p => cases heq
      | reduce t' r =>
        cases heq
        exact ⟨r, ha, rfl, rfl, rfl⟩
    · cases heq
  · rintro ⟨r, hr, rfl, rfl, rfl⟩
    exact .inl ⟨_, hr, rfl⟩

theorem goto_mem_deeds {name : Term} {q : Nat} :
    .goto name q ∈ s.deeds g f ↔ ∃ p, ⟨name, p⟩ ∈ s.gotos ∧ f p = q := by
  rw [deeds, List.mem_append, List.mem_map, List.mem_map]
  constructor
  · rintro (⟨action, _, heq⟩ | ⟨x, hx, heq⟩)
    · cases action <;> cases heq
    · cases heq
      exact ⟨x.target, hx, rfl⟩
  · rintro ⟨p, hp, rfl⟩
    exact .inr ⟨_, hp, rfl⟩

/-- Naming targets can be done later. -/
theorem deeds_comp (f' : Nat → Nat) (s : State) :
    s.deeds g (f' ∘ f) = (s.deeds g f).map (Deed.map f') := by
  rw [deeds, deeds, List.map_append, List.map_map, List.map_map]
  congr 1
  refine List.map_congr_left fun action _ => ?_
  cases action <;> rfl

theorem deeds_congr {s' : State} (h : s.deeds g id = s'.deeds g id) :
    s.deeds g f = s'.deeds g f := by
  have h := congrArg (List.map (Deed.map f)) h
  rwa [← deeds_comp, ← deeds_comp, Function.comp_id] at h

theorem mem_terms {t : Term} :
    t ∈ s.terms ↔ (∃ q, .shift t q ∈ s.deeds g f) ∨
      ∃ name length wrap, .reduce t name length wrap ∈ s.deeds g f := by
  rw [terms, List.mem_map]
  constructor
  · rintro ⟨action, ha, rfl⟩
    cases action with
    | shift t p => exact .inl ⟨f p, shift_mem_deeds.mpr ⟨p, ha, rfl⟩⟩
    | reduce t r => exact .inr ⟨_, _, _, reduce_mem_deeds.mpr ⟨r, ha, rfl, rfl, rfl⟩⟩
  · rintro (⟨q, hq⟩ | ⟨name, length, wrap, hr⟩)
    · obtain ⟨p, hp, _⟩ := shift_mem_deeds.mp hq
      exact ⟨_, hp, rfl⟩
    · obtain ⟨r, hr, _⟩ := reduce_mem_deeds.mp hr
      exact ⟨_, hr, rfl⟩

/-! ## §2 Mirroring -/

/-- `s.DoesAs g f s'`: what the second state does is what the first one does,
where targets are named by `f`. -/
def DoesAs (g : Grammar) (f : Nat → Nat) (s s' : State) : Prop :=
  ∀ d, d ∈ s'.deeds g id ↔ d ∈ s.deeds g f

/-- Doing the same goes on when targets get other names. -/
theorem DoesAs.comp {f' : Nat → Nat} {s' s'' : State} (h : s.DoesAs g f s')
    (h' : s'.DoesAs g f' s'') : s.DoesAs g (f' ∘ f) s'' := by
  intro d
  rw [h' d, deeds_comp, show f' = f' ∘ id from rfl, deeds_comp, List.mem_map, List.mem_map]
  exact exists_congr fun e => and_congr_left fun _ => h e

/-- `s.Mirrors g f s'`: the second state does as the first one does, and
accepts alike. -/
structure Mirrors (g : Grammar) (f : Nat → Nat) (s s' : State) : Prop where
  deeds : s.DoesAs g f s'
  accepting : s'.accepting g = true ↔ s.accepting g = true

end State

/-! ## §3 Lockstep -/

/-- A configuration where states have other names. -/
def Config.map (f : Nat → Nat) (c : Config) : Config :=
  ⟨c.stack.map f, c.rest⟩

namespace Automaton

variable {g : Grammar} {a b : Automaton} {f : Nat → Nat}

/-- A step has an image, if what the states on the stack do, their images do too. -/
theorem Step.image {c d : Config} (h : a.Step c d)
    (hc : ∀ s ∈ c.stack, ∀ e ∈ (a.state s).deeds g f, e ∈ (b.state (f s)).deeds g id) :
    b.Step (c.map f) (d.map f) := by
  cases h with
  | @shift s q t stack rest listed =>
    have hd := hc s (.head _) _ (State.shift_mem_deeds.mpr ⟨q, listed, rfl⟩)
    obtain ⟨_, hq, rfl⟩ := State.shift_mem_deeds.mp hd
    exact .shift hq
  | @reduce s r stack next rest listed reduces =>
    have hd := hc s (.head _) _ (State.reduce_mem_deeds.mpr ⟨r, listed, rfl, rfl, rfl⟩)
    obtain ⟨r', hr', hname, hlength, _⟩ := State.reduce_mem_deeds.mp hd
    cases reduces with
    | @intro p q below uncovers leads =>
      have hp : p ∈ s :: stack := by
        apply List.mem_of_mem_drop
        rw [uncovers]
        exact .head _
      have hd := hc p hp _ (State.goto_mem_deeds.mpr ⟨q, leads, rfl⟩)
      obtain ⟨_, hq, rfl⟩ := State.goto_mem_deeds.mp hd
      refine .reduce hr' (.intro (p := f p) ?_ (hname ▸ hq))
      have hdrop := congrArg (List.map f) uncovers
      rwa [List.map_drop, ← hlength] at hdrop

/-- A step has a mirror image. -/
theorem Step.mirror {c d : Config} (h : a.Step c d)
    (hc : ∀ s ∈ c.stack, (a.state s).Mirrors g f (b.state (f s))) :
    b.Step (c.map f) (d.map f) :=
  h.image fun s hs e he => ((hc s hs).deeds e).mpr he

/-- A step of the mirror image is the image of a step. -/
theorem Step.exists_of_mirror {c : Config} {e : Config} (h : b.Step (c.map f) e)
    (hc : ∀ s ∈ c.stack, (a.state s).Mirrors g f (b.state (f s))) :
    ∃ d, a.Step c d ∧ e = d.map f := by
  obtain ⟨stack, rest⟩ := c
  generalize hm : Config.map f ⟨stack, rest⟩ = image at h
  cases h with
  | @shift s' q' t stack' rest' listed =>
    cases stack with
    | nil => cases hm
    | cons s stack =>
      cases hm
      have hd := ((hc s (.head _)).deeds _).mp (State.shift_mem_deeds.mpr ⟨q', listed, rfl⟩)
      obtain ⟨q, hq, heq⟩ := State.shift_mem_deeds.mp hd
      refine ⟨⟨q :: s :: stack, rest'⟩, .shift hq, ?_⟩
      rw [Config.map, List.map_cons, heq]
      rfl
  | @reduce s' r' stack' next rest' listed reduces =>
    cases stack with
    | nil => cases hm
    | cons s stack =>
      cases hm
      have hd := ((hc s (.head _)).deeds _).mp
        (State.reduce_mem_deeds.mpr ⟨r', listed, rfl, rfl, rfl⟩)
      obtain ⟨r, hr, hname, hlength, _⟩ := State.reduce_mem_deeds.mp hd
      cases reduces with
      | @intro p' q' below' uncovers leads =>
        rw [← List.map_cons, ← List.map_drop, ← hlength] at uncovers
        obtain ⟨p, below, hdrop, rfl, rfl⟩ := List.map_eq_cons_iff.mp uncovers
        have hp : p ∈ s :: stack := by
          apply List.mem_of_mem_drop
          rw [hdrop]
          exact .head _
        have hd := ((hc p hp).deeds _).mp (State.goto_mem_deeds.mpr ⟨q', leads, rfl⟩)
        obtain ⟨q, hq, heq⟩ := State.goto_mem_deeds.mp hd
        refine ⟨⟨q :: p :: below, _⟩, .reduce hr (.intro hdrop (hname ▸ hq)), ?_⟩
        rw [Config.map, List.map_cons, heq]
        rfl

/-- `a.Meets start word s`: a run on `word` has state `s` on its stack. -/
def Meets (a : Automaton) (start : Nat) (word : List Term) (s : Nat) : Prop :=
  ∃ c, Relation.ReflTransGen a.Step ⟨[start], word⟩ c ∧ s ∈ c.stack

/-- A run has a mirror image, if all that it can meet is mirrored. -/
theorem mirror_of_steps {c d : Config} (h : Relation.ReflTransGen a.Step c d)
    (hall : ∀ e, Relation.ReflTransGen a.Step c e →
      ∀ s ∈ e.stack, (a.state s).Mirrors g f (b.state (f s))) :
    Relation.ReflTransGen b.Step (c.map f) (d.map f) := by
  induction h with
  | refl => exact .refl
  | tail before last ih => exact ih.tail (last.mirror (hall _ before))

/-- A run of the mirror image is the image of a run. -/
theorem exists_of_mirror_steps {c e : Config} (h : Relation.ReflTransGen b.Step (c.map f) e)
    (hall : ∀ d, Relation.ReflTransGen a.Step c d →
      ∀ s ∈ d.stack, (a.state s).Mirrors g f (b.state (f s))) :
    ∃ d, Relation.ReflTransGen a.Step c d ∧ e = d.map f := by
  induction h with
  | refl => exact ⟨c, .refl, rfl⟩
  | tail _ last ih =>
    obtain ⟨d, before, rfl⟩ := ih
    obtain ⟨d', hstep, rfl⟩ := last.exists_of_mirror (hall d before)
    exact ⟨d', before.tail hstep, rfl⟩

theorem endsIn_iff_of_mirrors {s : Nat} (h : (a.state s).Mirrors g f (b.state (f s))) :
    b.EndsIn g (f s) ↔ a.EndsIn g s := by
  have hterms : .eof ∈ (b.state (f s)).terms ↔ .eof ∈ (a.state s).terms := by
    rw [State.mem_terms (g := g) (f := id), State.mem_terms (g := g) (f := f)]
    simp only [h.deeds _]
  rw [EndsIn, EndsIn, h.accepting, hterms]

/-- If all states that runs on a word meet are mirrored, the word is accepted
alike. -/
theorem accepts_iff_of_mirrors {start : Nat} {word : List Term}
    (h : ∀ s, a.Meets start word s → (a.state s).Mirrors g f (b.state (f s))) :
    b.Accepts g (f start) word ↔ a.Accepts g start word := by
  have hall : ∀ e, Relation.ReflTransGen a.Step ⟨[start], word⟩ e → ∀ s ∈ e.stack,
      (a.state s).Mirrors g f (b.state (f s)) := fun e he s hs => h s ⟨e, he, hs⟩
  constructor
  · rintro ⟨s', ⟨stack', hsteps⟩, hends⟩
    obtain ⟨⟨stack, rest⟩, hsteps, heq⟩ :=
      exists_of_mirror_steps (c := ⟨[start], word⟩) hsteps hall
    cases stack with
    | nil => cases heq
    | cons s stack =>
      cases heq
      exact ⟨s, ⟨stack, hsteps⟩,
        (endsIn_iff_of_mirrors (hall _ hsteps s (.head _))).mp hends⟩
  · rintro ⟨s, ⟨stack, hsteps⟩, hends⟩
    exact ⟨f s, ⟨stack.map f, mirror_of_steps hsteps hall⟩,
      (endsIn_iff_of_mirrors (hall _ hsteps s (.head _))).mpr hends⟩

end Automaton

end GrammarCompiler
