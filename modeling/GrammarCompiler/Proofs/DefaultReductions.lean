/-
GrammarCompiler.Proofs.DefaultReductions — reducing without looking ahead.

A run that takes default reductions without looking at what comes next may
reduce where no action is listed. It can never make up for that: going back from
the end of a run, each reduction turns out to be one that lookahead allows
(`Built.step_of_eagerStep`). So every run that takes default reductions and is
accepted is a run by listed actions. The other way round one thing can go wrong:
the listed actions may come to an end in a state that has a default reduction,
since a complete top rule has no action of its own. There the run that does not
look ahead reduces once more instead of ending (`fullAutomaton_eagerlyAccepts_iff`).

  §1 Defaults — what a default reduction stands for.
  §2 Steps    — default reductions that are on the way to the end are listed.
  §3 Words    — what is accepted.
-/
import GrammarCompiler.Proofs.Prospect
import GrammarCompiler.Proofs.StateMerging

namespace GrammarCompiler

/-! ## §1 Defaults -/

namespace State

variable {g : Grammar}

/-- A default reduction is by the rule of an action, and all actions reduce in
the same way. -/
structure ComesDownTo (g : Grammar) (s : State) (r : Rule) : Prop where
  listed : ∃ u, .reduce u r ∈ s.actions
  same : ∀ action ∈ s.actions, ∃ u r', action = .reduce u r' ∧ r'.sameReduce g.terms r = true

theorem comesDownTo_finish {s : State} {r : Rule} (h : (s.finish g).defaultReduce = some r) :
    (s.finish g).ComesDownTo g r := by
  have hmem : ∀ action, action ∈ (s.finish g).actions ↔ action ∈ s.actions :=
    fun action => List.mem_mergeSort
  have hdefault : onlyReduction g s.actions = some r := h
  unfold onlyReduction at hdefault
  split at hdefault
  · rename_i u rule rest heq
    split at hdefault
    · rename_i hall
      cases hdefault
      refine ⟨⟨u, (hmem _).mpr (heq ▸ .head _)⟩, fun action ha => ?_⟩
      have hsame := List.all_eq_true.mp hall action (heq ▸ (hmem action).mp ha)
      cases action with
      | shift u' q => cases hsame
      | reduce u' r' => exact ⟨u', r', rfl, hsame⟩
    · cases hdefault
  · cases hdefault

end State

namespace Automaton

variable {g : Grammar} {a : Automaton}

/-- Reducing by a rule of the same name and length leads to the same stack. -/
theorem Reduces.of_sameReduce {r r' : Rule} {stack next : List Nat} (h : a.Reduces r stack next)
    (hsame : r'.sameReduce g.terms r = true) : a.Reduces r' stack next := by
  obtain ⟨hname, hlength, _⟩ := Rule.sameReduce_iff.mp hsame
  cases h with
  | intro uncovers leads => exact .intro (hlength ▸ uncovers) (hname ▸ leads)

end Automaton

/-! ## §2 Steps -/

section

variable {g : Grammar} {table : FirstTable} {noSkip : Term} {starts : List Term} {a : Automaton}
  {seeds : Array Seed} {start : Nat} {t : Term} {c d : Config} {symbols : List Term}

theorem Built.comesDownTo (hb : Built g table noSkip starts a seeds) {s : Nat} {r : Rule}
    (h : (a.state s).defaultReduce = some r) : (a.state s).ComesDownTo g r := by
  by_cases hs : s < a.size
  · obtain ⟨_, st, _, _, heq⟩ := hb.isRead s hs
    rw [heq] at h ⊢
    exact State.comesDownTo_finish h
  · rw [Automaton.state_eq_default (Nat.le_of_not_lt hs)] at h
    cases h

/-- A step by a listed action does not get lost when default reductions are
taken. -/
theorem Built.eagerStep_of_step (hb : Built g table noSkip starts a seeds) (h : a.Step c d) :
    a.EagerStep c d := by
  have hlooks : ∀ {s : Nat} {stack : List Nat} {rest : List Term},
      a.Step ⟨s :: stack, rest⟩ d → (a.state s).defaultReduce = none →
        a.EagerStep ⟨s :: stack, rest⟩ d := fun hstep hnone => .listed hnone hstep
  cases h with
  | @shift s q u stack rest listed =>
    cases hdefault : (a.state s).defaultReduce with
    | none => exact hlooks (.shift listed) hdefault
    | some r =>
      obtain ⟨_, _, heq, _⟩ := (hb.comesDownTo hdefault).same _ listed
      cases heq
  | @reduce s r stack next rest listed reduces =>
    cases hdefault : (a.state s).defaultReduce with
    | none => exact hlooks (.reduce listed reduces) hdefault
    | some r' =>
      obtain ⟨_, _, heq, hsame⟩ := (hb.comesDownTo hdefault).same _ listed
      cases heq
      obtain ⟨hname, hlength, _⟩ := Rule.sameReduce_iff.mp hsame
      cases reduces with
      | intro uncovers leads =>
        exact .byDefault hdefault (.intro (hlength ▸ uncovers) (hname ▸ leads))

/-- Steps lead along paths. -/
theorem Built.path_eagerStep (hb : Built g table noSkip starts a seeds) (h : a.EagerStep c d)
    (hpath : Path g seeds start c.stack symbols) :
    ∃ symbols', Path g seeds start d.stack symbols' := by
  cases h with
  | listed _ step =>
    cases step with
    | shift listed => exact ⟨_, hb.path_shift hpath listed⟩
    | reduce _ reduces => exact ⟨_, hb.path_reduce hpath reduces⟩
  | byDefault _ reduces => exact ⟨_, hb.path_reduce hpath reduces⟩

end

section

variable {g : Grammar} {noSkip : Term} {starts : List Term} {a : Automaton} {seeds : Array Seed}
  {start : Nat} {t : Term} {c d : Config} {symbols : List Term}

/-- A step to where there is a prospect of the rest is one by a listed action,
from where there is a prospect of the rest as well. -/
theorem Built.step_of_eagerStep (hb : Built g (FirstTable.ofGrammar g) noSkip starts a seeds)
    (hs : (a.state start).start = some t) (h : a.EagerStep c d)
    (hpath : Path g seeds start c.stack symbols) (hd : a.Prospect g start d.stack d.rest) :
    a.Step c d ∧ a.Prospect g start c.stack c.rest := by
  have hcomplete : ∀ {s : Nat} {u : Term} {r : Rule}, .reduce u r ∈ (a.state s).actions →
      ∃ k ∈ (a.state s).items, k.rule = r ∧ k.atEnd = true ∧ g.terms.isTop r.name = false := by
    intro s u r listed
    have hfits := hb.fits s (Automaton.lt_size_of_mem_actions listed)
    obtain ⟨k, hk, hrule, hend, hkind, _⟩ := hfits.actions _ listed
    exact ⟨k, hk, hrule, hend, hkind⟩
  cases h with
  | listed _ step =>
    refine ⟨step, ?_⟩
    cases step with
    | shift listed => exact hd.before_shift hb listed
    | reduce listed reduces =>
      obtain ⟨k, hk, rfl, hend, hkind⟩ := hcomplete listed
      exact (hd.before_reduce hb hs hpath hk hend hkind reduces).2
  | byDefault known reduces =>
    have hdefault := hb.comesDownTo known
    obtain ⟨_, listed⟩ := hdefault.listed
    obtain ⟨k, hk, rfl, hend, hkind⟩ := hcomplete listed
    obtain ⟨hterm, hc⟩ := hd.before_reduce hb hs hpath hk hend hkind reduces
    -- The action for the terminal that comes next is the default reduction.
    obtain ⟨action, haction, hahead⟩ := List.mem_map.mp hterm
    obtain ⟨u, r', rfl, hsame⟩ := hdefault.same action haction
    obtain rfl : u = _ := hahead
    exact ⟨.reduce haction (reduces.of_sameReduce hsame), hc⟩

/-- A run that takes default reductions and comes to where a top rule is complete
at the end of the input is a run by listed actions. -/
theorem Built.steps_of_eagerSteps (hb : Built g (FirstTable.ofGrammar g) noSkip starts a seeds)
    (htop : ∀ r ∈ g.rules, ∀ t ∈ r.parts, g.terms.isTop t = false)
    (hs : (a.state start).start = some t) {s : Nat} {stack : List Nat}
    (h : Relation.ReflTransGen a.EagerStep c ⟨s :: stack, []⟩)
    (hpath : Path g seeds start c.stack symbols) (hacc : (a.state s).accepting g = true) :
    Relation.ReflTransGen a.Step c ⟨s :: stack, []⟩ ∧ a.Prospect g start c.stack c.rest := by
  induction h using Relation.ReflTransGen.head_induction_on generalizing symbols with
  | refl => exact ⟨.refl, .of_accepting hb htop hs hpath hacc⟩
  | head first _ ih =>
    obtain ⟨symbols', hpath'⟩ := hb.path_eagerStep first hpath
    obtain ⟨hsteps, hprospect⟩ := ih hpath'
    obtain ⟨hstep, hc⟩ := hb.step_of_eagerStep hs first hpath hprospect
    exact ⟨.head hstep hsteps, hc⟩

end

/-! ## §3 Words -/

/-- What the automaton of a grammar accepts when default reductions are taken
without looking ahead: the words on which a run by listed actions ends in a state
that has no default reduction. So where no state has two actions for a terminal, a
word is accepted alike both ways unless that run ends in a state with a default
reduction. -/
theorem fullAutomaton_eagerlyAccepts_iff {g : Grammar} {starts : List Term} {noSkip : Term}
    {a : Automaton} (h : fullAutomaton g (FirstTable.ofGrammar g) starts noSkip = .ok a)
    (htop : ∀ r ∈ g.rules, ∀ t ∈ r.parts, g.terms.isTop t = false)
    (hone : ∀ i, (a.state i).terms.Nodup) {start : Nat} {t : Term}
    (hs : (a.state start).start = some t) (word : List Term) :
    (a.EagerlyAccepts g start word ↔ ∃ s, Automaton.Reads a.Step start word s ∧
      a.EndsIn g s ∧ (a.state s).defaultReduce = none) ∧
    ((a.EagerlyAccepts g start word ↔ a.Accepts g start word) ↔
      ∀ s, Automaton.Reads a.Step start word s → a.EndsIn g s →
        (a.state s).defaultReduce = none) := by
  obtain ⟨seeds, hb⟩ := fullAutomaton_built h
  have hiff : a.EagerlyAccepts g start word ↔ ∃ s, Automaton.Reads a.Step start word s ∧
      a.EndsIn g s ∧ (a.state s).defaultReduce = none := by
    constructor
    · rintro ⟨s, ⟨stack, hreads⟩, hends, hnone⟩
      obtain ⟨hlisted, _⟩ := hb.steps_of_eagerSteps htop hs hreads .entry hends.1
      exact ⟨s, ⟨stack, hlisted⟩, hends, hnone⟩
    · rintro ⟨s, ⟨stack, hreads⟩, hends, hnone⟩
      have heager := Relation.ReflTransGen.mono (fun _ _ => hb.eagerStep_of_step) _ _ hreads
      exact ⟨s, ⟨stack, heager⟩, hends, hnone⟩
  refine ⟨hiff, fun hsame s hreads hends => ?_, fun hnone => ?_⟩
  · -- The run by listed actions has only one end.
    obtain ⟨s', ⟨stack', hreads'⟩, hends', hnone⟩ := hiff.mp (hsame.mpr ⟨s, hreads, hends⟩)
    obtain ⟨stack, hreads⟩ := hreads
    have hdetermined : a.Determined := ⟨hone, fun i => hb.nodup_gotos⟩
    have heq := hdetermined.end_eq hreads hreads' hends.not_step hends'.not_step
    cases heq
    exact hnone
  · rw [hiff]
    exact ⟨fun ⟨s, hreads, hends, _⟩ => ⟨s, hreads, hends⟩,
      fun ⟨s, hreads, hends⟩ => ⟨s, hreads, hends, hnone s hreads hends⟩⟩

/-- The grammar `T → x`, `T → A y`, `A → x`. Behind `x` either the first rule is
complete, or the third one is reduced when `y` comes next. -/
def shared : Grammar where
  terms := ⟨#[{ name := "␄", kind := .terminal }, { name := "⚠", kind := .nonterminal },
    { name := "T", kind := .top }, { name := "A", kind := .nonterminal },
    { name := "x", kind := .terminal }, { name := "y", kind := .terminal }], [⟨2⟩]⟩
  numbering := default
  rules := [
    ⟨⟨[⟨4⟩], [.none, .none]⟩, 0, ⟨2⟩, .error⟩,
    ⟨⟨[⟨3⟩, ⟨5⟩], [.none, .none, .none]⟩, 1, ⟨2⟩, .error⟩,
    ⟨⟨[⟨4⟩], [.none, .none]⟩, 2, ⟨3⟩, .error⟩]

/-- What matters of the automaton for that grammar. -/
theorem exists_automaton_shared :
    ∃ a, fullAutomaton shared (FirstTable.ofGrammar shared) [⟨2⟩] .error = .ok a ∧
      (∀ i, (a.state i).terms.Nodup) ∧
      ((a.state 0).start = some ⟨2⟩ ∧ (a.state 0).actions = [.shift ⟨4⟩ 1] ∧
        (a.state 0).gotos = [⟨⟨3⟩, 2⟩]) ∧
      ((a.state 1).actions = [.reduce ⟨5⟩ shared.rules[2]] ∧
        (a.state 1).defaultReduce = some shared.rules[2] ∧ (a.state 1).accepting shared = true) ∧
      (a.state 2).actions = [.shift ⟨5⟩ 3] ∧
      ((a.state 3).actions = [] ∧ (a.state 3).defaultReduce = none ∧
        (a.state 3).accepting shared = true) := by
  have hcheck : (fullAutomaton shared (FirstTable.ofGrammar shared) [⟨2⟩]
      .error).toOption.any (fun a =>
        ((a.state 0).start == some ⟨2⟩ && ((a.state 0).actions == [.shift ⟨4⟩ 1] &&
          (a.state 0).gotos == [⟨⟨3⟩, 2⟩])) &&
        (((a.state 1).actions == [.reduce ⟨5⟩ shared.rules[2]] &&
          ((a.state 1).defaultReduce == some shared.rules[2] && (a.state 1).accepting shared)) &&
        ((a.state 2).actions == [.shift ⟨5⟩ 3] &&
          ((a.state 3).actions == [] && ((a.state 3).defaultReduce == none &&
            (a.state 3).accepting shared))))) = true := by
    cbv
  obtain ⟨a, h, hcheck⟩ := exists_ok_of_any hcheck
  obtain ⟨seeds, hb⟩ := fullAutomaton_built h
  have hnone : shared.NoAmbiguities := by
    unfold Grammar.NoAmbiguities
    decide
  exact ⟨a, h, fun i => hb.nodup_terms hnone, by simpa using hcheck⟩

/-- The word `x y` is accepted when default reductions are taken without looking
ahead, since its run ends in a state that has none. -/
theorem fullAutomaton_eagerlyAccepts_shared :
    ∃ a, fullAutomaton shared (FirstTable.ofGrammar shared) [⟨2⟩] .error = .ok a ∧
      a.EagerlyAccepts shared 0 [⟨4⟩, ⟨5⟩] := by
  obtain ⟨a, h, hone, ⟨hstart, hactions, hgotos⟩, ⟨hactions', _⟩, hactions'', hactions₃, hnone,
    hacc⟩ := exists_automaton_shared
  refine ⟨a, h, ?_⟩
  have hiff := fullAutomaton_eagerlyAccepts_iff h (by decide) hone hstart [⟨4⟩, ⟨5⟩]
  have hshift : .shift ⟨4⟩ 1 ∈ (a.state 0).actions := by simp [hactions]
  have hreduce : .reduce ⟨5⟩ shared.rules[2] ∈ (a.state 1).actions := by simp [hactions']
  have hgoto : ⟨⟨3⟩, 2⟩ ∈ (a.state 0).gotos := by simp [hgotos]
  have hshift' : .shift ⟨5⟩ 3 ∈ (a.state 2).actions := by simp [hactions'']
  have hreads : Automaton.Reads a.Step 0 [⟨4⟩, ⟨5⟩] 3 :=
    ⟨[2, 0], .head (.shift hshift) (.head (.reduce hreduce (.intro rfl hgoto))
      (.head (.shift hshift') .refl))⟩
  exact hiff.1.mpr ⟨3, hreads, ⟨hacc, by simp [State.terms, hactions₃]⟩, hnone⟩

/-- The word `x` is accepted by listed actions, but no longer when default
reductions are taken without looking ahead. -/
theorem fullAutomaton_eagerlyAccepts_less :
    ∃ a, fullAutomaton shared (FirstTable.ofGrammar shared) [⟨2⟩] .error = .ok a ∧
      (∀ i, (a.state i).terms.Nodup) ∧ (a.state 0).start = some ⟨2⟩ ∧
      a.Accepts shared 0 [⟨4⟩] ∧ ¬ a.EagerlyAccepts shared 0 [⟨4⟩] := by
  obtain ⟨a, h, hone, ⟨hstart, hactions, _⟩, ⟨hactions', hdefault, hacc⟩, _⟩ :=
    exists_automaton_shared
  obtain ⟨seeds, hb⟩ := fullAutomaton_built h
  have heof : .eof ∉ (a.state 1).terms := by
    rw [State.terms, hactions']
    decide
  have hshift : .shift ⟨4⟩ 1 ∈ (a.state 0).actions := by simp [hactions]
  refine ⟨a, h, hone, hstart,
    ⟨1, ⟨[0], .head (.shift hshift) .refl⟩, hacc, heof⟩, ?_⟩
  rintro ⟨s, ⟨stack, hreads⟩, hends, hnone⟩
  obtain ⟨hlisted, _⟩ :=
    hb.steps_of_eagerSteps (by decide) hstart hreads .entry hends.1
  rcases Automaton.eq_of_steps_of_one (q := 1) (by simp [hactions]) (by simp [hactions]) heof
    hlisted with heq | heq
  · cases heq
  · cases heq
    rw [hdefault] at hnone
    cases hnone

end GrammarCompiler
