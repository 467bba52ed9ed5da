/-
GrammarCompiler.Proofs.Ambiguity — words with more than one derivation tree.

Where nothing decides between actions there is only one run on a word, and what
it has built so far is settled at every step. So two trees of one word are built
by the same run, one before the other: the run comes to a state where a rule of
the start symbol is complete, goes on all the same, and comes to such a state once
more (`Automaton.EndsTwice`). No conflict is reported then, since a complete rule
of a top symbol has no action that could be in conflict. These are the only
ambiguous words that are left (`fullAutomaton_isUnambiguous_iff`).

  §1 Ends  — runs that end twice.
  §2 Trees — every tree is built.
  §3 Words — which words are ambiguous.
-/
import GrammarCompiler.Proofs.Completeness

namespace GrammarCompiler

/-! ## §1 Ends -/

namespace Automaton

/-- `a.EndsTwice g start word`: at the end of the word a run from `start` comes to
a state that accepts, makes another step, and comes to a state that accepts once
more. -/
def EndsTwice (g : Grammar) (a : Automaton) (start : Nat) (word : List Term) : Prop :=
  ∃ s stack c s' stack', Relation.ReflTransGen a.Step ⟨[start], word⟩ ⟨s :: stack, []⟩ ∧
    (a.state s).accepting g = true ∧ a.Step ⟨s :: stack, []⟩ c ∧
    Relation.ReflTransGen a.Step c ⟨s' :: stack', []⟩ ∧ (a.state s').accepting g = true

/-- A run can only end twice if some state accepts and also has an action for the
end of the input. -/
theorem EndsTwice.exists_state {g : Grammar} {a : Automaton} {start : Nat} {word : List Term}
    (h : a.EndsTwice g start word) :
    ∃ s, (a.state s).accepting g = true ∧ .eof ∈ (a.state s).terms := by
  obtain ⟨s, stack, c, s', stack', _, hacc, hstep, _⟩ := h
  refine ⟨s, hacc, ?_⟩
  cases hstep with
  | reduce listed _ => exact List.mem_map.mpr ⟨_, listed, rfl⟩

end Automaton

/-- Two runs that build trees from the same place have passed through the same
places, where there is at most one step. If both are at the end of the input, in
states that accept, they have built the same trees or the word ends twice. -/
theorem Automaton.Determined.eq_or_endsTwice {g : Grammar} {a : Automaton} (ha : a.Determined)
    {start : Nat} {word : List Term} {s s' : Nat} {stack stack' : List Nat} {f f' : Forest}
    (h : Relation.ReflTransGen a.Builds (⟨[start], word⟩, .nil) (⟨s :: stack, []⟩, f))
    (h' : Relation.ReflTransGen a.Builds (⟨[start], word⟩, .nil) (⟨s' :: stack', []⟩, f'))
    (hacc : (a.state s).accepting g = true) (hacc' : (a.state s').accepting g = true) :
    f = f' ∨ a.EndsTwice g start word := by
  have hunique : Relator.RightUnique a.Builds := fun _ _ _ => ha.builds_eq
  rcases Relation.ReflTransGen.total_of_right_unique hunique h h' with hrest | hrest
  · rcases hrest.cases_head with heq | ⟨c, hfirst, hlast⟩
    · exact .inl (congrArg Prod.snd heq)
    · exact .inr ⟨s, stack, c.1, s', stack', Automaton.steps_of_builds h, hacc, hfirst.step,
        Automaton.steps_of_builds hlast, hacc'⟩
  · rcases hrest.cases_head with heq | ⟨c, hfirst, hlast⟩
    · exact .inl (congrArg Prod.snd heq).symm
    · exact .inr ⟨s', stack', c.1, s, stack, Automaton.steps_of_builds h', hacc', hfirst.step,
        Automaton.steps_of_builds hlast, hacc⟩

/-! ## §2 Trees -/

section

variable {g : Grammar} {noSkip : Term} {starts : List Term} {a : Automaton} {seeds : Array Seed}
  {start : Nat} {t : Term} {word : List Term}

/-- A run builds what stands below the root of any tree of the start symbol, and
comes to a state that accepts. -/
theorem Forest.IsTree.exists_builds
    (hb : Built g (FirstTable.ofGrammar g) noSkip starts a seeds) (hg : g.Plain)
    (htop : ∀ r ∈ g.rules, ∀ t ∈ r.parts, g.terms.isTop t = false)
    (hs : (a.state start).start = some t) (hkind : g.terms.isTop t = true) {f : Forest}
    (hf : f.IsTree g t word) :
    ∃ r body s stack, f = .rule r body .nil ∧ r ∈ g.rules ∧ r.name = t ∧ body.symbols = r.parts ∧
      Relation.ReflTransGen a.Builds (⟨[start], word⟩, .nil) (⟨s :: stack, []⟩, body) ∧
      (a.state s).accepting g = true := by
  obtain ⟨r, body, rfl, hr, rfl, hsymbols, hvalid, rfl⟩ :=
    hf.exists_rule (g.isTerminal_eq_false_of_isTop hkind)
  have hlt := Automaton.lt_size_of_start hs
  have hentry : a.Holds start ⟨r, 0⟩ (([] : List Term).headD .eof) := hb.holds_entry hs hlt hr rfl
  obtain ⟨s, stack, hbuilds, _, _, j, hj, hjd, _⟩ :=
    hb.builds_forest hg htop hvalid hlt hentry hsymbols.symm [] .nil
  rw [List.append_nil] at hbuilds
  rw [hsymbols, Nat.zero_add] at hjd
  refine ⟨r, body, s, stack, rfl, hr, rfl, hsymbols, hbuilds, List.any_eq_true.mpr ⟨j, hj, ?_⟩⟩
  rw [Dotted.atEnd, Item.rule_of_dotted hjd, Item.dot_of_dotted hjd, hkind]
  exact beq_self_eq_true _

/-- A run that ends twice leaves two trees, one with more nodes than the other. -/
theorem Automaton.EndsTwice.exists_trees {table : FirstTable}
    (hb : Built g table noSkip starts a seeds)
    (htop : ∀ r ∈ g.rules, ∀ t ∈ r.parts, g.terms.isTop t = false)
    (hs : (a.state start).start = some t) (h : a.EndsTwice g start word) :
    ∃ f f' : Forest, f.IsTree g t word ∧ f'.IsTree g t word ∧ f.size < f'.size := by
  obtain ⟨s, stack, c, s', stack', hsteps, hacc, hstep, hsteps', hacc'⟩ := h
  have hstart := hasBuilt_start g seeds start word
  obtain ⟨f, _, hbuilt⟩ := hstart.exists_of_steps hb hs hsteps
  obtain ⟨more, hbuilds⟩ := hbuilt.exists_builds hb hs hstep
  obtain ⟨f', hrest, hbuilt'⟩ := (hbuilt.builds hb hs hbuilds).exists_of_steps hb hs hsteps'
  have hsize : more.size = f.size + 1 := hbuilds.size_eq
  have hle : more.size ≤ f'.size := Automaton.size_le_of_builds hrest
  obtain ⟨r, htree⟩ := hbuilt.exists_tree hb htop hs hacc
  obtain ⟨r', htree'⟩ := hbuilt'.exists_tree hb htop hs hacc'
  refine ⟨_, _, htree, htree', ?_⟩
  simp only [Forest.size]
  omega

end

/-! ## §3 Words -/

/-- A word has at most one derivation tree from a symbol. -/
def Grammar.IsUnambiguous (g : Grammar) (t : Term) (word : List Term) : Prop :=
  ∀ f f' : Forest, f.IsTree g t word → f'.IsTree g t word → f = f'

/-- If the full automaton is built for a grammar in which nothing decides between
actions, a word has at most one derivation tree from a top symbol exactly if no run
on it ends twice. -/
theorem fullAutomaton_isUnambiguous_iff {g : Grammar} {starts : List Term} {noSkip : Term}
    {a : Automaton} (h : fullAutomaton g (FirstTable.ofGrammar g) starts noSkip = .ok a)
    (hg : g.Plain) (htop : ∀ r ∈ g.rules, ∀ t ∈ r.parts, g.terms.isTop t = false) {t : Term}
    (ht : t ∈ starts) (hkind : g.terms.isTop t = true) (word : List Term) :
    g.IsUnambiguous t word ↔
      ∀ start, (a.state start).start = some t → ¬ a.EndsTwice g start word := by
  obtain ⟨seeds, hb⟩ := fullAutomaton_built h
  constructor
  · intro hone start hs htwice
    obtain ⟨f, f', hf, hf', hsize⟩ := htwice.exists_trees hb htop hs
    rw [hone f f' hf hf'] at hsize
    exact Nat.lt_irrefl _ hsize
  · intro hends f f' hf hf'
    have hdetermined : a.Determined :=
      ⟨fun i => hb.nodup_terms hg.unmarked.noAmbiguities, fun i => hb.nodup_gotos⟩
    obtain ⟨start, hs⟩ : ∃ start, (a.state start).start = some t := by
      obtain ⟨r, _, _, hr, hname, _⟩ := hf.exists_rule (g.isTerminal_eq_false_of_isTop hkind)
      obtain ⟨start, _, hs⟩ :=
        hb.entries t ht (List.ne_nil_of_mem (Closing.mem_rulesFor.mpr ⟨hr, hname⟩))
      exact ⟨start, hs⟩
    obtain ⟨r, body, s, stack, rfl, hr, hname, hparts, hbuilds, hacc⟩ :=
      hf.exists_builds hb hg htop hs hkind
    obtain ⟨r', body', s', stack', rfl, hr', hname', hparts', hbuilds', hacc'⟩ :=
      hf'.exists_builds hb hg htop hs hkind
    obtain rfl : body = body' :=
      (hdetermined.eq_or_endsTwice hbuilds hbuilds' hacc hacc').resolve_right (hends start hs)
    -- Two rules with the same name and the same parts are one.
    obtain rfl : r = r' := by
      refine List.inj_on_of_nodup_map hg.distinct hr hr' ?_
      rw [hname, hname', ← hparts, ← hparts']
    rfl

/-- In the automaton of that grammar the states that accept have nothing else to do,
so all its words have one tree. -/
theorem fullAutomaton_isUnambiguous_repetition :
    ∃ a, fullAutomaton repetition (FirstTable.ofGrammar repetition) [⟨2⟩] .error = .ok a ∧
      ∀ word, repetition.IsUnambiguous ⟨2⟩ word := by
  have hcheck : (fullAutomaton repetition (FirstTable.ofGrammar repetition) [⟨2⟩]
      .error).toOption.any (fun a =>
        a.toList.all fun s => !(s.accepting repetition) || !s.terms.contains .eof) = true := by
    cbv
  obtain ⟨a, h, hcheck⟩ := exists_ok_of_any hcheck
  have hplain : repetition.Plain := by
    refine ⟨?_, by decide, by decide⟩
    unfold Grammar.Unmarked
    decide
  have hends : ∀ s, (a.state s).accepting repetition = true → .eof ∉ (a.state s).terms := by
    intro s hacc
    by_cases hs : s < a.size
    · have hmem : a.state s ∈ a.toList := by
        rw [Automaton.state, Array.getElem?_eq_getElem hs]
        exact Array.getElem_mem_toList hs
      have hall := List.all_eq_true.mp hcheck _ hmem
      rw [hacc] at hall
      simpa using hall
    · rw [Automaton.state_eq_default (Nat.le_of_not_lt hs)] at hacc
      cases hacc
  refine ⟨a, h, fun word => ?_⟩
  refine (fullAutomaton_isUnambiguous_iff h hplain (by decide) (by decide) (by decide)
    word).mpr fun start _ htwice => ?_
  obtain ⟨s, hacc, heof⟩ := htwice.exists_state
  exact hends s hacc heof

/-- The grammar `T → A`, `T → `, `A → `, `A → x`. -/
def vanishing : Grammar where
  terms := ⟨#[{ name := "␄", kind := .terminal }, { name := "⚠", kind := .nonterminal },
    { name := "T", kind := .top }, { name := "A", kind := .nonterminal },
    { name := "x", kind := .terminal }], [⟨2⟩]⟩
  numbering := default
  rules := [
    ⟨⟨[⟨3⟩], [.none, .none]⟩, 0, ⟨2⟩, .error⟩,
    ⟨⟨[], [.none]⟩, 1, ⟨2⟩, .error⟩,
    ⟨⟨[], [.none]⟩, 2, ⟨3⟩, .error⟩,
    ⟨⟨[⟨4⟩], [.none, .none]⟩, 3, ⟨3⟩, .error⟩]

/-- The full automaton for that grammar is built without a conflict, although the
empty word has two trees. -/
theorem fullAutomaton_vanishing_ambiguous :
    vanishing.Plain ∧ (∀ r ∈ vanishing.rules, ∀ t ∈ r.parts, vanishing.terms.isTop t = false) ∧
      (∃ a, fullAutomaton vanishing (FirstTable.ofGrammar vanishing) [⟨2⟩] .error = .ok a) ∧
      vanishing.terms.isTop ⟨2⟩ = true ∧ ¬ vanishing.IsUnambiguous ⟨2⟩ [] := by
  have hok : (fullAutomaton vanishing (FirstTable.ofGrammar vanishing) [⟨2⟩] .error).isOk =
      true := by
    cbv
  have hplain : vanishing.Plain := by
    refine ⟨?_, by decide, by decide⟩
    unfold Grammar.Unmarked
    decide
  refine ⟨hplain, by decide, ?_, by decide, fun hone => ?_⟩
  · cases h : fullAutomaton vanishing (FirstTable.ofGrammar vanishing) [⟨2⟩] .error with
    | error e =>
      rw [h] at hok
      cases hok
    | ok a => exact ⟨a, rfl⟩
  · have htree : (Forest.rule vanishing.rules[1] .nil .nil).IsTree vanishing ⟨2⟩ [] :=
      ⟨⟨by decide, by decide, rfl, trivial, trivial⟩, rfl, rfl⟩
    have htree' : (Forest.rule vanishing.rules[0]
        (.rule vanishing.rules[2] .nil .nil) .nil).IsTree vanishing ⟨2⟩ [] :=
      ⟨⟨by decide, by decide, rfl, ⟨by decide, by decide, rfl, trivial, trivial⟩, trivial⟩,
        rfl, rfl⟩
    cases hone _ _ htree htree'

end GrammarCompiler
