/-
GrammarCompiler.Proofs.Gotos — whether a reduction can go on.

When a rule is reduced, the state that comes to light has to lead on with the
rule's name. States that do so are on a trail: each one was come to by a shift or
a goto of the state below. The first part of a rule that is not empty led on from
the state where the rule began. So that state still reads a terminal that the
name can begin with, and keeps its goto for the name (`Built.exists_goto_of_begun`).
A state can forget its goto only for a name with an empty rule, and then a
reduction by this rule gets stuck (`fullAutomaton_exists_goto_iff`).

  §1 Trails     — states that lead to one another by what they list.
  §2 Rules      — the state where a rule began.
  §3 Reductions — when there is a goto for the name of a rule.
-/
import GrammarCompiler.Proofs.DefaultReductions

namespace GrammarCompiler

/-! ## §1 Trails -/

namespace Automaton

/-- `a.Links p t q`: a state leads to another by a shift or a goto. -/
inductive Links (a : Automaton) (p : Nat) (t : Term) (q : Nat) : Prop where
  | shift (listed : .shift t q ∈ (a.state p).actions)
  | goto (leads : ⟨t, q⟩ ∈ (a.state p).gotos)

/-- `a.Trail start stack symbols`: from state `start` the states of `stack` lead to
one another by `symbols`, the last one first. -/
inductive Trail (a : Automaton) (start : Nat) : List Nat → List Term → Prop where
  | entry : Trail a start [start] []
  | push {p q : Nat} {stack : List Nat} {symbol : Term} {symbols : List Term}
      (below : Trail a start (p :: stack) symbols) (links : a.Links p symbol q) :
      Trail a start (q :: p :: stack) (symbol :: symbols)

variable {a : Automaton} {start : Nat}

/-- A trail from an earlier state on the stack. -/
theorem Trail.drop {stack : List Nat} {symbols : List Term} (h : a.Trail start stack symbols)
    {n p : Nat} {below : List Nat} (hn : stack.drop n = p :: below) :
    a.Trail start (p :: below) (symbols.drop n) := by
  induction h generalizing n with
  | entry =>
    cases n with
    | zero =>
      cases hn
      exact .entry
    | succ n => simp at hn
  | push hbelow hlinks ih =>
    cases n with
    | zero =>
      cases hn
      exact .push hbelow hlinks
    | succ n => exact ih hn

/-- The states that a run has entered are on a trail. -/
theorem Entered.trail {word symbols : List Term} {c : Config}
    (h : a.Entered start word c symbols) : a.Trail start c.stack symbols := by
  induction h with
  | start => exact .entry
  | shift _ listed ih => exact ih.push (.shift listed)
  | reduce _ _ uncovers leads ih => exact (ih.drop uncovers).push (.goto leads)

end Automaton

section

variable {g : Grammar} {table : FirstTable} {noSkip : Term} {starts : List Term} {a : Automaton}
  {seeds : Array Seed} {start : Nat} {t : Term}

theorem Built.leads_of_links (hb : Built g table noSkip starts a seeds) {p q : Nat} {u : Term}
    (h : a.Links p u q) : Leads g seeds p u q := by
  cases h with
  | shift listed => exact ((hb.fits p (Automaton.lt_size_of_mem_actions listed)).actions _ listed).2
  | goto leads => exact ((hb.fits p (Automaton.lt_size_of_mem_gotos leads)).gotos _ leads).2

/-- A trail is a path. -/
theorem Automaton.Trail.path (hb : Built g table noSkip starts a seeds) {stack : List Nat}
    {symbols : List Term} (h : a.Trail start stack symbols) :
    Path g seeds start stack symbols := by
  induction h with
  | entry => exact .entry
  | push _ links ih => exact ih.push (hb.leads_of_links links)

/-! ## §2 Rules -/

/-- The state where a rule began leads on with the first part of the rule, once
something of it has been read. -/
theorem Automaton.Trail.exists_first (hb : Built g table noSkip starts a seeds)
    (hs : (a.state start).start = some t) {q : Nat} {stack : List Nat} {symbols : List Term}
    (h : a.Trail start (q :: stack) symbols) {i : Item} (hi : i ∈ (a.state q).items)
    (hd : i.dot ≠ 0) :
    ∃ p below, (q :: stack).drop i.dot = p :: below ∧
      ∃ x parts q', i.rule.parts = x :: parts ∧ a.Links p x q' := by
  generalize hstack : q :: stack = whole at h
  induction h generalizing q stack i with
  | entry =>
    cases hstack
    obtain ⟨_, p, below, hdrop, _⟩ := hb.exists_origin hs .entry hi
    obtain ⟨n, hn⟩ := Nat.exists_eq_succ_of_ne_zero hd
    simp [hn] at hdrop
  | @push p q' below symbol symbols _ links ih =>
    cases hstack
    obtain ⟨seed, hseed, hitems, _, hgrown⟩ := hb.exists_seed (Automaton.lt_size_of_mem_items hi)
    obtain ⟨source, hsource, j, hj, hnext, hdotted, _⟩ :=
      (hb.leads_of_links links).exists_source hseed hgrown (hitems ▸ hi) hd
    rw [← (hb.eq_of_seed hsource).1] at hj
    rw [Item.rule_of_dotted hdotted, Item.dot_of_dotted hdotted]
    by_cases hjd : j.dot = 0
    · rw [Dotted.next?, hjd] at hnext
      obtain ⟨x, parts, hparts⟩ := List.exists_cons_of_ne_nil
        (List.ne_nil_of_mem (List.mem_of_getElem? hnext))
      have hx : symbol = x := by simpa [hparts] using hnext.symm
      exact ⟨p, below, by simp [hjd], x, parts, q', hparts, hx ▸ links⟩
    · exact ih hj hjd rfl

/-- Where a rule began that is not for a top symbol, an item reads its name. -/
theorem Built.exists_starter (hb : Built g table noSkip starts a seeds)
    (hs : (a.state start).start = some t) (hkind : g.terms.isTop t = true) {p : Nat}
    {below : List Nat} {symbols : List Term} (hpath : Path g seeds start (p :: below) symbols)
    {j : Item} (hj : j ∈ (a.state p).items) (hd : j.dot = 0)
    (hj' : g.terms.isTop j.rule.name = false) :
    g.isTerminal j.rule.name = false ∧ ∃ i ∈ (a.state p).items, i.next? = some j.rule.name := by
  obtain ⟨seed, hseed, hitems, hstart, hgrown⟩ := hb.exists_seed (Automaton.lt_size_of_mem_items hj)
  rw [hitems] at hj ⊢
  have hkernel : j ∉ seed.kernel := by
    intro hk
    cases hpath with
    | entry =>
      rw [hgrown.kernel_eq_entry (hstart.symm.trans hs)] at hk
      obtain ⟨hr, _⟩ := Grown.mem_entryItems (Item.mem_sort.mp hk)
      rw [(Closing.mem_rulesFor.mp hr).2, hkind] at hj'
      cases hj'
    | push _ hleads => exact hleads.kernel_dot_ne_zero hseed j hk hd
  have hsound := (closure_sound hgrown.closed hj).resolve_left hkernel
  exact ⟨hsound.nonterminal, (closure_starter hgrown.closed hj).resolve_left hkernel⟩

/-- Taking off what has been read of a rule uncovers a state where the rule begins and its name
is read. -/
theorem Built.exists_uncovered (hb : Built g table noSkip starts a seeds)
    (hs : (a.state start).start = some t) (hkind : g.terms.isTop t = true) {s : Nat}
    {stack : List Nat} {symbols : List Term} (htrail : a.Trail start (s :: stack) symbols)
    {k : Item} (hk : k ∈ (a.state s).items) (hk' : g.terms.isTop k.rule.name = false) :
    ∃ p below, (s :: stack).drop k.dot = p :: below ∧
      (∃ j ∈ (a.state p).items, j.toDotted = ⟨k.rule, 0⟩) ∧
      g.isTerminal k.rule.name = false ∧
      ∃ i ∈ (a.state p).items, i.next? = some k.rule.name := by
  obtain ⟨_, p, below, hdrop, j, hj, hjd, _⟩ := hb.exists_origin hs (htrail.path hb) hk
  have hrule : j.rule = k.rule := Item.rule_of_dotted hjd
  have hstarter := hb.exists_starter hs hkind ((htrail.drop hdrop).path hb) hj
    (Item.dot_of_dotted hjd) (hrule ▸ hk')
  rw [hrule] at hstarter
  exact ⟨p, below, hdrop, ⟨j, hj, hjd⟩, hstarter⟩

end

/-! ## §3 Reductions -/

section

variable {g : Grammar} {noSkip : Term} {starts : List Term} {a : Automaton} {seeds : Array Seed}
  {start : Nat} {t : Term}

/-- What a rule can begin with, its name can begin with. -/
theorem contains_first_of_parts {r : Rule} (hr : r ∈ g.rules) (hn : g.isTerminal r.name = false)
    {x : Term} {parts : List Term} (hparts : r.parts = x :: parts) {u : Term}
    (hu : g.isTerminal x = true ∧ u = x ∨ g.isTerminal x = false ∧
      (((FirstTable.ofGrammar g).first x).terminals.contains u = true)) :
    ((FirstTable.ofGrammar g).first r.name).terminals.contains u = true := by
  apply (FirstTable.closed_ofGrammar g).terminals r hr hn
  rw [hparts]
  unfold FirstTable.beginnings
  rcases hu with ⟨hx, rfl⟩ | ⟨hx, hu⟩
  · simp [hx, TermSet.contains_insert]
  · simp only [hx, Bool.false_eq_true, if_false]
    split
    · exact TermSet.contains_union_of_left hu
    · exact hu

/-- The state where a rule began has a goto for the rule's name, once something of
the rule has been read. -/
theorem Built.exists_goto_of_begun (hb : Built g (FirstTable.ofGrammar g) noSkip starts a seeds)
    (hs : (a.state start).start = some t) (hkind : g.terms.isTop t = true) {s : Nat}
    {stack : List Nat} {symbols : List Term} (htrail : a.Trail start (s :: stack) symbols)
    {k : Item} (hk : k ∈ (a.state s).items) (hd : k.dot ≠ 0)
    (hk' : g.terms.isTop k.rule.name = false) :
    ∃ p below, (s :: stack).drop k.dot = p :: below ∧
      ∃ q, ⟨k.rule.name, q⟩ ∈ (a.state p).gotos := by
  obtain ⟨p, below, hdrop, x, parts, q, hparts, hlinks⟩ := htrail.exists_first hb hs hk hd
  obtain ⟨p', below', hdrop', ⟨j, hj, hjd⟩, hn, hstarter⟩ :=
    hb.exists_uncovered hs hkind htrail hk hk'
  obtain ⟨rfl, rfl⟩ := List.cons.inj (hdrop'.symm.trans hdrop)
  refine ⟨p', below', hdrop, (hb.exists_goto_iff hstarter hn).mpr ?_⟩
  rw [State.forgets_eq_false_iff]
  intro hreplaces
  -- A terminal that the first part begins with is still read.
  cases hlinks with
  | shift listed =>
    have hx := ((hb.fits p' (Automaton.lt_size_of_mem_actions listed)).actions _ listed).1
    exact ⟨x, q, listed, contains_first_of_parts (hb.rule_mem hk) hn hparts (.inl ⟨hx, rfl⟩)⟩
  | goto leads =>
    have hx := ((hb.fits p' (Automaton.lt_size_of_mem_gotos leads)).gotos _ leads).1
    have hreads : ∃ i ∈ (a.state p').items, i.next? = some x :=
      ⟨j, hj, by rw [hjd, Dotted.next?, hparts]; rfl⟩
    have hkept := (hb.exists_goto_iff hreads hx).mp ⟨q, leads⟩
    obtain ⟨u, q', listed, hu⟩ := State.forgets_eq_false_iff.mp hkept hreplaces
    exact ⟨u, q', listed, contains_first_of_parts (hb.rule_mem hk) hn hparts (.inr ⟨hx, hu⟩)⟩

/-- A listed reduction in a run uncovers a state with a goto for the name of the
rule, unless the rule is empty and the state forgets the name. This holds whatever
conflicts were decided. -/
theorem fullAutomaton_exists_goto_iff
    (h : fullAutomaton g (FirstTable.ofGrammar g) starts noSkip = .ok a)
    (hs : (a.state start).start = some t) (hkind : g.terms.isTop t = true) {word : List Term}
    {s : Nat} {stack : List Nat} {rest : List Term}
    (hrun : Relation.ReflTransGen a.Step ⟨[start], word⟩ ⟨s :: stack, rest⟩) {r : Rule}
    (hr : .reduce (rest.headD .eof) r ∈ (a.state s).actions) :
    ∃ p below, (s :: stack).drop r.parts.length = p :: below ∧
      ((∃ q, ⟨r.name, q⟩ ∈ (a.state p).gotos) ↔
        ¬(r.parts = [] ∧ (a.state p).forgets g (FirstTable.ofGrammar g) r.name = true)) := by
  obtain ⟨seeds, hb⟩ := fullAutomaton_built h
  obtain ⟨symbols, hentered⟩ := Automaton.exists_entered hrun
  have htrail := hentered.trail
  have hfits := hb.fits s (Automaton.lt_size_of_mem_actions hr)
  obtain ⟨k, hk, rfl, hend, hk', _⟩ := hfits.actions _ hr
  have hd : k.dot = k.rule.parts.length := by simpa [Dotted.atEnd] using hend
  rw [← hd]
  by_cases hparts : k.rule.parts = []
  · obtain ⟨p, below, hdrop, _, hn, hstarter⟩ := hb.exists_uncovered hs hkind htrail hk hk'
    refine ⟨p, below, hdrop, ?_⟩
    rw [hb.exists_goto_iff hstarter hn]
    simp [hparts]
  · have hne : k.dot ≠ 0 := by
      rw [hd]
      exact fun hzero => hparts (List.eq_nil_of_length_eq_zero hzero)
    obtain ⟨p, below, hdrop, hgoto⟩ := hb.exists_goto_of_begun hs hkind htrail hk hne hk'
    exact ⟨p, below, hdrop, fun _ hempty => hparts hempty.1, fun _ => hgoto⟩

end

/-- Behind `x` the state comes to light where `A` began, and it has a goto. -/
theorem fullAutomaton_exists_goto_shared :
    ∃ a, fullAutomaton shared (FirstTable.ofGrammar shared) [⟨2⟩] .error = .ok a ∧
      Relation.ReflTransGen a.Step ⟨[0], [⟨4⟩, ⟨5⟩]⟩ ⟨[1, 0], [⟨5⟩]⟩ ∧
      .reduce ⟨5⟩ shared.rules[2] ∈ (a.state 1).actions ∧
      ∃ q, ⟨⟨3⟩, q⟩ ∈ (a.state 0).gotos := by
  obtain ⟨a, h, _, ⟨hstart, hactions, _⟩, ⟨hactions', _⟩, _⟩ := exists_automaton_shared
  have hshift : .shift ⟨4⟩ 1 ∈ (a.state 0).actions := by simp [hactions]
  have hrun : Relation.ReflTransGen a.Step ⟨[0], [⟨4⟩, ⟨5⟩]⟩ ⟨[1, 0], [⟨5⟩]⟩ :=
    .head (.shift hshift) .refl
  have hreduce : .reduce ⟨5⟩ shared.rules[2] ∈ (a.state 1).actions := by simp [hactions']
  obtain ⟨p, below, hdrop, hiff⟩ :=
    fullAutomaton_exists_goto_iff h hstart (by decide) hrun hreduce
  cases hdrop
  exact ⟨a, h, hrun, hreduce, hiff.mpr fun hempty => absurd hempty.1 (by decide)⟩

/-- The grammar `T → A x`, `T → x y`, `A → `, in which beginning with `A` is
preferred. -/
def preferring : Grammar where
  terms := ⟨#[{ name := "␄", kind := .terminal }, { name := "⚠", kind := .nonterminal },
    { name := "T", kind := .top }, { name := "A", kind := .nonterminal },
    { name := "x", kind := .terminal }, { name := "y", kind := .terminal }], [⟨2⟩]⟩
  numbering := default
  rules := [
    ⟨⟨[⟨3⟩, ⟨4⟩], [{ precedence := 1 }, .none, .none]⟩, 0, ⟨2⟩, .error⟩,
    ⟨⟨[⟨4⟩, ⟨5⟩], [.none, .none, .none]⟩, 1, ⟨2⟩, .error⟩,
    ⟨⟨[], [.none]⟩, 2, ⟨3⟩, .error⟩]

/-- When `x` comes next, the run for that grammar reduces by the empty rule at
once, and has no goto to go on with. -/
theorem fullAutomaton_gets_stuck :
    ∃ a, fullAutomaton preferring (FirstTable.ofGrammar preferring) [⟨2⟩] .error = .ok a ∧
      (a.state 0).start = some ⟨2⟩ ∧
      .reduce ⟨4⟩ preferring.rules[2] ∈ (a.state 0).actions ∧
      Relation.ReflTransGen a.Step ⟨[0], [⟨4⟩]⟩ ⟨[0], [⟨4⟩]⟩ ∧
      ∀ q, ⟨⟨3⟩, q⟩ ∉ (a.state 0).gotos := by
  have hcheck : (fullAutomaton preferring (FirstTable.ofGrammar preferring) [⟨2⟩]
      .error).toOption.any (fun a =>
        (a.state 0).start == some ⟨2⟩ &&
          ((a.state 0).actions == [.reduce ⟨4⟩ preferring.rules[2]] &&
            (a.state 0).gotos == [])) = true := by
    cbv
  obtain ⟨a, h, hcheck⟩ := exists_ok_of_any hcheck
  obtain ⟨hstart, hactions, hgotos⟩ : (a.state 0).start = some ⟨2⟩ ∧
      (a.state 0).actions = [.reduce ⟨4⟩ preferring.rules[2]] ∧ (a.state 0).gotos = [] := by
    simpa using hcheck
  exact ⟨a, h, hstart, by simp [hactions], .refl, by simp [hgotos]⟩

end GrammarCompiler
