/-
GrammarCompiler.Proofs.Soundness — automata accept only what is derived.

In a run, each state on the stack was entered on a symbol, and these symbols
stand for what has been read. That a reduction takes off the states of its
rule's parts follows from a path: reading leads from each state on the stack to
the next one, and an item tells what was read last on any path to its state.

  §1 Paths  — states, each of which the one below leads to.
  §2 Traces — runs, with the symbols that states were entered on.
  §3 Runs   — what has been read, and when it is accepted.
-/
import GrammarCompiler.Proofs.Construction
import GrammarCompiler.Proofs.Derivation
import Mathlib

namespace GrammarCompiler

/-! ## §1 Paths -/

/-- `Path g seeds start stack symbols`: reading `symbols`, the last one first,
leads from state `start` through the states of `stack`. -/
inductive Path (g : Grammar) (seeds : Array Seed) (start : Nat) : List Nat → List Term → Prop where
  | entry : Path g seeds start [start] []
  | push {p q : Nat} {stack : List Nat} {symbol : Term} {symbols : List Term}
      (below : Path g seeds start (p :: stack) symbols) (leads : Leads g seeds p symbol q) :
      Path g seeds start (q :: p :: stack) (symbol :: symbols)

namespace Path

variable {g : Grammar} {table : FirstTable} {noSkip : Term} {seeds : Array Seed} {start : Nat}

/-- A path from an earlier state on the stack. -/
theorem drop {stack : List Nat} {symbols : List Term} (h : Path g seeds start stack symbols)
    {n : Nat} {p : Nat} {below : List Nat} (hn : stack.drop n = p :: below) :
    Path g seeds start (p :: below) (symbols.drop n) := by
  induction h generalizing n with
  | entry =>
    cases n with
    | zero =>
      cases hn
      exact .entry
    | succ n => simp at hn
  | push hbelow hleads ih =>
    cases n with
    | zero =>
      cases hn
      exact .push hbelow hleads
    | succ n => exact ih hn

/-- What an item of the last state has read was read last on the path, and the
rule began in the state before that, with the same ahead. -/
theorem item_read (hgrown : ∀ (p : Nat) seed, seeds[p]? = some seed → Grown g table noSkip seed)
    {first : Seed} {t : Term} (hfirst : seeds[start]? = some first) (ht : first.start = some t)
    {q : Nat} {stack : List Nat} {symbols : List Term}
    (h : Path g seeds start (q :: stack) symbols) {seed : Seed} (hq : seeds[q]? = some seed)
    {i : Item} (hi : i ∈ seed.items) :
    symbols.take i.dot = (i.rule.parts.take i.dot).reverse ∧
      ∃ p below origin, (q :: stack).drop i.dot = p :: below ∧ seeds[p]? = some origin ∧
        ∃ j ∈ origin.items, j.toDotted = ⟨i.rule, 0⟩ ∧ j.ahead = i.ahead := by
  generalize hstack : q :: stack = whole at h
  induction h generalizing q stack seed i with
  | entry =>
    cases hstack
    cases hfirst.symm.trans hq
    have hg := hgrown start first hfirst
    have hd : i.dot = 0 := by
      rcases closure_sound hg.closed hi with hk | hs
      · rw [hg.kernel_eq_entry ht] at hk
        exact (Grown.mem_entryItems (Item.mem_sort.mp hk)).2.1
      · exact hs.dot
    rw [hd]
    refine ⟨rfl, start, [], first, rfl, hfirst, i, hi, ?_, rfl⟩
    rw [← hd]
  | @push p q' below symbol symbols hbelow hleads ih =>
    cases hstack
    rcases Nat.eq_zero_or_pos i.dot with hd | hd
    · rw [hd]
      refine ⟨rfl, q', p :: below, seed, rfl, hq, i, hi, ?_, rfl⟩
      rw [← hd]
    · obtain ⟨source, hs, j, hj, hnext, hdotted, hahead⟩ :=
        hleads.exists_source hq (hgrown q' seed hq) hi (Nat.ne_of_gt hd)
      have hrule : i.rule = j.rule := Item.rule_of_dotted hdotted
      have hdot : i.dot = j.dot + 1 := Item.dot_of_dotted hdotted
      obtain ⟨htake, p', below', origin, hdrop, hp', k, hk, hkd, hka⟩ := ih hs hj rfl
      rw [hrule, hdot]
      refine ⟨?_, p', below', origin, hdrop, hp', k, hk, hkd, hka.trans hahead.symm⟩
      have hparts : j.rule.parts.take (j.dot + 1) = j.rule.parts.take j.dot ++ [symbol] := by
        rw [List.take_add_one, show j.rule.parts[j.dot]? = some symbol from hnext]
        rfl
      rw [hparts, List.reverse_append, List.reverse_singleton, List.singleton_append,
        List.take_succ_cons, htake]

/-- A rule of a top symbol begins in the entry state of the symbol only. -/
theorem eq_start_of_top (htop : ∀ r ∈ g.rules, ∀ t ∈ r.parts, g.terms.isTop t = false)
    (hgrown : ∀ (p : Nat) seed, seeds[p]? = some seed → Grown g table noSkip seed)
    {first : Seed} {t : Term} (hfirst : seeds[start]? = some first) (ht : first.start = some t)
    {p : Nat} {below : List Nat} {symbols : List Term}
    (h : Path g seeds start (p :: below) symbols) {seed : Seed} (hp : seeds[p]? = some seed)
    {i : Item} (hi : i ∈ seed.items) (hd : i.dot = 0) (hi' : g.terms.isTop i.rule.name = true) :
    symbols = [] ∧ i.rule.name = t := by
  have hg := hgrown p seed hp
  have hk := hg.mem_kernel_of_top htop hi hi'
  cases h with
  | entry =>
    cases hfirst.symm.trans hp
    rw [hg.kernel_eq_entry ht] at hk
    obtain ⟨hr, _⟩ := Grown.mem_entryItems (Item.mem_sort.mp hk)
    exact ⟨rfl, (Closing.mem_rulesFor.mp hr).2⟩
  | push hbelow hleads => exact absurd hd (hleads.kernel_dot_ne_zero hp i hk)

end Path

/-! ## §2 Traces -/

namespace Automaton

/-- `Entered a start word c symbols`: a run on `word` has come to `c`, and the
states after the first, which are still on the stack, were entered on
`symbols`, the last one first. -/
inductive Entered (a : Automaton) (start : Nat) (word : List Term) :
    Config → List Term → Prop where
  | start : Entered a start word ⟨[start], word⟩ []
  | shift {s q : Nat} {t : Term} {stack : List Nat} {rest symbols : List Term}
      (before : Entered a start word ⟨s :: stack, t :: rest⟩ symbols)
      (listed : .shift t q ∈ (a.state s).actions) :
      Entered a start word ⟨q :: s :: stack, rest⟩ (t :: symbols)
  | reduce {s p q : Nat} {r : Rule} {stack below : List Nat} {rest symbols : List Term}
      (before : Entered a start word ⟨s :: stack, rest⟩ symbols)
      (listed : .reduce (rest.headD .eof) r ∈ (a.state s).actions)
      (uncovers : (s :: stack).drop r.parts.length = p :: below)
      (leads : ⟨r.name, q⟩ ∈ (a.state p).gotos) :
      Entered a start word ⟨q :: p :: below, rest⟩ (r.name :: symbols.drop r.parts.length)

/-- Every run has a trace. -/
theorem exists_entered {a : Automaton} {start : Nat} {word : List Term} {c : Config}
    (h : Relation.ReflTransGen a.Step ⟨[start], word⟩ c) :
    ∃ symbols, Entered a start word c symbols := by
  induction h with
  | refl => exact ⟨[], .start⟩
  | tail _ last ih =>
    obtain ⟨symbols, before⟩ := ih
    cases last with
    | shift listed => exact ⟨_, .shift before listed⟩
    | reduce listed reduces =>
      cases reduces with
      | intro uncovers leads => exact ⟨_, .reduce before listed uncovers leads⟩

end Automaton

/-! ## §3 Runs -/

section

variable {g : Grammar} {table : FirstTable} {noSkip : Term} {starts : List Term} {a : Automaton}
  {seeds : Array Seed} {start : Nat} {t : Term}

/-- The items of a complete rule tell what was read last. -/
theorem Built.take_of_atEnd (hb : Built g table noSkip starts a seeds)
    (hs : (a.state start).start = some t) {s : Nat} {stack : List Nat} {symbols : List Term}
    (hp : Path g seeds start (s :: stack) symbols) (hlt : s < a.size) {i : Item}
    (hi : i ∈ (a.state s).items) (hend : i.atEnd = true) :
    symbols.take i.rule.parts.length = i.rule.parts.reverse ∧
      ∃ p below origin, (s :: stack).drop i.rule.parts.length = p :: below ∧
        seeds[p]? = some origin ∧
          ∃ j ∈ origin.items, j.toDotted = ⟨i.rule, 0⟩ ∧ j.ahead = i.ahead := by
  obtain ⟨first, hfirst, _, hstart⟩ := (hb.fits start (Automaton.lt_size_of_start hs)).seed
  obtain ⟨seed, hseed, hitems, _⟩ := (hb.fits s hlt).seed
  have hd : i.dot = i.rule.parts.length := by simpa [Dotted.atEnd] using hend
  have hread := hp.item_read hb.grown hfirst (hstart.symm.trans hs) hseed (hitems ▸ hi)
  rw [hd, List.take_length] at hread
  exact hread

/-- What was read last, as much as a rule has parts, are the parts of the
rule. -/
theorem reverse_eq_of_take {symbols parts : List Term}
    (h : symbols.take parts.length = parts.reverse) :
    symbols.reverse = (symbols.drop parts.length).reverse ++ parts := by
  calc symbols.reverse
      = (symbols.take parts.length ++ symbols.drop parts.length).reverse := by
        rw [List.take_append_drop]
    _ = (symbols.drop parts.length).reverse ++ parts := by
        rw [List.reverse_append, h, List.reverse_reverse]

/-- What a run has read is what the symbols stand for that its states were
entered on. -/
theorem Built.path_of_entered (hb : Built g table noSkip starts a seeds)
    (hs : (a.state start).start = some t) {word symbols : List Term} {c : Config}
    (h : a.Entered start word c symbols) :
    Path g seeds start c.stack symbols ∧
      ∃ read, word = read ++ c.rest ∧ Derives g.isTerminal g.rules symbols.reverse read := by
  induction h with
  | start => exact ⟨.entry, [], rfl, .nil⟩
  | @shift s q t stack rest symbols _ listed ih =>
    obtain ⟨hpath, read, hword, hread⟩ := ih
    have hfits := hb.fits s (Automaton.lt_size_of_mem_actions listed)
    obtain ⟨hterminal, hleads⟩ := hfits.actions _ listed
    refine ⟨hpath.push hleads, read ++ [t], by rw [hword, List.append_assoc]; rfl, ?_⟩
    rw [List.reverse_cons]
    exact hread.append (.of_terminal hterminal)
  | @reduce s p q r stack below rest symbols _ listed uncovers leads ih =>
    obtain ⟨hpath, read, hword, hread⟩ := ih
    have hlt := Automaton.lt_size_of_mem_actions listed
    obtain ⟨i, hi, rfl, hend, _⟩ := (hb.fits s hlt).actions _ listed
    obtain ⟨hterminal, hleads⟩ := (hb.fits p (Automaton.lt_size_of_mem_gotos leads)).gotos _ leads
    obtain ⟨htake, _⟩ := hb.take_of_atEnd hs hpath hlt hi hend
    obtain ⟨seed, hseed, hitems, _⟩ := (hb.fits s hlt).seed
    have hrule : i.rule ∈ g.rules := (hb.grown s seed hseed).rule_mem i (hitems ▸ hi)
    refine ⟨(hpath.drop uncovers).push hleads, read, hword, ?_⟩
    rw [reverse_eq_of_take htake] at hread
    obtain ⟨u, v, rfl, hu, hv⟩ := hread.exists_of_append
    rw [List.reverse_cons]
    exact hu.append (.of_rule hrule hterminal hv)

/-- Where a top rule is complete, a rule of the start symbol has been read. -/
theorem Built.exists_rule_of_accepting (hb : Built g table noSkip starts a seeds)
    (htop : ∀ r ∈ g.rules, ∀ t ∈ r.parts, g.terms.isTop t = false)
    (hs : (a.state start).start = some t) {s : Nat} {stack : List Nat} {symbols : List Term}
    (hpath : Path g seeds start (s :: stack) symbols) (hacc : (a.state s).accepting g = true) :
    ∃ r ∈ g.rules, r.name = t ∧ g.isTerminal t = false ∧ symbols.reverse = r.parts := by
  obtain ⟨i, hi, hcomplete⟩ := List.any_eq_true.mp hacc
  obtain ⟨hi', hend⟩ := (Bool.and_eq_true _ _).mp hcomplete
  have hlt := Automaton.lt_size_of_mem_items hi
  -- The rule of the top symbol began in a state at the bottom of the stack.
  obtain ⟨htake, p, below, origin, hdrop, hp, j, hj, hjd, _⟩ :=
    hb.take_of_atEnd hs hpath hlt hi hend
  obtain ⟨first, hfirst, _, hstart⟩ := (hb.fits start (Automaton.lt_size_of_start hs)).seed
  have hjrule : j.rule = i.rule := Item.rule_of_dotted hjd
  obtain ⟨hnil, hname⟩ := (hpath.drop hdrop).eq_start_of_top htop hb.grown hfirst
    (hstart.symm.trans hs) hp hj (Item.dot_of_dotted hjd) (hjrule ▸ hi')
  have hrule : i.rule ∈ g.rules := hjrule ▸ (hb.grown p origin hp).rule_mem j hj
  refine ⟨i.rule, hrule, hjrule ▸ hname, ?_, ?_⟩
  · rw [← hname, hjrule]
    exact g.isTerminal_eq_false_of_isTop hi'
  · rw [reverse_eq_of_take htake, hnil]
    rfl

/-- A run that may end has read what its start symbol stands for. -/
theorem Built.generates_of_entered (hb : Built g table noSkip starts a seeds)
    (htop : ∀ r ∈ g.rules, ∀ t ∈ r.parts, g.terms.isTop t = false)
    (hs : (a.state start).start = some t) {word symbols : List Term} {s : Nat} {stack : List Nat}
    (h : a.Entered start word ⟨s :: stack, []⟩ symbols)
    (hacc : (a.state s).accepting g = true) : g.Generates t word := by
  obtain ⟨hpath, read, hword, hread⟩ := hb.path_of_entered hs h
  obtain ⟨r, hr, rfl, hn, hparts⟩ := hb.exists_rule_of_accepting htop hs hpath hacc
  rw [List.append_nil] at hword
  rw [hparts, ← hword] at hread
  exact .of_rule hr hn hread

/-- A listed reduction takes off states that were entered on the parts of its
rule. -/
theorem Built.take_of_listed (hb : Built g table noSkip starts a seeds)
    (hs : (a.state start).start = some t) {word rest symbols : List Term} {s : Nat}
    {stack : List Nat} (h : a.Entered start word ⟨s :: stack, rest⟩ symbols) {r : Rule} {u : Term}
    (hr : .reduce u r ∈ (a.state s).actions) :
    r.parts.length ≤ stack.length ∧ (symbols.take r.parts.length).reverse = r.parts := by
  obtain ⟨hpath, _⟩ := hb.path_of_entered hs h
  have hlt := Automaton.lt_size_of_mem_actions hr
  obtain ⟨i, hi, rfl, hend, _⟩ := (hb.fits s hlt).actions _ hr
  obtain ⟨htake, p, below, _, hdrop, _⟩ := hb.take_of_atEnd hs hpath hlt hi hend
  have hlength := congrArg List.length hdrop
  rw [List.length_drop, List.length_cons, List.length_cons] at hlength
  exact ⟨by omega, by rw [htake, List.reverse_reverse]⟩

end

/-- What the automaton of a grammar accepts from the entry state of a symbol is
derived from the symbol, whatever conflicts were decided and whichever of
several actions a run takes, if top symbols do not occur in rules. Each
reduction in a run takes off states that were entered on the parts of its
rule. -/
theorem fullAutomaton_sound {g : Grammar} {table : FirstTable} {starts : List Term}
    {noSkip : Term} {a : Automaton} (h : fullAutomaton g table starts noSkip = .ok a)
    (htop : ∀ r ∈ g.rules, ∀ t ∈ r.parts, g.terms.isTop t = false) {start : Nat} {t : Term}
    (hs : (a.state start).start = some t) :
    (∀ word s, Automaton.Reads a.Step start word s → (a.state s).accepting g = true →
      g.Generates t word) ∧
    ∀ word s stack rest symbols, a.Entered start word ⟨s :: stack, rest⟩ symbols →
      ∀ r, .reduce (rest.headD .eof) r ∈ (a.state s).actions →
        r.parts.length ≤ stack.length ∧
          (symbols.take r.parts.length).reverse = r.parts := by
  obtain ⟨seeds, hb⟩ := fullAutomaton_built h
  refine ⟨?_, fun word s stack rest symbols hentered r hr => hb.take_of_listed hs hentered hr⟩
  rintro word s ⟨stack, hsteps⟩ hacc
  obtain ⟨symbols, hentered⟩ := Automaton.exists_entered hsteps
  exact hb.generates_of_entered htop hs hentered hacc

/-- The grammar `T → E`, `E → x`, `E → E o E`, in which an operation that is
complete is preferred to a longer one. -/
def operations : Grammar where
  terms := ⟨#[{ name := "␄", kind := .terminal }, { name := "⚠", kind := .nonterminal },
    { name := "T", kind := .top }, { name := "E", kind := .nonterminal },
    { name := "x", kind := .terminal }, { name := "o", kind := .terminal }], [⟨2⟩]⟩
  numbering := default
  rules := [
    ⟨⟨[⟨3⟩], [.none, .none]⟩, 0, ⟨2⟩, .error⟩,
    ⟨⟨[⟨4⟩], [.none, .none]⟩, 1, ⟨3⟩, .error⟩,
    ⟨⟨[⟨3⟩, ⟨5⟩, ⟨3⟩], [.none, .none, .none, { precedence := 1 }]⟩, 2, ⟨3⟩, .error⟩]

/-- Behind the first `x o x` of `x o x o x` the next `o` could be read as well, and the
operation that is complete is reduced instead. -/
theorem fullAutomaton_sound_operations :
    ∃ a, fullAutomaton operations (FirstTable.ofGrammar operations) [⟨2⟩] .error = .ok a ∧
      (a.state 4).actions =
        [.reduce .eof operations.rules[2], .reduce ⟨5⟩ operations.rules[2]] ∧
      (∃ symbols, a.Entered 0 [⟨4⟩, ⟨5⟩, ⟨4⟩, ⟨5⟩, ⟨4⟩] ⟨[4, 3, 1, 0], [⟨5⟩, ⟨4⟩]⟩ symbols ∧
        (symbols.take 3).reverse = [⟨3⟩, ⟨5⟩, ⟨3⟩]) ∧
      Automaton.Reads a.Step 0 [⟨4⟩, ⟨5⟩, ⟨4⟩, ⟨5⟩, ⟨4⟩] 1 ∧
      operations.Generates ⟨2⟩ [⟨4⟩, ⟨5⟩, ⟨4⟩, ⟨5⟩, ⟨4⟩] := by
  have hcheck : (fullAutomaton operations (FirstTable.ofGrammar operations) [⟨2⟩]
      .error).toOption.any (fun a =>
        (((a.state 0).start == some ⟨2⟩ && (a.state 0).actions == [.shift ⟨4⟩ 2]) &&
          (a.state 0).gotos == [⟨⟨3⟩, 1⟩]) &&
        (((a.state 1).actions == [.shift ⟨5⟩ 3] && (a.state 1).accepting operations) &&
          (a.state 2).actions ==
            [.reduce .eof operations.rules[1], .reduce ⟨5⟩ operations.rules[1]]) &&
        (((a.state 3).actions == [.shift ⟨4⟩ 2] && (a.state 3).gotos == [⟨⟨3⟩, 4⟩]) &&
          (a.state 4).actions ==
            [.reduce .eof operations.rules[2], .reduce ⟨5⟩ operations.rules[2]])) = true := by
    cbv
  obtain ⟨a, h, hcheck⟩ := exists_ok_of_any hcheck
  simp only [Bool.and_eq_true, beq_iff_eq] at hcheck
  obtain ⟨⟨⟨⟨hstart, hactions₀⟩, hgotos₀⟩, ⟨hactions₁, haccepting⟩, hactions₂⟩,
    ⟨hactions₃, hgotos₃⟩, hactions₄⟩ := hcheck
  have hsound := fullAutomaton_sound h (by decide) hstart
  -- An operand, an operator with its second operand, and the whole operation.
  have hoperand : ∀ {p q : Nat} {stack : List Nat} {rest : List Term},
      .shift ⟨4⟩ 2 ∈ (a.state p).actions → ⟨⟨3⟩, q⟩ ∈ (a.state p).gotos →
      .reduce (rest.headD .eof) operations.rules[1] ∈ (a.state 2).actions →
      Relation.ReflTransGen a.Step ⟨p :: stack, ⟨4⟩ :: rest⟩ ⟨q :: p :: stack, rest⟩ :=
    fun hshift hgoto hreduce =>
      .head (.shift hshift) (.single (.reduce hreduce (.intro rfl hgoto)))
  have hoperator : ∀ {rest : List Term},
      .reduce (rest.headD .eof) operations.rules[1] ∈ (a.state 2).actions →
      Relation.ReflTransGen a.Step ⟨[1, 0], ⟨5⟩ :: ⟨4⟩ :: rest⟩ ⟨[4, 3, 1, 0], rest⟩ :=
    fun hreduce => .head (.shift (q := 3) (by simp [hactions₁]))
      (hoperand (by simp [hactions₃]) (by simp [hgotos₃]) hreduce)
  have hwhole : ∀ {rest : List Term},
      .reduce (rest.headD .eof) operations.rules[2] ∈ (a.state 4).actions →
      a.Step ⟨[4, 3, 1, 0], rest⟩ ⟨[1, 0], rest⟩ :=
    fun hreduce => .reduce hreduce (.intro rfl (by simp [hgotos₀, operations]))
  have hfirst : Relation.ReflTransGen a.Step ⟨[0], [⟨4⟩, ⟨5⟩, ⟨4⟩, ⟨5⟩, ⟨4⟩]⟩
      ⟨[4, 3, 1, 0], [⟨5⟩, ⟨4⟩]⟩ :=
    (hoperand (by simp [hactions₀]) (by simp [hgotos₀]) (by simp [hactions₂])).trans
      (hoperator (by simp [hactions₂]))
  have hreads : Automaton.Reads a.Step 0 [⟨4⟩, ⟨5⟩, ⟨4⟩, ⟨5⟩, ⟨4⟩] 1 := by
    refine ⟨[0], hfirst.trans (.head (hwhole (by simp [hactions₄])) ?_)⟩
    exact (hoperator (by simp [hactions₂])).tail (hwhole (by simp [hactions₄]))
  obtain ⟨symbols, hentered⟩ := Automaton.exists_entered hfirst
  refine ⟨a, h, hactions₄, ⟨symbols, hentered, ?_⟩, hreads, hsound.1 _ 1 hreads haccepting⟩
  exact (hsound.2 _ 4 _ _ symbols hentered operations.rules[2] (by simp [hactions₄])).2

end GrammarCompiler
