/-
GrammarCompiler.Proofs.Completeness — automata accept all that is derived.

A derivation tells a run what to do: where a rule has still to read certain
symbols in the current state (`Automaton.Holds`), and what comes behind them
can follow the rule, the run builds the trees of the symbols and comes to a
state where they have been read (`Built.builds_forest`). This needs that states
do all that their items call for, and that the table of first terminals is
closed under the rules.
-/
import GrammarCompiler.Proofs.Derivation
import GrammarCompiler.Proofs.Trees
import Mathlib

namespace GrammarCompiler

/-! ## §1 Reading parts -/

namespace Dotted

/-- The part that is read next is the first one that is left. -/
theorem next?_of_drop {d : Dotted} {t : Term} {parts : List Term}
    (h : d.rule.parts.drop d.dot = t :: parts) :
    d.next? = some t ∧ d.rule.parts.drop (d.dot + 1) = parts := by
  constructor
  · rw [Dotted.next?, ← List.head?_drop, h]
    rfl
  · rw [← List.tail_drop, h]
    rfl

end Dotted

/-- `a.Holds p d t`: a rule has been read as far as `d` tells when the automaton
comes to state `p`, and `t` can follow the rule. -/
def Automaton.Holds (a : Automaton) (p : Nat) (d : Dotted) (t : Term) : Prop :=
  ∃ i ∈ (a.state p).items, i.toDotted = d ∧ i.ahead.contains t = true

section

variable {g : Grammar} {table : FirstTable} {noSkip : Term} {starts : List Term} {a : Automaton}
  {seeds : Array Seed} {p : Nat} {d : Dotted} {t : Term}

/-- Where a symbol leads, it has been read. -/
theorem Built.holds_advanced (hb : Built g table noSkip starts a seeds) (hg : g.Plain)
    (hp : p < a.size) {x : Term} (hd : a.Holds p d x) (hnext : d.next? = some t) {q : Nat}
    (hleads : Leads g seeds p t q) : q < a.size ∧ a.Holds q ⟨d.rule, d.dot + 1⟩ x := by
  obtain ⟨i, hi, rfl, hx⟩ := hd
  obtain ⟨source, hsource, hitems, _, hgrown⟩ := hb.exists_seed hp
  have hq : q < a.size := hb.size ▸ hleads.lt_size
  obtain ⟨target', htarget', hitems', _, hgrown'⟩ := hb.exists_seed hq
  obtain ⟨j, hj, hdotted, hahead⟩ :=
    hleads.exists_target hg.unmarked hsource htarget' hgrown hgrown' (hitems ▸ hi) hnext
  exact ⟨hq, j, hitems' ▸ hj, hdotted, hahead ▸ hx⟩

/-- A terminal that is read next can be shifted. -/
theorem Built.exists_shifted (hb : Built g table noSkip starts a seeds) (hg : g.Plain)
    (hp : p < a.size) {x : Term} (hd : a.Holds p d x) (hnext : d.next? = some t)
    (ht : g.isTerminal t = true) :
    ∃ q, .shift t q ∈ (a.state p).actions ∧ q < a.size ∧ a.Holds q ⟨d.rule, d.dot + 1⟩ x := by
  have ⟨i, hi, hid, _⟩ := hd
  obtain ⟨q, hq⟩ := (hb.full hg p hp).shifts i hi t (hid ▸ hnext) ht
  exact ⟨q, hq, hb.holds_advanced hg hp hd hnext ((hb.fits p hp).actions _ hq).2⟩

/-- A rule that has been read to its end can be reduced, if its name is read
next in the state that comes to light. -/
theorem Built.exists_reduced (hb : Built g table noSkip starts a seeds) (hg : g.Plain)
    (hp : p < a.size) {x : Term} (hd : a.Holds p d x) {r : Rule} (hnext : d.next? = some r.name)
    (hn : g.isTerminal r.name = false) (htop : g.terms.isTop r.name = false) {q : Nat}
    (hq : q < a.size) {below stack : List Nat} {u : Term}
    (hread : a.Holds q ⟨r, r.parts.length⟩ u)
    (hstack : (q :: below).drop r.parts.length = p :: stack) :
    ∃ q', .reduce u r ∈ (a.state q).actions ∧ a.Reduces r (q :: below) (q' :: p :: stack) ∧
      q' < a.size ∧ a.Holds q' ⟨d.rule, d.dot + 1⟩ x := by
  have ⟨i, hi, hid, _⟩ := hd
  obtain ⟨k, hk, hkd, hka⟩ := hread
  obtain rfl : k.rule = r := Item.rule_of_dotted hkd
  have hend : k.atEnd = true := by
    rw [Dotted.atEnd, Item.dot_of_dotted hkd]
    exact beq_self_eq_true _
  have hreduce := (hb.full hg q hq).reductions k hk hend htop _ hka
  obtain ⟨q', hgoto⟩ := (hb.full hg p hp).gotos i hi _ (hid ▸ hnext) hn
  exact ⟨q', hreduce, .intro hstack hgoto,
    hb.holds_advanced hg hp hd hnext ((hb.fits p hp).gotos _ hgoto).2⟩

/-- Top symbols are not read next, where they do not occur in rules. -/
theorem Built.isTop_next? (hb : Built g table noSkip starts a seeds)
    (htop : ∀ r ∈ g.rules, ∀ t ∈ r.parts, g.terms.isTop t = false) (hp : p < a.size) {x : Term}
    (hd : a.Holds p d x) (hnext : d.next? = some t) : g.terms.isTop t = false := by
  obtain ⟨i, hi, rfl, _⟩ := hd
  obtain ⟨seed, _, hitems, _, hgrown⟩ := hb.exists_seed hp
  exact htop i.rule (hgrown.rule_mem i (hitems ▸ hi)) t (List.mem_of_getElem? hnext)

end

section

variable {g : Grammar} {noSkip : Term} {starts : List Term} {a : Automaton} {seeds : Array Seed}

/-- A rule of the symbol that is read next starts in the same state, with what
follows the symbol ahead. -/
theorem Built.holds_started (hb : Built g (FirstTable.ofGrammar g) noSkip starts a seeds)
    {p : Nat} (hp : p < a.size) {d : Dotted} {r : Rule} (hr : r ∈ g.rules)
    (hn : g.isTerminal r.name = false) {parts word rest : List Term}
    (hd : a.Holds p d (rest.headD .eof)) (hparts : d.rule.parts.drop d.dot = r.name :: parts)
    (hafter : Derives g.isTerminal g.rules parts word) :
    a.Holds p ⟨r, 0⟩ ((word ++ rest).headD .eof) := by
  obtain ⟨i, hi, rfl, hahead⟩ := hd
  obtain ⟨seed, _, hitems, _, hgrown⟩ := hb.exists_seed hp
  obtain ⟨hnext, hdrop⟩ := Dotted.next?_of_drop hparts
  have hne : i.ahead ≠ TermSet.empty := TermSet.ne_empty hahead
  obtain ⟨j, hj, hdotted, hcontains⟩ := closure_complete hgrown.closed (hitems ▸ hi) hnext
    hn hne (Closing.mem_rulesFor.mpr ⟨hr, rfl⟩)
  refine ⟨j, hitems ▸ hj, hdotted, hcontains _ ?_⟩
  rw [FirstTable.termsAhead, hdrop]
  exact (FirstTable.closed_ofGrammar g).contains_beginnings hafter hahead

/-- A run can build any trees for the parts that a rule has still to read, if what
comes behind can follow the rule. It leaves one state for each part on the stack,
and comes to the state where they have been read. -/
theorem Built.builds_forest (hb : Built g (FirstTable.ofGrammar g) noSkip starts a seeds)
    (hg : g.Plain) (htop : ∀ r ∈ g.rules, ∀ t ∈ r.parts, g.terms.isTop t = false) {f : Forest}
    (hf : f.IsValid g.isTerminal g.rules) {p : Nat} (hp : p < a.size) {d : Dotted}
    {rest : List Term} (hd : a.Holds p d (rest.headD .eof))
    (hparts : d.rule.parts.drop d.dot = f.symbols) (stack : List Nat) (done : Forest) :
    ∃ q below, Relation.ReflTransGen a.Builds (⟨p :: stack, f.word ++ rest⟩, done)
        (⟨q :: below, rest⟩, done.append f) ∧
      (q :: below).drop f.symbols.length = p :: stack ∧
      q < a.size ∧ a.Holds q ⟨d.rule, d.dot + f.symbols.length⟩ (rest.headD .eof) := by
  induction f generalizing p d stack rest done with
  | nil => exact ⟨p, stack, by simpa [Forest.word] using .refl, rfl, hp, hd⟩
  | terminal t after ih =>
    obtain ⟨hnext, hdrop⟩ := Dotted.next?_of_drop hparts
    obtain ⟨p', hshift, hp', hd'⟩ := hb.exists_shifted hg hp hd hnext hf.1
    obtain ⟨q, below, hbuilds, hstack, hq, hread⟩ :=
      ih hf.2 hp' hd' hdrop (p :: stack) (done.append (.terminal t .nil))
    refine ⟨q, below, ?_, ?_, hq, ?_⟩
    · rw [Forest.append_assoc] at hbuilds
      exact .head (.shift hshift) hbuilds
    · rw [Forest.symbols, List.length_cons, ← List.drop_drop, hstack]
      rfl
    · rw [Forest.symbols, List.length_cons, Nat.add_comm after.symbols.length, ← Nat.add_assoc]
      exact hread
  | rule r body after ihBody ihAfter =>
    obtain ⟨hr, hn, hsymbols, hbody, hafter⟩ := hf
    obtain ⟨hnext, hdrop⟩ := Dotted.next?_of_drop hparts
    -- The rule starts in this state, and is read there to its end.
    have hstart := hb.holds_started hp hr hn hd hparts hafter.derives
    obtain ⟨q₁, below₁, hbuilds₁, hstack₁, hq₁, hend⟩ :=
      ihBody hbody hp hstart hsymbols.symm stack done
    rw [hsymbols, Nat.zero_add] at hend
    rw [hsymbols] at hstack₁
    -- Its name leads on from the state that comes to light.
    obtain ⟨p', hreduce, hreduces, hp', hd'⟩ := hb.exists_reduced hg hp hd hnext hn
      (hb.isTop_next? htop hp hd hnext) hq₁ hend hstack₁
    obtain ⟨q, below, hbuilds, hstack, hq, hread⟩ :=
      ihAfter hafter hp' hd' hdrop (p :: stack) (done.append (.rule r body .nil))
    refine ⟨q, below, ?_, ?_, hq, ?_⟩
    · rw [Forest.append_assoc] at hbuilds
      rw [Forest.word, List.append_assoc]
      exact hbuilds₁.trans (.head (.reduce hreduce hreduces (congrArg List.length hsymbols)) hbuilds)
    · rw [Forest.symbols, List.length_cons, ← List.drop_drop, hstack]
      rfl
    · rw [Forest.symbols, List.length_cons, Nat.add_comm after.symbols.length, ← Nat.add_assoc]
      exact hread

/-- A run can read what the parts stand for that a rule has still to read, if
what comes behind can follow the rule. It leaves one state for each part on the
stack, and comes to the state where they have been read. -/
theorem Built.reads_parts (hb : Built g (FirstTable.ofGrammar g) noSkip starts a seeds)
    (hg : g.Plain) (htop : ∀ r ∈ g.rules, ∀ t ∈ r.parts, g.terms.isTop t = false)
    {parts word : List Term} (h : Derives g.isTerminal g.rules parts word) {p : Nat}
    (hp : p < a.size) {d : Dotted} {rest : List Term} (hd : a.Holds p d (rest.headD .eof))
    (hparts : d.rule.parts.drop d.dot = parts) (stack : List Nat) :
    ∃ q below, Relation.ReflTransGen a.Step ⟨p :: stack, word ++ rest⟩ ⟨q :: below, rest⟩ ∧
      (q :: below).drop parts.length = p :: stack ∧
      q < a.size ∧ a.Holds q ⟨d.rule, d.dot + parts.length⟩ (rest.headD .eof) := by
  obtain ⟨f, hf, rfl, rfl⟩ := Forest.exists_of_derives h
  obtain ⟨q, below, hbuilds, hread⟩ := hb.builds_forest hg htop hf hp hd hparts stack .nil
  exact ⟨q, below, Automaton.steps_of_builds hbuilds, hread⟩

/-- The rules of a symbol start in its entry state, with the end of the input
ahead. -/
theorem Built.holds_entry {table : FirstTable} (hb : Built g table noSkip starts a seeds)
    {start : Nat} {t : Term} (hs : (a.state start).start = some t) (hlt : start < a.size)
    {r : Rule} (hr : r ∈ g.rules) (hname : r.name = t) :
    a.Holds start ⟨r, 0⟩ .eof := by
  obtain ⟨seed, _, hitems, hstart, hgrown⟩ := hb.exists_seed hlt
  have hkernel := hgrown.kernel_eq_entry (hstart.symm.trans hs)
  have hk : (⟨⟨r, 0⟩, TermSet.empty.insert .eof, [],
      ((g.rulesFor t).head?.map Rule.skip).getD noSkip, []⟩ : Item) ∈ seed.kernel := by
    rw [hkernel]
    exact Item.mem_sort.mpr (List.mem_map.mpr ⟨r, Closing.mem_rulesFor.mpr ⟨hr, hname⟩, rfl⟩)
  obtain ⟨i, hi, hbelow⟩ := closure_keeps hgrown.closed hgrown.areApart.1 hk
  refine ⟨i, hitems ▸ hi, hbelow.dotted, hbelow.ahead _ ?_⟩
  rw [TermSet.contains_insert]
  simp

end

/-! ## §2 Accepting words -/

/-- The automaton of a grammar in which nothing decides between actions, and in
which top symbols do not occur in rules, has an entry state for each of its
start symbols that stand for anything, and accepts there all that a top symbol
stands for. -/
theorem fullAutomaton_complete {g : Grammar} {starts : List Term} {noSkip : Term} {a : Automaton}
    (h : fullAutomaton g (FirstTable.ofGrammar g) starts noSkip = .ok a) (hg : g.Plain)
    (htop : ∀ r ∈ g.rules, ∀ t ∈ r.parts, g.terms.isTop t = false) {t : Term} (ht : t ∈ starts)
    (hkind : g.terms.isTop t = true) {word : List Term} (hw : g.Generates t word) :
    (∃ start, (a.state start).start = some t) ∧
      ∀ start, (a.state start).start = some t →
        ∃ s, Automaton.Reads a.Step start word s ∧ (a.state s).accepting g = true := by
  obtain ⟨seeds, hb⟩ := fullAutomaton_built h
  have hterminal := g.isTerminal_eq_false_of_isTop hkind
  obtain ⟨r, hr, rfl, hbody⟩ := hw.exists_rule hterminal
  have hrules : g.rulesFor r.name ≠ [] :=
    List.ne_nil_of_mem (Closing.mem_rulesFor.mpr ⟨hr, rfl⟩)
  refine ⟨?_, fun start hs => ?_⟩
  · obtain ⟨start, _, hs⟩ := hb.entries _ ht hrules
    exact ⟨start, hs⟩
  · have hlt := Automaton.lt_size_of_start hs
    have hentry : a.Holds start ⟨r, 0⟩ (([] : List Term).headD .eof) :=
      hb.holds_entry hs hlt hr rfl
    obtain ⟨q, below, hsteps, _, _, j, hj, hjd, _⟩ := hb.reads_parts hg htop hbody hlt hentry rfl []
    rw [List.append_nil] at hsteps
    rw [Nat.zero_add] at hjd
    refine ⟨q, ⟨below, hsteps⟩, List.any_eq_true.mpr ⟨j, hj, ?_⟩⟩
    rw [Dotted.atEnd, Item.rule_of_dotted hjd, Item.dot_of_dotted hjd, hkind]
    exact beq_self_eq_true _

/-- The grammar `T → A`, `A → `, `A → x A`. -/
def repetition : Grammar where
  terms := ⟨#[{ name := "␄", kind := .terminal }, { name := "⚠", kind := .nonterminal },
    { name := "T", kind := .top }, { name := "A", kind := .nonterminal },
    { name := "x", kind := .terminal }], [⟨2⟩]⟩
  numbering := default
  rules := [
    ⟨⟨[⟨3⟩], [.none, .none]⟩, 0, ⟨2⟩, .error⟩,
    ⟨⟨[], [.none]⟩, 1, ⟨3⟩, .error⟩,
    ⟨⟨[⟨4⟩, ⟨3⟩], [.none, .none, .none]⟩, 2, ⟨3⟩, .error⟩]

theorem fullAutomaton_complete_repetition :
    ∃ a start s,
      fullAutomaton repetition (FirstTable.ofGrammar repetition) [⟨2⟩] .error = .ok a ∧
        (a.state start).start = some ⟨2⟩ ∧ Automaton.Reads a.Step start [⟨4⟩, ⟨4⟩] s ∧
        (a.state s).accepting repetition = true := by
  have hok : (fullAutomaton repetition (FirstTable.ofGrammar repetition) [⟨2⟩] .error).isOk =
      true := by
    cbv
  cases h : fullAutomaton repetition (FirstTable.ofGrammar repetition) [⟨2⟩] .error with
  | error e =>
    rw [h] at hok
    cases hok
  | ok a =>
    have hplain : repetition.Plain := by
      refine ⟨?_, by decide, by decide⟩
      unfold Grammar.Unmarked
      decide
    have hderives : Derives repetition.isTerminal repetition.rules [⟨3⟩] [⟨4⟩, ⟨4⟩] := by
      have hcons : ∀ {w}, Derives repetition.isTerminal repetition.rules [⟨3⟩] w →
          Derives repetition.isTerminal repetition.rules [⟨3⟩] (⟨4⟩ :: w) := fun hw =>
        .of_rule (r := repetition.rules[2]) (by decide) (by decide) (.terminal (by decide) hw)
      exact hcons (hcons (.of_rule (r := repetition.rules[1]) (by decide) (by decide) .nil))
    have hword : repetition.Generates ⟨2⟩ [⟨4⟩, ⟨4⟩] :=
      .of_rule (r := repetition.rules[0]) (by decide) (by decide) hderives
    obtain ⟨⟨start, hs⟩, haccepts⟩ :=
      fullAutomaton_complete h hplain (by decide) (by decide) (by decide) hword
    obtain ⟨s, hreads, haccepting⟩ := haccepts start hs
    exact ⟨a, start, s, rfl, hs, hreads, haccepting⟩

end GrammarCompiler
