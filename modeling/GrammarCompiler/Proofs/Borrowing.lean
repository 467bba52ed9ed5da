/-
GrammarCompiler.Proofs.Borrowing — collapsing keeps what is accepted.

A collapsed state may reduce when a terminal comes next that can follow the rule
only elsewhere: the lookahead is borrowed from another state in its place. A run
that ends well never does so. Going back from its end, what is left of the input
is a prospect of each stack of the full automaton that has these places, and then
the terminal can follow the rule there as well (`Collapsed.exists_run`). The other
way round, what the full automaton does, its image does; and where it accepts, all
states in the same place are for the same items, so none of them goes on.

  §1 Places — states in one place.
  §2 Back   — from the end of a run of the collapsed automaton to its beginning.
  §3 Words  — what is accepted.
  §4 Builds — what is collapsed when a grammar text is compiled.
-/
import GrammarCompiler.Proofs.Building
import GrammarCompiler.Proofs.Collapsing
import GrammarCompiler.Proofs.Gotos

namespace GrammarCompiler

/-! ## §1 Places -/

/-- In each state there is a goto for each symbol that is read next and can stand
for nothing. -/
def Automaton.KeepsEmpty (g : Grammar) (a : Automaton) : Prop :=
  ∀ p, ∀ i ∈ (a.state p).items, ∀ t, i.next? = some t → g.isTerminal t = false →
    g.Generates t [] → ∃ q, ⟨t, q⟩ ∈ (a.state p).gotos

/-- So it is where there is a goto for each symbol that is read next and is no terminal. -/
theorem Automaton.KeepsEmpty.of_all {g : Grammar} {a : Automaton}
    (h : (a.toList.all fun s => s.items.all fun i => i.next?.all fun t =>
      g.isTerminal t || s.gotos.any fun x => x.term == t) = true) : a.KeepsEmpty g := by
  intro p i hi t hnext hn _
  have hp := Automaton.lt_size_of_mem_items hi
  have hmem : a.state p ∈ a.toList := by simp [Automaton.state, hp]
  have hgoto := List.all_eq_true.mp (List.all_eq_true.mp h (a.state p) hmem) i hi
  rw [hnext, Option.all_some, hn, Bool.false_or] at hgoto
  obtain ⟨x, hx, hterm⟩ := List.any_eq_true.mp hgoto
  exact ⟨x.target, beq_iff_eq.mp hterm ▸ hx⟩

namespace Collapsed

variable {g : Grammar} {a b : Automaton} {place : Nat → Nat}

/-- What a state does, its image does. -/
theorem mem_deeds (h : Collapsed g a place b) (s : Nat) {e : Deed}
    (he : e ∈ (a.state s).deeds g place) : e ∈ (b.state (place s)).deeds g id := by
  by_cases hs : s < a.size
  · exact (h.deeds _ (h.inside s hs) e).mpr ⟨s, hs, rfl, he⟩
  · rw [Automaton.state_eq_default (Nat.le_of_not_lt hs)] at he
    cases he

/-- The terminals of a state are among those of its image. -/
theorem mem_terms (h : Collapsed g a place b) {s : Nat} {t : Term} (ht : t ∈ (a.state s).terms) :
    t ∈ (b.state (place s)).terms := by
  rw [State.mem_terms (g := g) (f := place)] at ht
  rw [State.mem_terms (g := g) (f := id)]
  exact ht.imp (fun ⟨q, hq⟩ => ⟨q, h.mem_deeds s hq⟩)
    fun ⟨name, length, wrap, hr⟩ => ⟨name, length, wrap, h.mem_deeds s hr⟩

/-- States in one place have items for the same dotted rules. -/
theorem exists_item (h : Collapsed g a place b) {i j : Nat} (hi : i < a.size) (hj : j < a.size)
    (heq : place i = place j) {k : Item} (hk : k ∈ (a.state i).items) :
    ∃ k' ∈ (a.state j).items, k'.toDotted = k.toDotted := by
  rw [← List.mem_map, ← h.cores i hi j hj heq]
  exact List.mem_map_of_mem hk

/-- States in one place do the same for a terminal, if both do anything. -/
theorem deed_eq (h : Collapsed g a place b) (hone : ∀ i, (a.state i).terms.Nodup) {i j : Nat}
    (hi : i < a.size) (hj : j < a.size) (heq : place i = place j) {x y : Action}
    (hx : x ∈ (a.state i).actions) (hy : y ∈ (a.state j).actions) (hterm : x.term = y.term) :
    x.deed g place = y.deed g place := by
  by_cases hij : i = j
  · subst hij
    rw [List.inj_on_of_nodup_map (hone i) hx hy hterm]
  · exact (h.fits i hi j hj heq hij).actions (hone j) x hx y hy hterm

/-- States in one place go on alike with a symbol, if both do. -/
theorem target_eq (h : Collapsed g a place b)
    (hgotos : ∀ i, ((a.state i).gotos.map Goto.term).Nodup) {i j : Nat} (hi : i < a.size)
    (hj : j < a.size) (heq : place i = place j) {t : Term} {q q' : Nat}
    (hq : ⟨t, q⟩ ∈ (a.state i).gotos) (hq' : ⟨t, q'⟩ ∈ (a.state j).gotos) :
    place q = place q' := by
  by_cases hij : i = j
  · subst hij
    cases List.inj_on_of_nodup_map (hgotos i) hq hq' rfl
    rfl
  · exact (h.fits i hi j hj heq hij).gotos _ hq _ hq' rfl

end Collapsed

section

variable {g : Grammar} {noSkip : Term} {starts : List Term} {a b : Automaton} {seeds : Array Seed}
  {place : Nat → Nat} {start : Nat} {t : Term}

theorem Built.isClosed {table : FirstTable} (hb : Built g table noSkip starts a seeds) :
    a.IsClosed where
  shifts hq :=
    hb.size ▸ ((hb.fits _ (Automaton.lt_size_of_mem_actions hq)).actions _ hq).2.lt_size
  gotos hx := hb.size ▸ ((hb.fits _ (Automaton.lt_size_of_mem_gotos hx)).gotos _ hx).2.lt_size

/-- The states of a trail are there. -/
theorem Automaton.Trail.lt_size (hclosed : a.IsClosed) (hs : (a.state start).start = some t)
    {stack : List Nat} {symbols : List Term} (h : a.Trail start stack symbols) :
    ∀ p ∈ stack, p < a.size := by
  induction h with
  | entry =>
    intro p hp
    rw [List.mem_singleton.mp hp]
    exact Automaton.lt_size_of_start hs
  | push _ links ih =>
    refine List.forall_mem_cons.mpr ⟨?_, ih⟩
    cases links with
    | shift listed => exact hclosed.shifts listed
    | goto leads => exact hclosed.gotos leads

/-- Where a rule is complete in a state on top of a trail, there is a goto for its name in the
state that comes to light. -/
theorem Built.exists_reduces (hb : Built g (FirstTable.ofGrammar g) noSkip starts a seeds)
    (hempty : a.KeepsEmpty g) (hs : (a.state start).start = some t)
    (hkind : g.terms.isTop t = true) {s : Nat} {stack : List Nat} {symbols : List Term}
    (htrail : a.Trail start (s :: stack) symbols) {k : Item} (hk : k ∈ (a.state s).items)
    (hend : k.atEnd = true) (hk' : g.terms.isTop k.rule.name = false) :
    ∃ p below, (s :: stack).drop k.rule.parts.length = p :: below ∧
      ∃ q, ⟨k.rule.name, q⟩ ∈ (a.state p).gotos := by
  have hd : k.dot = k.rule.parts.length := by simpa [Dotted.atEnd] using hend
  by_cases hparts : k.rule.parts = []
  · obtain ⟨p, below, hdrop, _, hn, i, hi, hnext⟩ :=
      hb.exists_uncovered hs hkind htrail hk hk'
    have hnothing : g.Generates k.rule.name [] := by
      refine .of_rule (hb.rule_mem hk) hn ?_
      rw [hparts]
      exact .nil
    exact ⟨p, below, hd ▸ hdrop, hempty p i hi _ hnext hn hnothing⟩
  · have hne : k.dot ≠ 0 := by
      rw [hd]
      exact fun hzero => hparts (List.eq_nil_of_length_eq_zero hzero)
    rw [← hd]
    exact hb.exists_goto_of_begun hs hkind htrail hk hne hk'

/-! ## §2 Back -/

/-- Going back over the reading of a terminal by the collapsed automaton: each
stack with these places can read it. -/
theorem Collapsed.exists_shift (hb : Built g (FirstTable.ofGrammar g) noSkip starts a seeds)
    (h : Collapsed g a place b) (hone : ∀ i, (a.state i).terms.Nodup) {s q' : Nat} {u : Term}
    (hlt : s < a.size) (listed : .shift u q' ∈ (b.state (place s)).actions) :
    ∃ q, .shift u q ∈ (a.state s).actions ∧ place q = q' := by
  obtain ⟨i, hi, heq, hdeed⟩ := (h.deeds _ (h.inside s hlt) _).mp
    (State.shift_mem_deeds.mpr ⟨q', listed, rfl⟩)
  obtain ⟨q, hq, hplace⟩ := State.shift_mem_deeds.mp hdeed
  -- The state has an item that reads the terminal, so it does something with it.
  obtain ⟨k, hk, hnext⟩ := hb.exists_next_of_shift hq
  obtain ⟨k', hk', hdotted⟩ := h.exists_item hi hlt heq hk
  have hu := ((hb.fits i hi).actions _ hq).1
  have hterm : u ∈ (a.state s).terms :=
    hb.mem_terms_iff.mpr (.inl ⟨k', hk', hdotted ▸ hnext, hu⟩)
  obtain ⟨y, hy, rfl⟩ := List.mem_map.mp hterm
  have hsame := h.deed_eq hone hlt hi heq.symm hy hq rfl
  cases y with
  | shift u q₂ =>
    obtain ⟨_, htarget⟩ := Deed.shift.inj hsame
    exact ⟨q₂, hy, htarget.trans hplace⟩
  | reduce u r => cases hsame

/-- Going back over a reduction by the collapsed automaton: a rule is complete on
each trail with these places that is reduced by in the same place, and leads to a
trail with the next places. -/
theorem Collapsed.exists_reduces (hb : Built g (FirstTable.ofGrammar g) noSkip starts a seeds)
    (h : Collapsed g a place b) (hempty : a.KeepsEmpty g) (hs : (a.state start).start = some t)
    (hkind : g.terms.isTop t = true) {s : Nat} {stack : List Nat} {symbols : List Term}
    (htrail : a.Trail start (s :: stack) symbols) (hlt : s < a.size) {u : Term} {r : Rule}
    (listed : .reduce u r ∈ (b.state (place s)).actions) {next : List Nat}
    (reduces : b.Reduces r ((s :: stack).map place) next) :
    ∃ k ∈ (a.state s).items, k.atEnd = true ∧ g.terms.isTop k.rule.name = false ∧
      (∃ i < a.size, place i = place s ∧ .reduce u k.rule ∈ (a.state i).actions) ∧
      ∃ next' symbols', a.Reduces k.rule (s :: stack) next' ∧ a.Trail start next' symbols' ∧
        next'.map place = next := by
  obtain ⟨i, hi, heq, hdeed⟩ := (h.deeds _ (h.inside s hlt) _).mp
    (State.reduce_mem_deeds.mpr ⟨r, listed, rfl, rfl, rfl⟩)
  obtain ⟨_, hr, hname, hlength, _⟩ := State.reduce_mem_deeds.mp hdeed
  obtain ⟨k₁, hk₁, rfl, hend, hkind', _⟩ := (hb.fits i hi).actions _ hr
  -- The rule is complete in all states of the place.
  obtain ⟨k, hk, hdotted⟩ := h.exists_item hi hlt heq hk₁
  have hrule : k.rule = k₁.rule := congrArg Dotted.rule hdotted
  rw [← hdotted] at hend
  rw [← hrule] at hr hname hlength hkind'
  obtain ⟨p, below, hdrop, q, hq⟩ := hb.exists_reduces hempty hs hkind htrail hk hend hkind'
  refine ⟨k, hk, hend, hkind', ⟨i, hi, heq, hr⟩, q :: p :: below, _, .intro hdrop hq,
    (htrail.drop hdrop).push (.goto hq), ?_⟩
  cases reduces with
  | @intro p' q' below' uncovers leads =>
    rw [← List.map_drop, ← hlength, hdrop] at uncovers
    obtain ⟨rfl, rfl⟩ := List.cons.inj uncovers
    have hp : p < a.size := by
      refine htrail.lt_size hb.isClosed hs p (List.mem_of_mem_drop (i := k.rule.parts.length) ?_)
      rw [hdrop]
      exact .head _
    obtain ⟨j, hj, heq', hdeed⟩ := (h.deeds _ (h.inside p hp) _).mp
      (State.goto_mem_deeds.mpr ⟨q', leads, rfl⟩)
    obtain ⟨q₂, hq₂, rfl⟩ := State.goto_mem_deeds.mp hdeed
    rw [← hname] at hq₂
    have htarget : place q = place q₂ :=
      h.target_eq (fun _ => hb.nodup_gotos) hp hj heq'.symm hq hq₂
    rw [List.map_cons, List.map_cons, htarget]

/-- For each trail of the full automaton with the places of a run that ends well,
there is a run that ends well, and what is left to read is its prospect. -/
theorem Collapsed.exists_run (hb : Built g (FirstTable.ofGrammar g) noSkip starts a seeds)
    (h : Collapsed g a place b) (htop : ∀ r ∈ g.rules, ∀ t ∈ r.parts, g.terms.isTop t = false)
    (hone : ∀ i, (a.state i).terms.Nodup) (hempty : a.KeepsEmpty g)
    (hs : (a.state start).start = some t) (hkind : g.terms.isTop t = true) {c : Config}
    {s' : Nat} {stack' : List Nat} 
    (hrun : Relation.ReflTransGen b.Step c ⟨s' :: stack', []⟩)
    (hends : b.EndsIn g s') {stack : List Nat} {symbols : List Term}
    (htrail : a.Trail start stack symbols) (hstack : stack.map place = c.stack) :
    (∃ s below, Relation.ReflTransGen a.Step ⟨stack, c.rest⟩ ⟨s :: below, []⟩ ∧ a.EndsIn g s) ∧
      a.Prospect g start stack c.rest := by
  induction hrun using Relation.ReflTransGen.head_induction_on generalizing stack symbols with
  | refl =>
    obtain ⟨s, below, rfl, rfl, rfl⟩ := List.map_eq_cons_iff.mp hstack
    have hlt := htrail.lt_size hb.isClosed hs s (.head _)
    obtain ⟨i, hi, heq, hacc⟩ := (h.accepting _ (h.inside s hlt)).mp hends.1
    have hacc : (a.state s).accepting g = true := by
      obtain ⟨k, hk, hcomplete⟩ := List.any_eq_true.mp hacc
      obtain ⟨k', hk', hdotted⟩ := h.exists_item hi hlt heq hk
      exact List.any_eq_true.mpr ⟨k', hk', hdotted ▸ hcomplete⟩
    exact ⟨⟨s, below, .refl, hacc, fun heof => hends.2 (h.mem_terms heof)⟩,
      .of_accepting hb htop hs (htrail.path hb) hacc⟩
  | head first _ ih =>
    cases first with
    | @shift s₀ q' u below' rest listed =>
      obtain ⟨s, below, rfl, rfl, rfl⟩ := List.map_eq_cons_iff.mp hstack
      have hlt := htrail.lt_size hb.isClosed hs s (.head _)
      obtain ⟨q, hq, rfl⟩ := h.exists_shift hb hone hlt listed
      obtain ⟨⟨e, stack₁, hsteps, hend⟩, hprospect⟩ := ih (htrail.push (.shift hq)) rfl
      exact ⟨⟨e, stack₁, .head (.shift hq) hsteps, hend⟩, hprospect.before_shift hb hq⟩
    | @reduce s₀ r below' next rest listed reduces =>
      obtain ⟨s, below, rfl, rfl, rfl⟩ := List.map_eq_cons_iff.mp hstack
      have hlt := htrail.lt_size hb.isClosed hs s (.head _)
      obtain ⟨k, hk, hend, hk', ⟨i, hi, heq, hlisted⟩, next', symbols', hreduces, htrail', rfl⟩ :=
        h.exists_reduces hb hempty hs hkind htrail hlt listed reduces
      obtain ⟨⟨e, stack₁, hsteps, hends⟩, hprospect⟩ := ih htrail' rfl
      -- What is left to read shows that the terminal can follow the rule here.
      obtain ⟨hterm, hprospect⟩ :=
        hprospect.before_reduce hb hs (htrail.path hb) hk hend hk' hreduces
      obtain ⟨y, hy, hu⟩ := List.mem_map.mp hterm
      have hsame := h.deed_eq hone hlt hi heq.symm hy hlisted hu
      refine ⟨⟨e, stack₁, ?_, hends⟩, hprospect⟩
      cases y with
      | shift u q => cases hsame
      | reduce u r' =>
        obtain ⟨rfl, hname, hlength, hwrap⟩ := Deed.reduce.inj hsame
        exact .head (.reduce hy (hreduces.of_sameReduce
          (Rule.sameReduce_iff.mpr ⟨hname, hlength, hwrap⟩))) hsteps

end

/-! ## §3 Words -/

section

variable {g : Grammar} {noSkip : Term} {starts : List Term} {a b : Automaton} {seeds : Array Seed}
  {place : Nat → Nat} {start : Nat} {t : Term}

/-- Where the full automaton may end, no state in the same place goes on. -/
theorem Collapsed.endsIn (hb : Built g (FirstTable.ofGrammar g) noSkip starts a seeds)
    (h : Collapsed g a place b) (htop : ∀ r ∈ g.rules, ∀ t ∈ r.parts, g.terms.isTop t = false)
    {s : Nat} (hends : a.EndsIn g s) : b.EndsIn g (place s) := by
  obtain ⟨hacc, heof⟩ := hends
  obtain ⟨k, hk, hcomplete⟩ := List.any_eq_true.mp hacc
  have hlt := Automaton.lt_size_of_mem_items hk
  have hp := h.inside s hlt
  refine ⟨(h.accepting _ hp).mpr ⟨s, hlt, rfl, hacc⟩, fun hterm => ?_⟩
  obtain ⟨i, hi, heq, hterm⟩ : ∃ i < a.size, place i = place s ∧ .eof ∈ (a.state i).terms := by
    rw [State.mem_terms (g := g) (f := id)] at hterm
    rcases hterm with ⟨q, hq⟩ | ⟨name, length, wrap, hr⟩
    · obtain ⟨i, hi, heq, hdeed⟩ := (h.deeds _ hp _).mp hq
      exact ⟨i, hi, heq, State.mem_terms.mpr (.inl ⟨q, hdeed⟩)⟩
    · obtain ⟨i, hi, heq, hdeed⟩ := (h.deeds _ hp _).mp hr
      exact ⟨i, hi, heq, State.mem_terms.mpr (.inr ⟨name, length, wrap, hdeed⟩)⟩
  -- A rule of a top symbol is complete in both states.
  obtain ⟨k', hk', hdotted⟩ := h.exists_item hlt hi heq.symm hk
  obtain ⟨seed, hseed, hitems, _, hgrown⟩ := hb.exists_seed hlt
  obtain ⟨seed', hseed', hitems', _, hgrown'⟩ := hb.exists_seed hi
  have hsame : (a.state s).items = (a.state i).items := by
    rw [hitems, hitems']
    exact hgrown.items_eq_of_top htop hgrown' (hitems ▸ hk) (hitems' ▸ hk') hdotted.symm
      ((Bool.and_eq_true _ _).mp hcomplete).1
  rw [hb.mem_terms_iff, ← hsame, ← hb.mem_terms_iff] at hterm
  exact heof hterm

/-- Collapsing an automaton keeps the words that it accepts. -/
theorem Collapsed.accepts_iff (hb : Built g (FirstTable.ofGrammar g) noSkip starts a seeds)
    (h : Collapsed g a place b) (htop : ∀ r ∈ g.rules, ∀ t ∈ r.parts, g.terms.isTop t = false)
    (hone : ∀ i, (a.state i).terms.Nodup) (hempty : a.KeepsEmpty g)
    (hs : (a.state start).start = some t) (hkind : g.terms.isTop t = true) (word : List Term) :
    b.Accepts g (place start) word ↔ a.Accepts g start word := by
  constructor
  · rintro ⟨s', ⟨stack', hrun⟩, hends⟩
    obtain ⟨⟨s, stack, hsteps, hends⟩, _⟩ :=
      h.exists_run hb htop hone hempty hs hkind hrun hends .entry rfl
    exact ⟨s, ⟨stack, hsteps⟩, hends⟩
  · rintro ⟨s, ⟨stack, hsteps⟩, hends⟩
    refine ⟨place s, ⟨stack.map place, ?_⟩, h.endsIn hb htop hends⟩
    exact hsteps.lift (Config.map place) fun _ _ step => step.image fun s _ _ => h.mem_deeds s

/-- The entries of a collapsed automaton are in the places of entries. -/
theorem Collapsed.start_iff (h : Collapsed g a place b) (q : Nat) (t : Term) :
    (b.state q).start = some t ↔ ∃ i, place i = q ∧ (a.state i).start = some t := by
  constructor
  · intro hq
    obtain ⟨i, hi, rfl⟩ := h.onto q (Automaton.lt_size_of_start hq)
    exact ⟨i, rfl, (h.start i hi).symm.trans hq⟩
  · rintro ⟨i, rfl, hi⟩
    exact (h.start i (Automaton.lt_size_of_start hi)).trans hi

/-- Each state of a full automaton has its place in what the automaton is collapsed
to, also when its states have been put in groups before. -/
theorem Built.collapsed_collapse (hb : Built g (FirstTable.ofGrammar g) noSkip starts a seeds)
    {states : Automaton} (hgroups : a.Regroups states) :
    Collapsed g a (Collapse.place g states) (collapse g states).1 :=
  hgroups.collapsed (Collapse.collapsed_collapse (hgroups.isClosed hb.isClosed))

end

/-- Where a full automaton has one action for each terminal, and a goto for each symbol that is
read next and can stand for nothing, collapsing it keeps what it accepts. The entries of the
collapsed automaton are those of the full one, and from the entry of a top symbol both accept
the same words. This holds for every grammar in which top symbols do not occur in rules. -/
theorem collapse_accepts_iff {g : Grammar} {starts : List Term} {noSkip : Term}
    {full states : Automaton}
    (h : fullAutomaton g (FirstTable.ofGrammar g) starts noSkip = .ok full)
    (htop : ∀ r ∈ g.rules, ∀ t ∈ r.parts, g.terms.isTop t = false)
    (hone : ∀ i, (full.state i).terms.Nodup) (hempty : full.KeepsEmpty g)
    (hgroups : full.Regroups states) :
    let collapsed := (collapse g states).1
    let place := Collapse.place g states
    (∀ q t, (collapsed.state q).start = some t ↔
      ∃ i, place i = q ∧ (full.state i).start = some t) ∧
    ∀ i t, (full.state i).start = some t → g.terms.isTop t = true → ∀ word,
      (collapsed.Accepts g (place i) word ↔ full.Accepts g i word) := by
  obtain ⟨seeds, hb⟩ := fullAutomaton_built h
  have hc := hb.collapsed_collapse hgroups
  exact ⟨hc.start_iff, fun i t hi hkind => hc.accepts_iff hb htop hone hempty hi hkind⟩

/-- The grammar `T → A`, `T → x A y`, `A → `, `A → a`. What comes behind `a` and
behind `x a` only differs in lookahead. -/
def twoPlacesGrammar : Grammar where
  terms := ⟨#[{ name := "␄", kind := .terminal },
    { name := "⚠", kind := .nonterminal, nodeName := some "⚠", preserved := true },
    { name := "%noskip", kind := .nonterminal },
    { name := "@top", kind := .top, nodeName := some "T" },
    { name := "A", kind := .nonterminal, nodeName := some "A" },
    { name := "\"a\"", kind := .terminal }, { name := "\"x\"", kind := .terminal },
    { name := "\"y\"", kind := .terminal }], [⟨3⟩]⟩
  numbering := default
  rules := [
    ⟨⟨[], [.none]⟩, 0, ⟨4⟩, ⟨2⟩⟩,
    ⟨⟨[⟨5⟩], [.none, .none]⟩, 1, ⟨4⟩, ⟨2⟩⟩,
    ⟨⟨[⟨4⟩], [.none, .none]⟩, 2, ⟨3⟩, ⟨2⟩⟩,
    ⟨⟨[⟨6⟩, ⟨4⟩, ⟨7⟩], [.none, .none, .none, .none]⟩, 3, ⟨3⟩, ⟨2⟩⟩]

/-- The states behind `a` and `x a` become one. -/
theorem collapse_accepts_iff_twoPlaces :
    ∃ full, fullAutomaton twoPlacesGrammar (FirstTable.ofGrammar twoPlacesGrammar) [⟨3⟩] ⟨2⟩ =
        .ok full ∧
      (collapse twoPlacesGrammar full).1.size < full.size ∧ ∀ word,
        ((collapse twoPlacesGrammar full).1.Accepts twoPlacesGrammar
            (Collapse.place twoPlacesGrammar full 0) word ↔
          full.Accepts twoPlacesGrammar 0 word) := by
  have hcheck : (fullAutomaton twoPlacesGrammar (FirstTable.ofGrammar twoPlacesGrammar) [⟨3⟩]
      ⟨2⟩).toOption.any (fun a =>
        (a.toList.all fun s => s.items.all fun i => i.next?.all fun t =>
          twoPlacesGrammar.isTerminal t || s.gotos.any fun x => x.term == t) &&
        ((a.state 0).start == some ⟨3⟩ &&
          decide ((collapse twoPlacesGrammar a).1.size < a.size))) = true := by
    cbv
  obtain ⟨full, h, hcheck⟩ := exists_ok_of_any hcheck
  simp only [Bool.and_eq_true, beq_iff_eq, decide_eq_true_eq] at hcheck
  obtain ⟨hgotos, hstart, hsize⟩ := hcheck
  obtain ⟨seeds, hb⟩ := fullAutomaton_built h
  have hnone : twoPlacesGrammar.NoAmbiguities := by
    unfold Grammar.NoAmbiguities
    decide
  have hiff := collapse_accepts_iff h (by decide) (fun _ => hb.nodup_terms hnone)
    (.of_all hgotos) (.refl full)
  exact ⟨full, h, hsize, hiff.2 0 ⟨3⟩ hstart (by decide)⟩

/-! ## §4 Builds -/

namespace Compile

/-- The stages of a build that lead to its automaton. -/
theorem exists_stages_of_assembly {b : Blueprint} {journal journal' : Journal} {result : Assembly}
    (h : assembly b journal = .ok result journal') :
    ∃ j₁ rules numbering skips full states, simplify b.draft journal = .ok rules j₁ ∧
      Numbering.ofRules b.draft.terms rules = .ok numbering ∧
      result.grammar = Skipping.prune skips { terms := b.draft.terms, numbering, rules } ∧
      fullAutomaton result.grammar (FirstTable.ofGrammar result.grammar)
        (result.grammar.terms.tops ++ result.skips.withStates) b.draft.noSkip = .ok full ∧
      full.Regroups states ∧
      result.automaton = mergeIdentical result.grammar (collapse result.grammar states).1 := by
  obtain ⟨words, x, rfl, -⟩ := exists_stages h
  obtain ⟨j₁, hrules⟩ := outcome_eq_ok_iff.mp (gives_simplify b journal)
  exact ⟨j₁, _, x.numbering, x.skips, x.full, x.groups.states, hrules, x.numbered, rfl, x.built,
    TokenGroups.regroups_of_ofAutomaton x.grouped, x.automaton_assembly⟩

/-- The automaton of a build is merged from one that accepts, from the entries of top
symbols, what the full automaton accepts, if that has one action for each terminal and
a goto for each symbol that is read next and can stand for nothing. -/
theorem accepts_iff_of_assembly {source : Text.Source} {b : Blueprint} {noted : Journal}
    (hsource : Blueprint.ofSource source = (.ok b, noted)) {journal journal' : Journal}
    {result : Assembly} (h : assembly b journal = .ok result journal') :
    ∃ full states, fullAutomaton result.grammar (FirstTable.ofGrammar result.grammar)
        (result.grammar.terms.tops ++ result.skips.withStates) b.draft.noSkip = .ok full ∧
      full.Regroups states ∧
      result.automaton = mergeIdentical result.grammar (collapse result.grammar states).1 ∧
      ((∀ i, (full.state i).terms.Nodup) → full.KeepsEmpty result.grammar →
        ∀ i t, (full.state i).start = some t → result.grammar.terms.isTop t = true → ∀ word,
          ((collapse result.grammar states).1.Accepts result.grammar
              (Collapse.place result.grammar states i) word ↔
            full.Accepts result.grammar i word)) := by
  obtain ⟨j₁, rules, numbering, skips, full, states, hrules, _, hgrammar, hfull, hgroups,
    hmerged⟩ := exists_stages_of_assembly h
  have hg : b.HasGrammar result.grammar :=
    ⟨journal, j₁, rules, numbering, skips, hrules, hgrammar⟩
  obtain ⟨seeds, hb⟩ := fullAutomaton_built hfull
  refine ⟨full, states, hfull, hgroups, hmerged, fun hone hempty i t hi hkind => ?_⟩
  exact (hb.collapsed_collapse hgroups).accepts_iff hb (hg.isTop_part hsource) hone hempty hi hkind

end Compile

end GrammarCompiler
