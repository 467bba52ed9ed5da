/-
GrammarCompiler.Proofs.Following — what can follow the rules of a closure, exactly.

An item that reads a symbol next predicts the rules of that symbol, with what comes
next behind it. A closure says of each rule what is predicted for it from the items of
its kernel, step by step: all of it, since all started rules are settled in the end,
and nothing else, since rules are only looked at that something can follow. In which
order the items and the rules are looked at does not matter for that.

  §1 Predictions — what comes next behind parts of a rule, and what is predicted.
  §2 Soundness   — only what is predicted can follow rules that are started.
  §3 Endings     — closures with the first table of the grammar come to an end.
  §4 Exactness   — closures say what is predicted.
-/
import GrammarCompiler.Proofs.Beginning
import GrammarCompiler.Proofs.Ending

namespace GrammarCompiler

/-! ## §1 Predictions -/

/-- `u` can come next behind what was read, if `parts` are still to be read and then
comes `t`. -/
def Grammar.ComesNext (g : Grammar) (parts : List Term) (t u : Term) : Prop :=
  g.Begins parts u ∨ g.Becomes parts [] ∧ u = t

/-- What is predicted from the items of a kernel, for one dotted rule and one terminal
that can follow the rule. -/
inductive Grammar.Predicts (g : Grammar) (kernel : List Item) : Dotted → Term → Prop where
  | kernel {k : Item} {t : Term} (hk : k ∈ kernel) (ht : k.ahead.contains t = true) :
      Predicts g kernel k.toDotted t
  | start {d : Dotted} {t u : Term} {r : Rule} (h : Predicts g kernel d t)
      (hnext : d.next? = some r.name) (hn : g.isTerminal r.name = false) (hr : r ∈ g.rules)
      (hu : g.ComesNext (d.rule.parts.drop (d.dot + 1)) t u) : Predicts g kernel ⟨r, 0⟩ u

section

variable {g : Grammar} {parts parts' : List Term} {t u : Term}

theorem Grammar.begins_iff : g.Begins parts t ↔
    (FirstTable.beginnings g (.ofGrammar g) .empty parts).contains t = true :=
  ⟨(FirstTable.closed_ofGrammar g).contains_of_begins, (FirstTable.sound_ofGrammar g).begins⟩

theorem Grammar.becomes_nil_iff : g.Becomes parts [] ↔
    FirstTable.vanishes g (.ofGrammar g) parts = true :=
  ⟨(FirstTable.closed_ofGrammar g).vanishes_of_becomes, (FirstTable.sound_ofGrammar g).becomes_nil⟩

/-- What comes next is what a sequence can begin with that ends with the terminal. -/
theorem Grammar.comesNext_iff (ht : g.isTerminal t = true) :
    g.ComesNext parts t u ↔ g.Begins (parts ++ [t]) u := by
  have hlast : (FirstTable.beginnings g (.ofGrammar g) .empty [t]).contains u = true ↔ u = t := by
    simp [FirstTable.beginnings, ht, TermSet.contains_insert, TermSet.contains_empty, eq_comm]
  rw [ComesNext, begins_iff, begins_iff, becomes_nil_iff, FirstTable.contains_beginnings_append,
    hlast]

/-- The first table says what comes next behind a part of a rule, when there is
something to follow the rule. -/
theorem Grammar.exists_comesNext {r : Rule} {position : Nat} {after : TermSet}
    (hne : ∃ t, after.contains t = true) :
    ((FirstTable.ofGrammar g).termsAhead g r position after).contains u = true ↔
      ∃ t, after.contains t = true ∧ g.ComesNext (r.parts.drop (position + 1)) t u := by
  rw [FirstTable.contains_termsAhead_ofGrammar]
  constructor
  · rintro (hbegins | ⟨hnil, hu⟩)
    · exact hne.imp fun t ht => ⟨ht, .inl hbegins⟩
    · exact ⟨u, hu, .inr ⟨hnil, rfl⟩⟩
  · rintro ⟨t, ht, hbegins | ⟨hnil, rfl⟩⟩
    · exact .inl hbegins
    · exact .inr ⟨hnil, ht⟩

end

namespace Closing

variable {g : Grammar} {kernel : List Item}

/-! ## §2 Soundness -/

/-- Only what is predicted can follow the rules that are started, and something can
follow those that are pending. -/
structure Foreseen (g : Grammar) (kernel : List Item) (c : Closing) : Prop where
  predicted : ∀ i ∈ c.entries, ∀ t, i.ahead.contains t = true → g.Predicts kernel i.toDotted t
  pending : ∀ r ∈ c.pending, ∃ i ∈ c.entries, i.rule = r ∧ ∃ t, i.ahead.contains t = true

/-- Only what is predicted can follow the items that a request is about. -/
theorem predicts_itemsFor {c : Closing} (hc : Foreseen g kernel c) {q : Request} {k : Item}
    (hk : k ∈ c.itemsFor g kernel q) {t : Term} (ht : k.ahead.contains t = true) :
    g.Predicts kernel k.toDotted t := by
  rcases mem_itemsFor hk with hk | ⟨r, _, rfl⟩
  · exact hc.predicted k hk t ht
  · rcases newItem_cases kernel q r with hnew | ⟨hempty, _⟩
    · exact .kernel hnew ht
    · exact absurd hempty (TermSet.ne_empty ht)

/-- Starting rules on behalf of an item that something can follow adds what is
predicted. -/
theorem Foreseen.startAll {c c' : Closing} {i : Item} (hc : Foreseen g kernel c)
    (ht : Tidy g c.started) (h : startAll g (.ofGrammar g) kernel c i = .ok c')
    (hne : ∃ t, i.ahead.contains t = true)
    (hi : ∀ t, i.ahead.contains t = true → g.Predicts kernel i.toDotted t) :
    Foreseen g kernel c' where
  predicted j hj t hjt := by
    rcases mem_entries_startAll h hj with hj | ⟨q, hq, k, hk, rfl⟩
    · exact hc.predicted j hj t hjt
    · rw [Request.grown, TermSet.contains_union, Bool.or_eq_true] at hjt
      rcases hjt with hjt | hjt
      · exact predicts_itemsFor hc hk hjt
      · obtain ⟨hnext, hn, hahead, -⟩ := ofItem?_eq_some hq
        rw [hahead, Grammar.exists_comesNext hne] at hjt
        obtain ⟨u, hu, hcomes⟩ := hjt
        have hrule : k.rule ∈ g.rulesFor q.name :=
          itemsFor_rules kernel ht q ▸ List.mem_map.mpr ⟨k, hk, rfl⟩
        obtain ⟨hr, hname⟩ := mem_rulesFor.mp hrule
        have hdotted : (q.grown k).toDotted = ⟨k.rule, 0⟩ := by
          rw [← itemsFor_dot ht hk]
          rfl
        rw [← hname] at hnext hn
        exact hdotted ▸ .start (hi u hu) hnext hn hr hcomes
  pending r hr := by
    have hkept : r ∈ c.pending →
        ∃ i ∈ c'.entries, i.rule = r ∧ ∃ t, i.ahead.contains t = true := by
      intro hr
      obtain ⟨j, hj, rfl, t, hjt⟩ := hc.pending r hr
      obtain ⟨j', hj', hbelow⟩ := exists_below_of_startAll ht h hj
      exact ⟨j', hj', hbelow.rule, t, hbelow.ahead t hjt⟩
    rcases startAll_ok h with ⟨_, rfl⟩ | ⟨q, hq, _, hpending⟩
    · exact hkept hr
    · rw [hpending] at hr
      rcases mem_pending_of_grow hr with hr | ⟨k, hk, rfl, hnew⟩
      · exact hkept hr
      · refine ⟨q.grown k, grown_mem_entries h hq hk, rfl, TermSet.exists_contains fun hempty => ?_⟩
        -- Where nothing can follow the rule afterwards, nothing was new.
        refine hnew (TermSet.ext fun t => ?_)
        have ht : (k.ahead.union q.ahead).contains t = false := by
          rw [show k.ahead.union q.ahead = .empty from hempty, TermSet.contains_empty]
        have hk : k.ahead.contains t = false := by
          rw [TermSet.contains_union, Bool.or_eq_false_iff] at ht
          exact ht.1
        rw [ht, hk]

/-- What is started in a closure is predicted, if something can follow all items of the
kernel. -/
theorem Stage.foreseen {rest : List Item} {c : Closing}
    (h : Stage g (.ofGrammar g) kernel rest c)
    (hne : ∀ k ∈ kernel, ∃ t, k.ahead.contains t = true) : Foreseen g kernel c := by
  induction h with
  | start => exact ⟨fun i hi => (List.not_mem_nil hi).elim, fun r hr => (List.not_mem_nil hr).elim⟩
  | kernel hstage hstep ih =>
    have hk := hstage.subset _ (.head _)
    exact ih.startAll hstage.tidy hstep (hne _ hk) fun t ht => .kernel hk ht
  | @pending c c' r pending i hstage hp hi hstep ih =>
    have ht := hstage.tidy
    obtain ⟨hmem, rfl⟩ := mem_entries_of_itemOf? hi
    obtain ⟨j, hj, hrule, hjt⟩ := ih.pending i.rule (hp ▸ .head _)
    obtain rfl : j = i := ht.eq_of_rule hj hmem hrule
    have hc : Foreseen g kernel { c with pending } :=
      ⟨ih.predicted, fun r hr => ih.pending r (hp ▸ .tail _ hr)⟩
    exact hc.startAll (c := { c with pending }) ht hstep hjt (ih.predicted j hj)
  | drop _ hp _ ih => exact ⟨ih.predicted, fun r hr => ih.pending r (hp ▸ .tail _ hr)⟩

end Closing

/-! ## §3 Endings -/

/-- A grammar whose rules are all different, with parts that are symbols of the
grammar. -/
structure Grammar.IsProper (g : Grammar) : Prop where
  nodup : g.rules.Nodup
  parts : ∀ r ∈ g.rules, ∀ t ∈ r.parts, t ∈ g.terms.all

/-- An item for a rule of a grammar, which symbols of the grammar can follow. -/
structure Item.Of (g : Grammar) (i : Item) : Prop where
  rule : i.rule ∈ g.rules
  knows : g.Knows i.ahead

namespace Closing

variable {g : Grammar} {kernel : List Item}

/-- Only symbols of the grammar come behind a part of a rule. -/
theorem knows_termsAhead (hg : g.IsProper) {i : Item} (hi : i.Of g) :
    g.Knows ((FirstTable.ofGrammar g).termsAhead g i.rule i.dot i.ahead) := by
  intro t ht
  rw [FirstTable.termsAhead, FirstTable.contains_beginnings_iff] at ht
  rcases ht with ht | ⟨_, ht⟩
  · have hpart := FirstTable.mem_of_contains_beginnings (FirstTable.within_ofGrammar g)
      (fun p hp => List.mem_flatMap.mpr ⟨i.rule, hi.rule, List.mem_of_mem_drop hp⟩) ht
    obtain ⟨r, hr, hpart⟩ := List.mem_flatMap.mp hpart
    exact hg.parts r hr t hpart
  · exact hi.knows t ht

/-- Items of the grammar start items of the grammar, unless what may be skipped behind
them is inconsistent. -/
theorem starts_of_isProper (hg : g.IsProper) (hk : ∀ k ∈ kernel, k.Of g) :
    Starts g (.ofGrammar g) kernel (Item.Of g)
      fun e => ∃ text, e = .grammar (.inconsistentSkip text) none where
  knows i q hi hq := by
    rw [(ofItem?_eq_some hq).2.2.1]
    exact knows_termsAhead hg hi
  outcome c i hc hi := by
    cases hstep : startAll g (.ofGrammar g) kernel c i with
    | error e => exact startAll_error hstep
    | ok c' =>
      intro j hj
      rcases mem_entries_startAll hstep hj with hj | ⟨q, hq, k, hk', rfl⟩
      · exact hc j hj
      · have hof : k.Of g := by
          rcases mem_itemsFor hk' with hk' | ⟨r, hr, rfl⟩
          · exact hc k hk'
          · rcases newItem_cases kernel q r with hnew | ⟨hempty, _⟩
            · exact hk _ hnew
            · exact ⟨(newItem_rule kernel q r).symm ▸ (mem_rulesFor.mp hr).1, hempty ▸ g.knows_empty⟩
        have hknows : g.Knows q.ahead := (ofItem?_eq_some hq).2.2.1 ▸ knows_termsAhead hg hi
        exact ⟨hof.rule, hof.knows.union hknows⟩

end Closing

/-! ## §4 Exactness -/

section

variable {g : Grammar} {kernel items : List Item}

/-- All that is predicted can follow the items of a closure. -/
theorem exists_of_predicts (h : closure g (.ofGrammar g) kernel = .ok items)
    (hk : AreApart kernel) {d : Dotted} {t : Term} (hd : g.Predicts kernel d t) :
    ∃ i ∈ items, i.toDotted = d ∧ i.ahead.contains t = true := by
  induction hd with
  | kernel hmem ht =>
    obtain ⟨i, hi, hbelow⟩ := closure_keeps h hk hmem
    exact ⟨i, hi, hbelow.dotted, hbelow.ahead _ ht⟩
  | @start d t u r _ hnext hn hr hu ih =>
    obtain ⟨i, hi, rfl, ht⟩ := ih
    obtain ⟨j, hj, hdotted, hahead⟩ := closure_complete h hi hnext hn (TermSet.ne_empty ht)
      (Closing.mem_rulesFor.mpr ⟨hr, rfl⟩)
    exact ⟨j, hj, hdotted, hahead u ((Grammar.exists_comesNext ⟨t, ht⟩).mpr ⟨t, ht, hu⟩)⟩

/-- What can follow the items of a closure is predicted. -/
theorem predicts_of_mem_closure (h : closure g (.ofGrammar g) kernel = .ok items)
    (hne : ∀ k ∈ kernel, k.ahead ≠ .empty) {i : Item} (hi : i ∈ items) {t : Term}
    (ht : i.ahead.contains t = true) : g.Predicts kernel i.toDotted t := by
  obtain ⟨c, hc, rfl⟩ := Closing.closure_ok h
  rcases Closing.mem_items.mp hi with ⟨hi, _⟩ | hi
  · exact .kernel hi ht
  · exact (hc.stage.1.foreseen fun k hk => TermSet.exists_contains (hne k hk)).predicted i hi t ht

/-- A closure is found, or else what may be skipped behind a rule is inconsistent. A
closure has one item for each dotted rule. Of rules that were read on it has the items
of the kernel, and exactly what is predicted can follow the rules that start. -/
theorem closure_exact (hg : g.IsProper) (hk : ∀ k ∈ kernel, k.Of g ∧ k.ahead ≠ .empty)
    (hnodup : (kernel.map Item.toDotted).Nodup) :
    Outcome (fun e => ∃ text, e = .grammar (.inconsistentSkip text) none)
      (fun items => (items.map Item.toDotted).Nodup ∧
        (∀ i : Item, i.dot ≠ 0 → (i ∈ items ↔ i ∈ kernel)) ∧
        ∀ r t, (∃ i ∈ items, i.toDotted = ⟨r, 0⟩ ∧ i.ahead.contains t = true) ↔
          g.Predicts kernel ⟨r, 0⟩ t)
      (closure g (.ofGrammar g) kernel) := by
  have hends := (Closing.starts_of_isProper hg fun k hmem => (hk k hmem).1).closure
    fun k hmem => (hk k hmem).1
  cases hclosed : closure g (.ofGrammar g) kernel with
  | error e =>
    rw [hclosed] at hends
    exact hends
  | ok items =>
    refine ⟨closure_nodup hg.nodup hclosed hnodup, fun i hd => mem_closure_of_dot_ne_zero hclosed hd,
      fun r t => ⟨?_, exists_of_predicts hclosed (areApart_of_nodup hnodup)⟩⟩
    rintro ⟨i, hi, hdotted, ht⟩
    exact hdotted ▸ predicts_of_mem_closure hclosed (fun k hmem => (hk k hmem).2) hi ht

end

/-- The grammar `T → L`, `L → L x`, `L → `. -/
def listing : Grammar where
  terms := ⟨#[{ name := "␄", kind := .terminal }, { name := "⚠", kind := .nonterminal },
    { name := "T", kind := .top }, { name := "L", kind := .nonterminal },
    { name := "x", kind := .terminal }], [⟨2⟩]⟩
  numbering := default
  rules := [
    ⟨⟨[⟨3⟩], [.none, .none]⟩, 0, ⟨2⟩, .error⟩,
    ⟨⟨[⟨3⟩, ⟨4⟩], [.none, .none, .none]⟩, 1, ⟨3⟩, .error⟩,
    ⟨⟨[], [.none]⟩, 2, ⟨3⟩, .error⟩]

/-- The start of `T → L`, behind which the input ends. -/
def listingStart : Item where
  rule := listing.rules[0]
  dot := 0
  ahead := TermSet.empty.insert .eof
  ambigAhead := []
  skipAhead := .error

/-- In that grammar `x` can follow the empty rule, since it is read behind `L` in a rule
that `L` itself starts. -/
theorem closure_exact_listing :
    ∃ items, closure listing (.ofGrammar listing) [listingStart] = .ok items ∧
      (items.map Item.toDotted).Nodup ∧
      ∃ i ∈ items, i.toDotted = ⟨listing.rules[2], 0⟩ ∧ i.ahead.contains ⟨4⟩ = true := by
  have hproper : listing.IsProper := ⟨by decide, by decide⟩
  have hknows : listing.Knows listingStart.ahead := by
    intro t ht
    simp only [listingStart, TermSet.contains_insert, TermSet.contains_empty, Bool.false_or,
      decide_eq_true_eq] at ht
    exact ht ▸ by decide
  have hkernel : ∀ k ∈ [listingStart], k.Of listing ∧ k.ahead ≠ .empty := by
    intro k hk
    cases List.mem_singleton.mp hk
    exact ⟨⟨by decide, hknows⟩, by decide⟩
  have hexact := closure_exact hproper hkernel (List.nodup_singleton _)
  have hok : (closure listing (.ofGrammar listing) [listingStart]).isOk = true := by cbv
  cases hclosed : closure listing (.ofGrammar listing) [listingStart] with
  | error e =>
    rw [hclosed] at hok
    cases hok
  | ok items =>
    rw [hclosed] at hexact
    obtain ⟨hnodup, -, hpredicts⟩ := hexact
    refine ⟨items, rfl, hnodup, (hpredicts _ _).mpr ?_⟩
    have hentry : listing.Predicts [listingStart] ⟨listing.rules[0], 0⟩ .eof :=
      .kernel (k := listingStart) (.head _) (by decide)
    have hlist : listing.Predicts [listingStart] ⟨listing.rules[1], 0⟩ .eof :=
      .start hentry (by decide) (by decide) (by decide) (.inr ⟨.refl, rfl⟩)
    exact .start hlist (by decide) (by decide) (by decide) (.inl ⟨by decide, [], .refl⟩)

end GrammarCompiler
