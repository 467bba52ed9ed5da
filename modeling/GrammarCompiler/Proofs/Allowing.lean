/-
GrammarCompiler.Proofs.Allowing — which ambiguities are allowed behind the rules of a closure.

A rule that starts because of an item is told which ambiguities are allowed behind the
symbol that the item reads next. What is allowed behind a rule is in turn allowed behind
its last symbol, so an ambiguity that comes to a rule of one symbol has to be passed on
to the rules of that symbol. But rules are only looked at again when something new can
follow them. An ambiguity that comes without anything of that kind is too late, and is not
passed on. There is no other way for one to be missing: that is kept by each stage of a
closure, as its settlement is.

  §1 Telling   — what a start tells rules, and what they keep.
  §2 Late ones — ambiguities that come when a rule is not looked at again.
  §3 Closures  — the ambiguities that all rules are told of, and one that gets lost.
-/
import GrammarCompiler.Proofs.Closure

namespace GrammarCompiler

/-- The ambiguities of a gap are those of the rule, and at the end of the rule also those
that are allowed behind it. -/
theorem Item.mem_ambiguities_marksAt {i : Item} {gap : Nat} {group : String} :
    group ∈ (i.marksAt gap).ambiguities ↔ group ∈ (i.rule.marksAt gap).ambiguities ∨
      gap = i.rule.parts.length ∧ group ∈ i.ambigAhead := by
  unfold marksAt
  dsimp only
  split
  next h => simp only [Marks.join, mem_unionNames, h, true_and]
  next h => simp only [h, false_and, or_false]

namespace Closing

variable {g : Grammar} {table : FirstTable} {kernel : List Item} {group : String}

/-! ## §1 Telling -/

/-- If an item allows an ambiguity behind the symbol it reads next, the rules of that
symbol are started and allow it. -/
def Tells (g : Grammar) (group : String) (c : Closing) (i : Item) : Prop :=
  ∀ name, i.next? = some name → g.isTerminal name = false →
    group ∈ (i.marksAt (i.dot + 1)).ambiguities →
      ∃ items, c.started.lookup name = some items ∧ ∀ j ∈ items, group ∈ j.ambigAhead

theorem tells_startAll {c c' : Closing} {i : Item} (h : startAll g table kernel c i = .ok c') :
    Tells g group c' i := by
  intro name hnext hterminal hgroup
  rcases startAll_ok h with ⟨hq, _⟩ | ⟨q, hq, hstarted, _⟩
  · cases hterminal.symm.trans (ofItem?_eq_none hq hnext)
  · obtain ⟨hname, _, _, hambiguities⟩ := ofItem?_eq_some hq
    cases hnext.symm.trans hname
    refine ⟨_, hstarted ▸ lookup_put_self _ _ _, fun j hj => ?_⟩
    obtain ⟨k, _, rfl⟩ := List.mem_map.mp hj
    exact mem_unionNames.mpr (.inr (hambiguities ▸ hgroup))

/-- What rules allow they go on to allow. -/
theorem Tells.startAll {c c' : Closing} {i k : Item} (hk : Tells g group c k)
    (h : startAll g table kernel c i = .ok c') : Tells g group c' k := by
  intro name hnext hterminal hgroup
  obtain ⟨items, hl, hitems⟩ := hk name hnext hterminal hgroup
  rcases startAll_ok h with ⟨_, rfl⟩ | ⟨q, _, hstarted, _⟩
  · exact ⟨items, hl, hitems⟩
  · rw [hstarted]
    by_cases hn : name = q.name
    · subst hn
      refine ⟨_, lookup_put_self _ _ _, fun j hj => ?_⟩
      obtain ⟨k, hk, rfl⟩ := List.mem_map.mp hj
      rw [itemsFor, hl] at hk
      exact mem_unionNames.mpr (.inl (hitems k hk))
    · rw [lookup_put_of_ne hn]
      exact ⟨items, hl, hitems⟩

/-- An item of a rule that begins without rules has nothing to tell. -/
theorem tells_of_beginsWithRules_eq_false {c : Closing} {i : Item} (hd : i.dot = 0)
    (h : beginsWithRules g i.rule = false) : Tells g group c i := by
  intro name hnext hterminal
  cases hterminal.symm.trans (isTerminal_of_beginsWithRules_eq_false hd h hnext)

/-! ## §2 Late ones -/

/-- On the way of a closure, an ambiguity comes to a rule that does not allow it yet, when
there is nothing new that can follow the rule and the rule is not pending either. -/
def ComesLate (g : Grammar) (table : FirstTable) (kernel : List Item) (r : Rule)
    (group : String) : Prop :=
  ∃ c i q, Looks g table kernel c i ∧ Request.ofItem? g table i = some q ∧
    group ∈ q.ambiguities ∧ r ∉ c.pending ∧
    ∃ k ∈ c.itemsFor g kernel q, k.rule = r ∧ group ∉ k.ambigAhead ∧
      k.ahead.union q.ahead = k.ahead

/-- Nothing is left to do for an ambiguity at the item of a started rule: the rule will be
looked at again, nothing can follow it, the item has told of the ambiguity, or one of the
kernel will have. Or the ambiguity is late; then it is one that is allowed behind a rule
of one symbol, and not by the rule itself. -/
inductive Handled (g : Grammar) (table : FirstTable) (kernel : List Item) (group : String)
    (c : Closing) (i : Item) : Prop where
  | pending (h : i.rule ∈ c.pending)
  | empty (h : i.ahead = TermSet.empty)
  | told (h : Tells g group c i)
  | kernel (k : Item) (hk : k ∈ kernel) (hd : i.toDotted = k.toDotted)
      (hgroup : group ∈ (k.marksAt (k.dot + 1)).ambiguities)
  | late (hparts : i.rule.parts.length = 1) (hgap : group ∉ (i.rule.marksAt 1).ambiguities)
      (h : ComesLate g table kernel i.rule group)

theorem Handled.startAll {c c' : Closing} {i j : Item} (hj : Handled g table kernel group c j)
    (h : startAll g table kernel c i = .ok c') : Handled g table kernel group c' j := by
  cases hj with
  | pending hp => exact .pending (mem_pending_startAll h hp)
  | empty he => exact .empty he
  | told ht => exact .told (ht.startAll h)
  | kernel k hk hd hgroup => exact .kernel k hk hd hgroup
  | late hparts hgap hlate => exact .late hparts hgap hlate

theorem Handled.drop {c : Closing} {r : Rule} {pending : List Rule} {j : Item}
    (hp : c.pending = r :: pending) (h : Handled g table kernel group c j) :
    j.rule = r ∨ Handled g table kernel group { c with pending } j := by
  cases h with
  | pending hr => exact (List.mem_cons.mp (hp ▸ hr)).imp_right .pending
  | empty he => exact .inr (.empty he)
  | told ht => exact .inr (.told ht)
  | kernel k hk hd hgroup => exact .inr (.kernel k hk hd hgroup)
  | late hparts hgap hlate => exact .inr (.late hparts hgap hlate)

/-- An item that has already allowed an ambiguity is handled as before when it grows, if
nothing new can follow it. -/
theorem Handled.congr {c : Closing} {i j : Item} (h : Handled g table kernel group c i)
    (hgroup : group ∈ (i.marksAt (i.dot + 1)).ambiguities) (hd : j.toDotted = i.toDotted)
    (ha : j.ahead = i.ahead) : Handled g table kernel group c j := by
  have hrule : j.rule = i.rule := congrArg Dotted.rule hd
  cases h with
  | pending hp => exact .pending (hrule ▸ hp)
  | empty he => exact .empty (ha.trans he)
  | told ht =>
    refine .told fun name hnext hterminal _ => ?_
    rw [hd] at hnext
    exact ht name hnext hterminal hgroup
  | kernel k hk hd' hk' => exact .kernel k hk (hd.trans hd') hk'
  | late hparts hgap hlate => exact .late (hrule ▸ hparts) (hrule ▸ hgap) (hrule ▸ hlate)

/-- Looking at an item handles all items, if the others were handled before. -/
theorem handled_startAll {c c' : Closing} {i : Item} (hlooks : Looks g table kernel c i)
    (ht : Tidy g c.started) (h : startAll g table kernel c i = .ok c')
    (hc : ∀ j ∈ c.entries, j = i ∨ Handled g table kernel group c j) :
    ∀ j ∈ c'.entries, Handled g table kernel group c' j := by
  have hkeep : ∀ j ∈ c.entries, Handled g table kernel group c' j := by
    intro j hj
    rcases hc j hj with rfl | hhandled
    · exact .told (tells_startAll h)
    · exact hhandled.startAll h
  intro j hj
  rcases mem_entries_cases h ht hj with hj | ⟨q, hq, k, hk, rfl, hnew⟩ | hp | ⟨hdot, hb⟩
  · exact hkeep j hj
  · have hdot : k.dot = 0 := itemsFor_dot ht hk
    by_cases hold : group ∈ (k.marksAt (k.dot + 1)).ambiguities
    · refine Handled.congr (i := k) ?_ hold rfl hnew
      rcases mem_itemsFor hk with hk | ⟨r, _, rfl⟩
      · exact hkeep k hk
      · rcases newItem_cases kernel q r with hker | ⟨hempty, _⟩
        · exact .kernel _ hker rfl hold
        · exact .empty hempty
    rw [Item.mem_ambiguities_marksAt, hdot, Nat.zero_add, not_or, not_and] at hold
    obtain ⟨hgap, hbehind⟩ := hold
    -- The item did not have the ambiguity to tell of before: it may come right now.
    by_cases hcomes : 1 = k.rule.parts.length ∧ group ∈ q.ambiguities
    · by_cases hp : k.rule ∈ c.pending
      · exact .pending (mem_pending_startAll h hp)
      · exact .late hcomes.1.symm hgap
          ⟨c, i, q, hlooks, hq, hcomes.2, hp, k, hk, rfl, hbehind hcomes.1, hnew⟩
    · refine .told fun name _ _ hgroup => ?_
      have hgrown : group ∈ (k.rule.marksAt 1).ambiguities ∨
          1 = k.rule.parts.length ∧ group ∈ unionNames k.ambigAhead q.ambiguities := by
        have := Item.mem_ambiguities_marksAt.mp hgroup
        rwa [show (q.grown k).dot = 0 from hdot] at this
      rw [mem_unionNames] at hgrown
      rcases hgrown with hgroup | ⟨hparts, hgroup | hgroup⟩
      · exact absurd hgroup hgap
      · exact absurd hgroup (hbehind hparts)
      · exact absurd ⟨hparts, hgroup⟩ hcomes
  · exact .pending hp
  · exact .told (tells_of_beginsWithRules_eq_false hdot hb)

/-- At the end all items of the kernel have told of an ambiguity, and so have the others
that something can follow, unless it came too late. -/
theorem Finds.tells {c : Closing} (h : Finds g table kernel c) (group : String) :
    (∀ k ∈ kernel, Tells g group c k) ∧
      ∀ i ∈ c.entries, i.ahead = TermSet.empty ∨ Tells g group c i ∨
        i.rule.parts.length = 1 ∧ group ∉ (i.rule.marksAt 1).ambiguities ∧
          ComesLate g table kernel i.rule group := by
  obtain ⟨hstage, hp⟩ := h.stage
  have hhandled := hstage.entries (P := Handled g table kernel group) handled_startAll Handled.drop
  have hkernel : ∀ k ∈ kernel, Tells g group c k := fun k hk =>
    (hstage.looked (P := Tells g group) tells_startAll (fun hstep htells => htells.startAll hstep)
      (fun _ htells => htells) k hk).resolve_left List.not_mem_nil
  refine ⟨hkernel, fun i hi => ?_⟩
  cases hhandled i hi with
  | pending h =>
    rw [hp] at h
    cases h
  | empty h => exact .inl h
  | told h => exact .inr (.inl h)
  | kernel k hk hd hgroup =>
    refine .inr (.inl fun name hnext hterminal _ => ?_)
    rw [hd] at hnext
    exact hkernel k hk name hnext hterminal hgroup
  | late hparts hgap hlate => exact .inr (.inr ⟨hparts, hgap, hlate⟩)

end Closing

/-! ## §3 Closures -/

section

variable {g : Grammar} {table : FirstTable} {kernel items : List Item}

open Closing

/-- Where a symbol with rules is read next, the ambiguities of the gap behind it are
allowed behind its rules, and so are those allowed behind the whole rule if the symbol
comes last. Only one of the latter can be missing, at the beginning of a rule of one
symbol, if it came too late there. -/
theorem closure_allows (h : closure g table kernel = .ok items) {i : Item} (hi : i ∈ items)
    (hlooked : i ∈ kernel ∨ i.ahead ≠ .empty) {name : Term} (hnext : i.next? = some name)
    (hterminal : g.isTerminal name = false) {group : String}
    (hgroup : group ∈ (i.rule.marksAt (i.dot + 1)).ambiguities ∨
      i.dot + 1 = i.rule.parts.length ∧ group ∈ i.ambigAhead)
    {j : Item} (hj : j ∈ items) (hdot : j.dot = 0) (hrule : j.rule ∈ g.rulesFor name) :
    group ∈ j.ambigAhead ∨
      (i.dot = 0 ∧ i.rule.parts.length = 1 ∧ group ∉ (i.rule.marksAt 1).ambiguities ∧
        ComesLate g table kernel i.rule group) := by
  obtain ⟨c, hc, rfl⟩ := closure_ok h
  obtain ⟨hkernel, hentries⟩ := hc.tells group
  have htells : Tells g group c i ∨ i.dot = 0 ∧ i.rule.parts.length = 1 ∧
      group ∉ (i.rule.marksAt 1).ambiguities ∧ ComesLate g table kernel i.rule group := by
    rcases mem_items.mp hi with ⟨hi, _⟩ | hi
    · exact .inl (hkernel i hi)
    · rcases hlooked with hlooked | hne
      · exact .inl (hkernel i hlooked)
      · exact ((hentries i hi).resolve_left hne).imp_right fun hlate =>
          ⟨hc.tidy.dot_eq_zero hi, hlate⟩
  refine htells.imp_left fun htells => ?_
  obtain ⟨its, hl, hits⟩ := htells name hnext hterminal (Item.mem_ambiguities_marksAt.mpr hgroup)
  -- The rules of the symbol were started, so the item of the closure is the one started.
  rw [← hc.tidy.rules name its hl] at hrule
  obtain ⟨s, hs, heq⟩ := List.mem_map.mp hrule
  have hentry : s ∈ c.entries := (mem_entries hc.tidy.keys).mpr ⟨name, its, hl, hs⟩
  rcases mem_items.mp hj with ⟨_, hnone⟩ | hj
  · exact absurd ⟨hdot, s, hentry, heq⟩ hnone
  · exact hc.tidy.eq_of_rule hentry hj heq ▸ hits s hs

end

/-- The grammar `T → C y`, `T → A x`, `C → A x`, `A → B`, `B → b`, where an ambiguity is
allowed behind the `A` of `C`. -/
def allowing : Grammar where
  terms := ⟨#[{ name := "␄", kind := .terminal }, { name := "⚠", kind := .nonterminal },
    { name := "T", kind := .top }, { name := "C", kind := .nonterminal },
    { name := "A", kind := .nonterminal }, { name := "B", kind := .nonterminal },
    { name := "y", kind := .terminal }, { name := "x", kind := .terminal },
    { name := "b", kind := .terminal }], [⟨2⟩]⟩
  numbering := default
  rules := [
    ⟨⟨[⟨3⟩, ⟨6⟩], [.none, .none, .none]⟩, 0, ⟨2⟩, .error⟩,
    ⟨⟨[⟨4⟩, ⟨7⟩], [.none, .none, .none]⟩, 1, ⟨2⟩, .error⟩,
    ⟨⟨[⟨4⟩, ⟨7⟩], [.none, { ambiguities := ["amb"] }, .none]⟩, 2, ⟨3⟩, .error⟩,
    ⟨⟨[⟨5⟩], [.none, .none]⟩, 3, ⟨4⟩, .error⟩,
    ⟨⟨[⟨8⟩], [.none, .none]⟩, 4, ⟨5⟩, .error⟩]

/-- The starts of the rules for `T`, behind which the input ends. -/
def allowingKernel : List Item :=
  (allowing.rulesFor ⟨2⟩).map fun r =>
    { rule := r, dot := 0, ahead := TermSet.empty.insert .eof, ambigAhead := [],
      skipAhead := .error }

/-- The ambiguity is allowed behind the rule `A → B`. -/
theorem closure_allows_allowing :
    ∃ items, closure allowing (.ofGrammar allowing) allowingKernel = .ok items ∧
      ∃ j ∈ items, j.toDotted = ⟨allowing.rules[3], 0⟩ ∧ "amb" ∈ j.ambigAhead := by
  have hcheck : (closure allowing (.ofGrammar allowing) allowingKernel).toOption.any (fun items =>
      items.any (fun i => i.toDotted == ⟨allowing.rules[2], 0⟩ && i.ahead != .empty) &&
        items.any fun j => j.toDotted == ⟨allowing.rules[3], 0⟩) = true := by
    cbv
  obtain ⟨items, hclosed, hcheck⟩ := exists_ok_of_any hcheck
  simp only [Bool.and_eq_true, List.any_eq_true, beq_iff_eq, bne_iff_ne] at hcheck
  obtain ⟨⟨i, hi, hid, hne⟩, j, hj, hjd⟩ := hcheck
  have hnext : i.next? = some ⟨4⟩ := by
    rw [hid]
    rfl
  have hgap : "amb" ∈ (i.rule.marksAt (i.dot + 1)).ambiguities := by
    rw [hid]
    decide
  have hrule : j.rule ∈ allowing.rulesFor ⟨4⟩ := by
    rw [hjd]
    decide
  have hallows := closure_allows hclosed hi (.inr hne) hnext (by decide) (.inl hgap) hj
    (Item.dot_of_dotted hjd) hrule
  refine ⟨items, hclosed, j, hj, hjd, hallows.resolve_right fun hlate => ?_⟩
  rw [hid] at hlate
  exact absurd hlate.2.1 (by decide)

/-- But it is not allowed behind `B → b`: when it comes to `A → B`, that rule has been
looked at, and nothing new can follow it. -/
theorem closure_loses_ambiguity :
    ∃ items, closure allowing (.ofGrammar allowing) allowingKernel = .ok items ∧
      ∃ i ∈ items, ∃ j ∈ items, i.ahead ≠ .empty ∧ i.next? = some ⟨5⟩ ∧
        allowing.isTerminal ⟨5⟩ = false ∧ i.dot + 1 = i.rule.parts.length ∧
          "amb" ∈ i.ambigAhead ∧ j.dot = 0 ∧ j.rule ∈ allowing.rulesFor ⟨5⟩ ∧
            "amb" ∉ j.ambigAhead := by
  have hcheck : (closure allowing (.ofGrammar allowing) allowingKernel).toOption.any (fun items =>
      items.any fun i => items.any fun j => i.ahead != .empty && (i.next? == some ⟨5⟩ &&
        (!allowing.isTerminal ⟨5⟩ && (i.dot + 1 == i.rule.parts.length &&
          (i.ambigAhead.contains "amb" && (j.dot == 0 &&
            ((allowing.rulesFor ⟨5⟩).contains j.rule && !j.ambigAhead.contains "amb"))))))) =
      true := by
    cbv
  obtain ⟨items, hclosed, hcheck⟩ := exists_ok_of_any hcheck
  refine ⟨items, hclosed, ?_⟩
  simpa only [Bool.and_eq_true, List.any_eq_true, beq_iff_eq, bne_iff_ne, Bool.not_eq_true',
    List.contains_iff_mem, Bool.eq_false_iff, ne_eq] using hcheck

end GrammarCompiler
