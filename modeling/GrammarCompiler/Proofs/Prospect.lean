/-
GrammarCompiler.Proofs.Prospect — what can still come.

A stack of states has a prospect of a word if some item in its top state could
be read to the end, and then the rule that it belongs to could be completed
farther down, and so on to the bottom, by exactly that word (`Prospect`). A stack
on which a run may end has a prospect of nothing, and going back over a step
keeps the prospect (`Prospect.before_shift`, `Prospect.before_reduce`). Going back
over a reduction also shows that the terminal that comes next is among those that
can follow the rule there: so every step that is on the way to the end is one
that lookahead allows.

  §1 Prospects — what items still have to read, all the way down.
  §2 Lookahead — what can come behind a rule can follow its item.
  §3 Back      — from the end of a run to its beginning.
-/
import GrammarCompiler.Proofs.Resolution
import GrammarCompiler.Proofs.Soundness

namespace GrammarCompiler

/-! ## §1 Prospects -/

/-- `a.Follows g start stack r rest`: in the state on top of the stack, `rest` can
come behind rule `r`. At the bottom nothing can come behind the rules of the
start symbol. Farther up an item reads the name of the rule next; then the other
parts of its own rule come, and what can come behind that rule where it began. -/
inductive Automaton.Follows (a : Automaton) (g : Grammar) (start : Nat) :
    List Nat → Rule → List Term → Prop where
  | top {r : Rule} (entry : (a.state start).start = some r.name) : Follows a g start [start] r []
  | part {p : Nat} {below : List Nat} {r : Rule} {j : Item} {v w : List Term}
      (reads : j ∈ (a.state p).items) (next : j.next? = some r.name)
      (nonterminal : g.isTerminal r.name = false)
      (others : Derives g.isTerminal g.rules (j.rule.parts.drop (j.dot + 1)) v)
      (after : Follows a g start ((p :: below).drop j.dot) j.rule w) :
      Follows a g start (p :: below) r (v ++ w)

/-- `a.Prospect g start stack rest`: an item of the state on top of the stack has
still to read a beginning of `rest`, and what is left can come behind its
rule. -/
inductive Automaton.Prospect (a : Automaton) (g : Grammar) (start : Nat) :
    List Nat → List Term → Prop where
  | intro {p : Nat} {below : List Nat} {i : Item} {v w : List Term}
      (holds : i ∈ (a.state p).items)
      (left : Derives g.isTerminal g.rules (i.rule.parts.drop i.dot) v)
      (after : a.Follows g start ((p :: below).drop i.dot) i.rule w) :
      Prospect a g start (p :: below) (v ++ w)

section

variable {g : Grammar} {table : FirstTable} {noSkip : Term} {starts : List Term} {a : Automaton}
  {seeds : Array Seed} {start : Nat} {t : Term}

/-- The rules of the items of a state are rules of the grammar. -/
theorem Built.rule_mem (hb : Built g table noSkip starts a seeds) {p : Nat} {i : Item}
    (hi : i ∈ (a.state p).items) : i.rule ∈ g.rules := by
  obtain ⟨seed, _, hitems, _, hgrown⟩ := hb.exists_seed (Automaton.lt_size_of_mem_items hi)
  exact hgrown.rule_mem i (hitems ▸ hi)

/-- The items of a state are for different dotted rules. -/
theorem Built.areApart (hb : Built g table noSkip starts a seeds) (p : Nat) :
    AreApart (a.state p).items := by
  intro i hi
  obtain ⟨seed, _, hitems, _, hgrown⟩ := hb.exists_seed (Automaton.lt_size_of_mem_items hi)
  rw [hitems] at hi ⊢
  exact hgrown.areApart.2 i hi

/-- Where there is more on the stack than the entry state, the prospect is that
of an item that has read something. -/
theorem Automaton.Follows.exists_begun (hb : Built g table noSkip starts a seeds)
    {stack : List Nat} {r : Rule} {w : List Term} (h : a.Follows g start stack r w)
    (hr : r ∈ g.rules) {v : List Term} (hv : Derives g.isTerminal g.rules r.parts v) {p q : Nat}
    {below : List Nat} (hstack : stack = p :: q :: below) :
    ∃ i ∈ (a.state p).items, i.dot ≠ 0 ∧ ∃ v' w', v ++ w = v' ++ w' ∧
      Derives g.isTerminal g.rules (i.rule.parts.drop i.dot) v' ∧
      a.Follows g start ((p :: q :: below).drop i.dot) i.rule w' := by
  induction h generalizing v with
  | top => simp at hstack
  | @part p' below' r j v' w' reads next nonterminal others after ih =>
    cases hstack
    have hleft : Derives g.isTerminal g.rules (j.rule.parts.drop j.dot) (v ++ v') := by
      rw [List.drop_eq_getElem?_toList_append, show j.rule.parts[j.dot]? = some r.name from next]
      exact .rule hr nonterminal hv others
    by_cases hd : j.dot = 0
    · -- The item has read nothing either, so look at what comes behind its rule.
      rw [hd] at hleft after ih
      obtain ⟨i, hi, hid, v'', w'', heq, hrest⟩ := ih (hb.rule_mem reads) hleft rfl
      exact ⟨i, hi, hid, v'', w'', by rw [← heq, List.append_assoc], hrest⟩
    · exact ⟨j, reads, hd, v ++ v', w', (List.append_assoc _ _ _).symm, hleft, after⟩

/-! ## §2 Lookahead -/

/-- A state has the items and the start symbol of its seed. -/
theorem Built.eq_of_seed (hb : Built g table noSkip starts a seeds) {p : Nat} {seed : Seed}
    (hseed : seeds[p]? = some seed) :
    (a.state p).items = seed.items ∧ (a.state p).start = seed.start := by
  obtain ⟨hlt, _⟩ := Array.getElem?_eq_some_iff.mp hseed
  obtain ⟨seed', hseed', hitems, hstart, _⟩ := hb.exists_seed (hb.size ▸ hlt)
  cases hseed.symm.trans hseed'
  exact ⟨hitems, hstart⟩

/-- Every item on a path began in the state below what it has read, with the
same ahead. -/
theorem Built.exists_origin (hb : Built g table noSkip starts a seeds)
    (hs : (a.state start).start = some t) {q : Nat} {stack : List Nat} {symbols : List Term}
    (hpath : Path g seeds start (q :: stack) symbols) {i : Item} (hi : i ∈ (a.state q).items) :
    symbols.take i.dot = (i.rule.parts.take i.dot).reverse ∧
      ∃ p below, (q :: stack).drop i.dot = p :: below ∧
        ∃ j ∈ (a.state p).items, j.toDotted = ⟨i.rule, 0⟩ ∧ j.ahead = i.ahead := by
  obtain ⟨first, hfirst, _, hstart, _⟩ := hb.exists_seed (Automaton.lt_size_of_start hs)
  obtain ⟨seed, hseed, hitems, _⟩ := hb.exists_seed (Automaton.lt_size_of_mem_items hi)
  obtain ⟨htake, p, below, origin, hdrop, hp, hj⟩ :=
    hpath.item_read hb.grown hfirst (hstart.symm.trans hs) hseed (hitems ▸ hi)
  rw [← (hb.eq_of_seed hp).1] at hj
  exact ⟨htake, p, below, hdrop, hj⟩

/-- The rules of its symbol start in an entry state, with the end of the input
ahead. -/
theorem Built.contains_eof (hb : Built g table noSkip starts a seeds)
    (hs : (a.state start).start = some t) {i : Item} (hi : i ∈ (a.state start).items)
    (hname : i.rule.name = t) (hd : i.dot = 0) : i.ahead.contains .eof = true := by
  obtain ⟨seed, hseed, hitems, hstart, hgrown⟩ := hb.exists_seed (Automaton.lt_size_of_start hs)
  have hkernel := hgrown.kernel_eq_entry (hstart.symm.trans hs)
  rw [hitems] at hi
  have hk : (⟨⟨i.rule, 0⟩, TermSet.empty.insert .eof, [],
      ((g.rulesFor t).head?.map Rule.skip).getD noSkip, []⟩ : Item) ∈ seed.kernel := by
    have hrule := Closing.mem_rulesFor.mpr ⟨hgrown.rule_mem i hi, hname⟩
    rw [hkernel]
    exact Item.mem_sort.mpr (List.mem_map.mpr ⟨i.rule, hrule, rfl⟩)
  obtain ⟨j, hj, hbelow⟩ := closure_keeps hgrown.closed hgrown.areApart.1 hk
  have hdotted : i.toDotted = j.toDotted := by
    rw [hbelow.dotted, ← hd]
  obtain rfl := hgrown.areApart.2 i hi j hj hdotted
  apply hbelow.ahead
  simp [TermSet.contains_insert]

end

section

variable {g : Grammar} {noSkip : Term} {starts : List Term} {a : Automaton} {seeds : Array Seed}
  {start : Nat} {t : Term}

/-- What can come behind a rule can follow its item where it begins. -/
theorem Automaton.Follows.contains_ahead
    (hb : Built g (FirstTable.ofGrammar g) noSkip starts a seeds)
    (hs : (a.state start).start = some t) {stack : List Nat} {r : Rule} {w : List Term}
    (h : a.Follows g start stack r w) {p : Nat} {below : List Nat} (hstack : stack = p :: below)
    {symbols : List Term} (hpath : Path g seeds start stack symbols) {i : Item}
    (hi : i ∈ (a.state p).items) (hid : i.toDotted = ⟨r, 0⟩) :
    i.ahead.contains (w.headD .eof) = true := by
  induction h generalizing p below symbols i with
  | top entry =>
    cases hstack
    have hrule : i.rule.name = t := by
      rw [Item.rule_of_dotted hid]
      exact Option.some.inj (entry.symm.trans hs)
    exact hb.contains_eof hs hi hrule (Item.dot_of_dotted hid)
  | @part p' below' r j v w reads next nonterminal others after ih =>
    cases hstack
    -- What comes behind the rule of the item that reads `r` can follow that item.
    obtain ⟨_, q, below, hdrop, k, hk, hkd, hka⟩ := hb.exists_origin hs hpath reads
    have hahead : j.ahead.contains (w.headD .eof) = true := by
      rw [← hka]
      exact ih hdrop (hdrop ▸ hpath.drop hdrop) hk hkd
    have hne : j.ahead ≠ TermSet.empty := TermSet.ne_empty hahead
    obtain ⟨seed, _, hitems, _, hgrown⟩ := hb.exists_seed (Automaton.lt_size_of_mem_items reads)
    have hrule : r ∈ g.rulesFor r.name :=
      Closing.mem_rulesFor.mpr ⟨Item.rule_of_dotted hid ▸ hb.rule_mem hi, rfl⟩
    obtain ⟨i', hi', hid', hcontains⟩ :=
      closure_complete hgrown.closed (hitems ▸ reads) next nonterminal hne hrule
    obtain rfl := hb.areApart _ i hi i' (hitems ▸ hi') (hid.trans hid'.symm)
    apply hcontains
    exact (FirstTable.closed_ofGrammar g).contains_beginnings others hahead

end

/-! ## §3 Back -/

section

variable {g : Grammar} {table : FirstTable} {noSkip : Term} {starts : List Term} {a : Automaton}
  {seeds : Array Seed} {start : Nat} {t : Term}

/-- Where a symbol leads, the prospect is that of an item that reads the symbol
in the state below. -/
theorem Automaton.Prospect.exists_reader (hb : Built g table noSkip starts a seeds) {p q : Nat}
    {below : List Nat} {symbol : Term} (hleads : Leads g seeds p symbol q) {rest : List Term}
    (h : a.Prospect g start (q :: p :: below) rest) :
    ∃ j ∈ (a.state p).items, j.next? = some symbol ∧ ∃ v w, rest = v ++ w ∧
      Derives g.isTerminal g.rules (j.rule.parts.drop (j.dot + 1)) v ∧
      a.Follows g start ((p :: below).drop j.dot) j.rule w := by
  have hbegun : ∃ i ∈ (a.state q).items, i.dot ≠ 0 ∧ ∃ v w, rest = v ++ w ∧
      Derives g.isTerminal g.rules (i.rule.parts.drop i.dot) v ∧
      a.Follows g start ((q :: p :: below).drop i.dot) i.rule w := by
    cases h with
    | @intro _ _ i v w holds left after =>
      by_cases hd : i.dot = 0
      · rw [hd] at left after
        exact after.exists_begun hb (hb.rule_mem holds) left rfl
      · exact ⟨i, holds, hd, v, w, rfl, left, after⟩
  obtain ⟨i, hi, hd, v, w, rfl, hleft, hafter⟩ := hbegun
  obtain ⟨seed, hseed, hitems, _, hgrown⟩ := hb.exists_seed (Automaton.lt_size_of_mem_items hi)
  obtain ⟨source, hsource, j, hj, hnext, hdotted, _⟩ :=
    hleads.exists_source hseed hgrown (hitems ▸ hi) hd
  rw [Item.rule_of_dotted hdotted, Item.dot_of_dotted hdotted] at hleft hafter
  rw [← (hb.eq_of_seed hsource).1] at hj
  exact ⟨j, hj, hnext, v, w, rfl, hleft, hafter⟩

/-- Reading a terminal goes on with a path. -/
theorem Built.path_shift (hb : Built g table noSkip starts a seeds) {s q : Nat} {u : Term}
    {stack : List Nat} {symbols : List Term} (hpath : Path g seeds start (s :: stack) symbols)
    (listed : .shift u q ∈ (a.state s).actions) :
    Path g seeds start (q :: s :: stack) (u :: symbols) :=
  hpath.push ((hb.fits s (Automaton.lt_size_of_mem_actions listed)).actions _ listed).2

/-- A reduction goes on with a path from the state that comes to light. -/
theorem Built.path_reduce (hb : Built g table noSkip starts a seeds) {r : Rule}
    {stack next : List Nat} {symbols : List Term} (hpath : Path g seeds start stack symbols)
    (hreduces : a.Reduces r stack next) :
    Path g seeds start next (r.name :: symbols.drop r.parts.length) := by
  cases hreduces with
  | intro uncovers leads =>
    have hfits := hb.fits _ (Automaton.lt_size_of_mem_gotos leads)
    exact (hpath.drop uncovers).push (hfits.gotos _ leads).2

/-- Going back over the reading of a terminal. -/
theorem Automaton.Prospect.before_shift (hb : Built g table noSkip starts a seeds) {p q : Nat}
    {below : List Nat} {u : Term} (listed : .shift u q ∈ (a.state p).actions) {rest : List Term}
    (h : a.Prospect g start (q :: p :: below) rest) :
    a.Prospect g start (p :: below) (u :: rest) := by
  obtain ⟨hu, hleads⟩ := (hb.fits p (Automaton.lt_size_of_mem_actions listed)).actions _ listed
  obtain ⟨j, hj, hnext, v, w, rfl, hleft, hafter⟩ := h.exists_reader hb hleads
  refine .intro (v := u :: v) hj ?_ hafter
  rw [List.drop_eq_getElem?_toList_append, show j.rule.parts[j.dot]? = some u from hnext]
  exact .terminal hu hleft

/-- The end of a run has a prospect of nothing, if top symbols do not occur in
rules. -/
theorem Automaton.Prospect.of_accepting (hb : Built g table noSkip starts a seeds)
    (htop : ∀ r ∈ g.rules, ∀ t ∈ r.parts, g.terms.isTop t = false)
    (hs : (a.state start).start = some t) {s : Nat} {stack : List Nat} {symbols : List Term}
    (hpath : Path g seeds start (s :: stack) symbols) (hacc : (a.state s).accepting g = true) :
    a.Prospect g start (s :: stack) [] := by
  obtain ⟨i, hi, hcomplete⟩ := List.any_eq_true.mp hacc
  obtain ⟨hi', hend⟩ := (Bool.and_eq_true _ _).mp hcomplete
  have hd : i.dot = i.rule.parts.length := by simpa [Dotted.atEnd] using hend
  obtain ⟨_, p, below, hdrop, j, hj, hjd, _⟩ := hb.exists_origin hs hpath hi
  obtain ⟨first, hfirst, _, hstart, _⟩ := hb.exists_seed (Automaton.lt_size_of_start hs)
  obtain ⟨origin, horigin, hitems, _⟩ := hb.exists_seed (Automaton.lt_size_of_mem_items hj)
  have hrule : j.rule = i.rule := Item.rule_of_dotted hjd
  have hbottom := hpath.drop hdrop
  obtain ⟨hnil, hname⟩ := hbottom.eq_start_of_top htop hb.grown hfirst (hstart.symm.trans hs)
    horigin (hitems ▸ hj) (Item.dot_of_dotted hjd) (hrule ▸ hi')
  rw [hnil] at hbottom
  cases hbottom
  refine .intro (v := []) (w := []) hi ?_ (hdrop ▸ .top ?_)
  · rw [hd, List.drop_length]
    exact .nil
  · rw [hs, ← hname, hrule]

end

section

variable {g : Grammar} {noSkip : Term} {starts : List Term} {a : Automaton} {seeds : Array Seed}
  {start : Nat} {t : Term}

/-- Going back over a reduction by a rule that is complete. The terminal that
comes next can follow the rule, so there is an action for it. -/
theorem Automaton.Prospect.before_reduce
    (hb : Built g (FirstTable.ofGrammar g) noSkip starts a seeds)
    (hs : (a.state start).start = some t) {s : Nat} {stack next : List Nat} {symbols : List Term}
    (hpath : Path g seeds start (s :: stack) symbols) {k : Item} (hk : k ∈ (a.state s).items)
    (hend : k.atEnd = true) (hkind : g.terms.isTop k.rule.name = false)
    (hreduces : a.Reduces k.rule (s :: stack) next) {rest : List Term}
    (h : a.Prospect g start next rest) :
    rest.headD .eof ∈ (a.state s).terms ∧ a.Prospect g start (s :: stack) rest := by
  have hd : k.dot = k.rule.parts.length := by simpa [Dotted.atEnd] using hend
  cases hreduces with
  | @intro p q below uncovers leads =>
    obtain ⟨hn, hleads⟩ := (hb.fits p (Automaton.lt_size_of_mem_gotos leads)).gotos _ leads
    obtain ⟨j, hj, hnext, v, w, rfl, hothers, hafter⟩ := h.exists_reader hb hleads
    have hfollows : a.Follows g start (p :: below) k.rule (v ++ w) :=
      .part hj hnext hn hothers hafter
    -- The rule began in the state that comes to light.
    obtain ⟨_, p', below', hdrop, i, hi, hid, hahead⟩ := hb.exists_origin hs hpath hk
    obtain ⟨rfl, rfl⟩ := List.cons.inj (hdrop.symm.trans (hd ▸ uncovers))
    have hcontains := hfollows.contains_ahead hb hs rfl (hpath.drop uncovers) hi hid
    rw [hahead] at hcontains
    refine ⟨hb.mem_terms_iff.mpr (.inr ⟨k, hk, hend, hkind, hcontains⟩), ?_⟩
    refine .intro (v := []) hk ?_ (hd ▸ uncovers ▸ hfollows)
    rw [hd, List.drop_length]
    exact .nil

end

end GrammarCompiler
