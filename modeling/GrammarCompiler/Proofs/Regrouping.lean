/-
GrammarCompiler.Proofs.Regrouping — words with repeats.

Where a longer repeat is complete, it is reduced before more of the same is read.
So a run does not build the tree that a word was derived by: it puts repeats
together as soon as it can. It is still on the way to the end, as long as what has
been begun in such a state goes on with the repeat itself (`State.repeatsApart`):
a repeat that was to be read behind another one, and then put together with it, is
now read behind the longer one. That saves the node that puts the two together.

The proof counts the nodes that are still to be built. A stack expects a word with
`n` nodes (`Automaton.Nears`) if an item in its top state can be read to the end,
and then the rules that wait for it farther down. Every step leaves one node less.

  §1 Expectations — what can still come, with its nodes.
  §2 Items        — items that can do something at once, and items that have
                    read something.
  §3 Steps        — one node less.
  §4 Words        — what is accepted, and what gets lost.
-/
import GrammarCompiler.Proofs.Completeness
import GrammarCompiler.Proofs.Gotos
import GrammarCompiler.Proofs.Repeats

namespace GrammarCompiler

/-! ## §1 Expectations -/

/-- Only the empty forest has no roots. -/
theorem Forest.eq_nil_of_symbols {f : Forest} (h : f.symbols = []) : f = .nil := by
  cases f with
  | nil => rfl
  | terminal t after => cases h
  | rule r body after => cases h

namespace Automaton

/-- `a.Awaits g start stack r word n`: in the state on top of the stack, `word` can
come behind rule `r`, with `n` more nodes until all is complete. This is
`Automaton.Follows` with trees for what other rules have still to read; a node is
counted for each of these rules too. -/
inductive Awaits (a : Automaton) (g : Grammar) (start : Nat) :
    List Nat → Rule → List Term → Nat → Prop where
  | top {r : Rule} (entry : (a.state start).start = some r.name) : Awaits a g start [start] r [] 0
  | part {p : Nat} {below : List Nat} {r : Rule} {j : Item} {f : Forest} {word : List Term}
      {n : Nat} (reads : j ∈ (a.state p).items) (next : j.next? = some r.name)
      (nonterminal : g.isTerminal r.name = false) (valid : f.IsValid g.isTerminal g.rules)
      (others : f.symbols = j.rule.parts.drop (j.dot + 1))
      (after : Awaits a g start ((p :: below).drop j.dot) j.rule word n) :
      Awaits a g start (p :: below) r (f.word ++ word) (f.size + n + 1)

theorem Awaits.follows {a : Automaton} {g : Grammar} {start : Nat} {stack : List Nat} {r : Rule}
    {word : List Term} {n : Nat} (h : a.Awaits g start stack r word n) :
    a.Follows g start stack r word := by
  induction h with
  | top entry => exact .top entry
  | part reads next nonterminal valid others _ ih =>
    exact .part reads next nonterminal (others ▸ valid.derives) ih

/-- What can come behind a rule does not depend on the rule, only on its name. -/
theorem Awaits.of_name {a : Automaton} {g : Grammar} {start : Nat} {stack : List Nat}
    {r r' : Rule} {word : List Term} {n : Nat} (h : a.Awaits g start stack r word n)
    (hname : r'.name = r.name) : a.Awaits g start stack r' word n := by
  cases h with
  | top entry => exact .top (hname ▸ entry)
  | part reads next nonterminal valid others after =>
    exact .part reads (hname ▸ next) (hname ▸ nonterminal) valid others after

/-- `a.Expects g start p below i f word n`: item `i` of the state on top of the stack
has still to read what the trees of `f` stand for, and `word` can come behind its
rule, with `n` more nodes. -/
structure Expects (a : Automaton) (g : Grammar) (start p : Nat) (below : List Nat) (i : Item)
    (f : Forest) (word : List Term) (n : Nat) : Prop where
  holds : i ∈ (a.state p).items
  valid : f.IsValid g.isTerminal g.rules
  left : f.symbols = i.rule.parts.drop i.dot
  after : a.Awaits g start ((p :: below).drop i.dot) i.rule word n

/-- `a.Nears g start c n`: the states that were entered are on a trail, and an item
of the last one expects what is still to be read, with `n` more nodes. -/
def Nears (a : Automaton) (g : Grammar) (start : Nat) (c : Config) (n : Nat) : Prop :=
  ∃ p below symbols i f word m, c = ⟨p :: below, f.word ++ word⟩ ∧
    a.Trail start (p :: below) symbols ∧ a.Expects g start p below i f word m ∧ f.size + m = n

end Automaton

/-! ## §2 Items -/

section

variable {g : Grammar} {noSkip : Term} {starts : List Term} {a : Automaton} {seeds : Array Seed}
  {start p : Nat} {below : List Nat} {symbols : List Term} {t : Term} {i : Item} {f : Forest}
  {word : List Term} {n : Nat}

namespace Automaton

/-- What comes behind the rule of an item can follow it. -/
theorem Expects.contains_ahead (h : a.Expects g start p below i f word n)
    (hb : Built g (FirstTable.ofGrammar g) noSkip starts a seeds)
    (hs : (a.state start).start = some t) (htrail : a.Trail start (p :: below) symbols) :
    i.ahead.contains (word.headD .eof) = true := by
  obtain ⟨_, q, rest, hdrop, j, hj, hjd, hahead⟩ :=
    hb.exists_origin hs (htrail.path hb) h.holds
  rw [← hahead]
  exact (hdrop ▸ h.after).follows.contains_ahead hb hs rfl ((htrail.drop hdrop).path hb) hj hjd

/-- What comes next is something that the item can go on with. -/
theorem Expects.contains_beginnings (h : a.Expects g start p below i f word n)
    (hb : Built g (FirstTable.ofGrammar g) noSkip starts a seeds)
    (hs : (a.state start).start = some t) (htrail : a.Trail start (p :: below) symbols) :
    (FirstTable.beginnings g (FirstTable.ofGrammar g) i.ahead
      (i.rule.parts.drop i.dot)).contains ((f.word ++ word).headD .eof) = true :=
  (FirstTable.closed_ofGrammar g).contains_beginnings (h.left ▸ h.valid.derives)
    (h.contains_ahead hb hs htrail)

/-- A rule of the symbol that is read next starts in the same state. -/
theorem Expects.exists_started {r : Rule} {body after : Forest}
    (h : a.Expects g start p below i (.rule r body after) word n)
    (hb : Built g (FirstTable.ofGrammar g) noSkip starts a seeds)
    (hs : (a.state start).start = some t) (htrail : a.Trail start (p :: below) symbols) :
    ∃ j, a.Expects g start p below j body (after.word ++ word) (after.size + n + 1) := by
  obtain ⟨hr, hn, hsymbols, hbody, hafter⟩ := h.valid
  obtain ⟨hnext, hdrop⟩ := Dotted.next?_of_drop (d := i.toDotted) h.left.symm
  have hne : i.ahead ≠ TermSet.empty := TermSet.ne_empty (h.contains_ahead hb hs htrail)
  obtain ⟨seed, _, hitems, _, hgrown⟩ := hb.exists_seed (lt_size_of_mem_items h.holds)
  obtain ⟨j, hj, hjd, _⟩ := closure_complete hgrown.closed (hitems ▸ h.holds) hnext hn hne
    (Closing.mem_rulesFor.mpr ⟨hr, rfl⟩)
  refine ⟨j, hitems ▸ hj, hbody, ?_, ?_⟩
  · rw [Item.rule_of_dotted hjd, Item.dot_of_dotted hjd]
    exact hsymbols
  · rw [Item.rule_of_dotted hjd, Item.dot_of_dotted hjd]
    exact .part h.holds hnext hn hafter hdrop.symm h.after

/-- Where a word is expected, it is expected by an item that can do something at
once: its rule is complete, or it reads a terminal next. -/
theorem Expects.exists_ready (h : a.Expects g start p below i f word n)
    (hb : Built g (FirstTable.ofGrammar g) noSkip starts a seeds)
    (hs : (a.state start).start = some t) (htrail : a.Trail start (p :: below) symbols) :
    ∃ i' f' word' n', a.Expects g start p below i' f' word' n' ∧
      f'.word ++ word' = f.word ++ word ∧ f'.size + n' = f.size + n ∧
      (f' = .nil ∨ ∃ u after, f' = .terminal u after) := by
  induction f generalizing i word n with
  | nil => exact ⟨i, .nil, word, n, h, rfl, rfl, .inl rfl⟩
  | terminal u after _ => exact ⟨i, _, word, n, h, rfl, rfl, .inr ⟨u, after, rfl⟩⟩
  | rule r body after ihBody _ =>
    obtain ⟨j, hj⟩ := h.exists_started hb hs htrail
    obtain ⟨i', f', word', n', h', hword, hsize, hready⟩ := ihBody hj
    refine ⟨i', f', word', n', h', ?_, ?_, hready⟩
    · rw [hword, Forest.word, List.append_assoc]
    · rw [hsize, Forest.size]
      omega

/-- Where there is more on the stack than the entry state, what comes behind a rule
and the body of the rule are expected by an item that has read something. -/
theorem Awaits.exists_begun {stack : List Nat} {r : Rule} (h : a.Awaits g start stack r word n)
    (hb : Built g (FirstTable.ofGrammar g) noSkip starts a seeds) (hr : r ∈ g.rules)
    {body : Forest} (hvalid : body.IsValid g.isTerminal g.rules) (hbody : body.symbols = r.parts)
    {q : Nat} (hstack : stack = p :: q :: below) :
    ∃ i f word' n', i.dot ≠ 0 ∧ a.Expects g start p (q :: below) i f word' n' ∧
      f.word ++ word' = body.word ++ word ∧ f.size + n' = body.size + n := by
  induction h generalizing body with
  | top => simp at hstack
  | @part p' below' r j f word n reads next nonterminal valid others after ih =>
    cases hstack
    have hwhole : (Forest.rule r body f).IsValid g.isTerminal g.rules :=
      ⟨hr, nonterminal, hbody, hvalid, valid⟩
    have hleft : (Forest.rule r body f).symbols = j.rule.parts.drop j.dot := by
      rw [List.drop_eq_getElem?_toList_append, show j.rule.parts[j.dot]? = some r.name from next,
        Forest.symbols, others]
      rfl
    have hsize : (Forest.rule r body f).size + n = body.size + (f.size + n + 1) := by
      rw [Forest.size]
      omega
    have hword : (Forest.rule r body f).word ++ word = body.word ++ (f.word ++ word) := by
      rw [Forest.word, List.append_assoc]
    by_cases hd : j.dot = 0
    · -- The item has read nothing either, so look at what comes behind its rule.
      rw [hd] at after ih hleft
      obtain ⟨i, f', word', n', hid, hexpects, hword', hsize'⟩ :=
        ih (hb.rule_mem reads) hwhole hleft rfl
      exact ⟨i, f', word', n', hid, hexpects, hword'.trans hword, hsize'.trans hsize⟩
    · exact ⟨j, _, word, n, hd, ⟨reads, hwhole, hleft, after⟩, hword, hsize⟩

/-- Where there is more on the stack than the entry state, a word is expected by an
item that has read something. -/
theorem Expects.exists_begun {q : Nat} (h : a.Expects g start p (q :: below) i f word n)
    (hb : Built g (FirstTable.ofGrammar g) noSkip starts a seeds) :
    ∃ i' f' word' n', i'.dot ≠ 0 ∧ a.Expects g start p (q :: below) i' f' word' n' ∧
      f'.word ++ word' = f.word ++ word ∧ f'.size + n' = f.size + n := by
  by_cases hd : i.dot = 0
  · have hafter := h.after
    have hleft := h.left
    rw [hd] at hafter hleft
    exact hafter.exists_begun hb (hb.rule_mem h.holds) h.valid hleft rfl
  · exact ⟨i, f, word, n, hd, h, rfl, rfl⟩

end Automaton

/-! ## §3 Steps -/

/-- Where a symbol leads, there is an item that has read it. -/
theorem Built.exists_advanced (hb : Built g (FirstTable.ofGrammar g) noSkip starts a seeds)
    (hg : g.Unmarked) {u : Term} {q : Nat} (hleads : Leads g seeds p u q)
    (hi : i ∈ (a.state p).items) (hnext : i.next? = some u) :
    ∃ j ∈ (a.state q).items, j.toDotted = ⟨i.rule, i.dot + 1⟩ := by
  obtain ⟨source, hsource, hitems, _, hgrown⟩ := hb.exists_seed (Automaton.lt_size_of_mem_items hi)
  have hq : q < a.size := hb.size ▸ hleads.lt_size
  obtain ⟨target, htarget, hitems', _, hgrown'⟩ := hb.exists_seed hq
  obtain ⟨j, hj, hdotted, _⟩ :=
    hleads.exists_target hg hsource htarget hgrown hgrown' (hitems ▸ hi) hnext
  exact ⟨j, hitems' ▸ hj, hdotted⟩

namespace Automaton

/-- Going to where a symbol leads that an item reads. -/
theorem Expects.advance (hb : Built g (FirstTable.ofGrammar g) noSkip starts a seeds)
    (hg : g.Unmarked) {u : Term} {q : Nat} (hlinks : a.Links p u q)
    (hi : i ∈ (a.state p).items) (hnext : i.next? = some u)
    (hvalid : f.IsValid g.isTerminal g.rules) (hleft : f.symbols = i.rule.parts.drop (i.dot + 1))
    (hafter : a.Awaits g start ((p :: below).drop i.dot) i.rule word n) :
    ∃ j, a.Expects g start q (p :: below) j f word n := by
  obtain ⟨j, hj, hjd⟩ := hb.exists_advanced hg (hb.leads_of_links hlinks) hi hnext
  refine ⟨j, hj, hvalid, ?_, ?_⟩
  · rw [Item.rule_of_dotted hjd, Item.dot_of_dotted hjd]
    exact hleft
  · rw [Item.rule_of_dotted hjd, Item.dot_of_dotted hjd]
    exact hafter

end Automaton

end

/-- Whether no other rule that was begun can go on with a terminal that a longer
repeat, complete in the same state, is reduced for. Complete rules of top symbols
do not count, since the run can end there. -/
def State.repeatsApart (g : Grammar) (s : State) : Bool :=
  s.items.all fun k => !k.wraps g.terms || s.items.all fun j =>
    j.dot == 0 || j.rule == k.rule || (g.terms.isTop j.rule.name && j.atEnd) ||
      k.ahead.toList.all fun t => !(FirstTable.beginnings g (FirstTable.ofGrammar g) j.ahead
        (j.rule.parts.drop j.dot)).contains t

/-- Whether a state leads on with the name of each empty rule that it reduces by. -/
def State.leadsOn (s : State) : Bool :=
  s.actions.all fun
    | .shift _ _ => true
    | .reduce _ r => !r.parts.isEmpty || s.gotos.any fun x => x.term == r.name

namespace State

variable {g : Grammar} {s : State}

theorem rule_eq_of_repeatsApart (h : s.repeatsApart g = true) {k j : Item} (hk : k ∈ s.items)
    (hwraps : k.wraps g.terms = true) (hj : j ∈ s.items) (hd : j.dot ≠ 0)
    (hends : (g.terms.isTop j.rule.name && j.atEnd) = false) {t : Term}
    (ht : k.ahead.contains t = true)
    (hgoes : (FirstTable.beginnings g (FirstTable.ofGrammar g) j.ahead
      (j.rule.parts.drop j.dot)).contains t = true) : j.rule = k.rule := by
  have hall := List.all_eq_true.mp h k hk
  rw [hwraps, Bool.not_true, Bool.false_or] at hall
  have hother := List.all_eq_true.mp hall j hj
  rw [hends, Bool.or_false] at hother
  rcases Bool.or_eq_true _ _ ▸ hother with hsame | hall
  · simpa [hd] using hsame
  · have hnot := List.all_eq_true.mp hall t (TermSet.mem_toList.mpr ht)
    rw [hgoes] at hnot
    cases hnot

theorem exists_goto_of_leadsOn (h : s.leadsOn = true) {u : Term} {r : Rule}
    (hr : .reduce u r ∈ s.actions) (hparts : r.parts = []) : ∃ q, ⟨r.name, q⟩ ∈ s.gotos := by
  have hlisted := List.all_eq_true.mp h _ hr
  simp only [hparts, List.isEmpty_nil, Bool.not_true, Bool.false_or] at hlisted
  obtain ⟨x, hx, hterm⟩ := List.any_eq_true.mp hlisted
  obtain ⟨t, q⟩ := x
  obtain rfl : t = r.name := by simpa using hterm
  exact ⟨q, hx⟩

end State

namespace Automaton

section

variable {g : Grammar} {noSkip : Term} {starts : List Term} {a : Automaton} {seeds : Array Seed}
  {start p : Nat} {below : List Nat} {symbols : List Term} {t : Term} {i : Item} {f : Forest}
  {word : List Term} {n : Nat}

/-- Nothing can come behind a rule of a top symbol. -/
theorem Awaits.eq_nil {stack : List Nat} {r : Rule} (h : a.Awaits g start stack r word n)
    (hb : Built g (FirstTable.ofGrammar g) noSkip starts a seeds)
    (htop : ∀ r ∈ g.rules, ∀ t ∈ r.parts, g.terms.isTop t = false)
    (hkind : g.terms.isTop r.name = true) : word = [] := by
  cases h with
  | top _ => rfl
  | part reads next _ _ _ _ =>
    rw [htop _ (hb.rule_mem reads) _ (List.mem_of_getElem? next)] at hkind
    cases hkind

/-- A run can end where a rule of a top symbol is complete. -/
theorem Expects.accepting (h : a.Expects g start p below i f word n)
    (hb : Built g (FirstTable.ofGrammar g) noSkip starts a seeds)
    (htop : ∀ r ∈ g.rules, ∀ t ∈ r.parts, g.terms.isTop t = false)
    (hkind : g.terms.isTop i.rule.name = true) (hend : i.atEnd = true) :
    f.word ++ word = [] ∧ (a.state p).accepting g = true := by
  have hdot : i.dot = i.rule.parts.length := by simpa [Dotted.atEnd] using hend
  have hf : f = .nil := by
    have hleft := h.left
    rw [hdot, List.drop_length] at hleft
    exact Forest.eq_nil_of_symbols hleft
  refine ⟨?_, List.any_eq_true.mpr ⟨i, h.holds, by rw [hkind, hend]; rfl⟩⟩
  rw [hf, h.after.eq_nil hb htop hkind]
  rfl

/-- Reading a terminal that an item reads next. -/
theorem Expects.shift {u : Term} {after : Forest}
    (h : a.Expects g start p below i (.terminal u after) word n)
    (hb : Built g (FirstTable.ofGrammar g) noSkip starts a seeds) (hg : g.Unmarked)
    (htrail : a.Trail start (p :: below) symbols) {q : Nat}
    (hq : .shift u q ∈ (a.state p).actions) :
    ∃ d, a.Step ⟨p :: below, (Forest.terminal u after).word ++ word⟩ d ∧
      a.Nears g start d (after.size + n) := by
  obtain ⟨hnext, hdrop⟩ := Dotted.next?_of_drop (d := i.toDotted) h.left.symm
  have hlinks : a.Links p u q := .shift hq
  obtain ⟨j, hj⟩ :=
    Expects.advance hb hg hlinks h.holds hnext h.valid.2 hdrop.symm h.after
  exact ⟨_, .shift hq, q, p :: below, u :: symbols, j, after, word, n, rfl, htrail.push hlinks,
    hj, rfl⟩

/-- Reducing by a rule that is complete, or by one that does the same. -/
theorem Expects.reduce (h : a.Expects g start p below i .nil word n)
    (hb : Built g (FirstTable.ofGrammar g) noSkip starts a seeds) (hg : g.Unmarked)
    (hgotos : ∀ p, (a.state p).leadsOn = true) (hs : (a.state start).start = some t)
    (hkind : g.terms.isTop t = true) (htrail : a.Trail start (p :: below) symbols)
    (hend : i.atEnd = true) (hkind' : g.terms.isTop i.rule.name = false) {r : Rule}
    (hr : .reduce (word.headD .eof) r ∈ (a.state p).actions)
    (hsame : r.sameReduce g.terms i.rule = true) :
    ∃ d m, a.Step ⟨p :: below, word⟩ d ∧ a.Nears g start d m ∧ m + 1 = n := by
  have hdot : i.dot = i.rule.parts.length := by simpa [Dotted.atEnd] using hend
  obtain ⟨hname, hlength, _⟩ := Rule.sameReduce_iff.mp hsame
  have hafter := h.after
  generalize hstack : (p :: below).drop i.dot = stack at hafter
  cases hafter with
  | top entry =>
    have hstart : i.rule.name = t := Option.some.inj (entry.symm.trans hs)
    rw [hstart, hkind] at hkind'
    cases hkind'
  | @part p' below' _ j f word m reads next nonterminal valid others after =>
    have hgoto : ∃ q, ⟨i.rule.name, q⟩ ∈ (a.state p').gotos := by
      by_cases hd : i.dot = 0
      · rw [hd] at hstack
        obtain ⟨rfl, rfl⟩ := List.cons.inj hstack
        have hparts : r.parts = [] :=
          List.eq_nil_of_length_eq_zero (hlength.trans (hdot.symm.trans hd))
        exact hname ▸ State.exists_goto_of_leadsOn (hgotos p) hr hparts
      · obtain ⟨q₀, below₀, hdrop, hgoto⟩ :=
          hb.exists_goto_of_begun hs hkind htrail h.holds hd hkind'
        obtain ⟨rfl, rfl⟩ := List.cons.inj (hdrop.symm.trans hstack)
        exact hgoto
    obtain ⟨q, hq⟩ := hgoto
    have hlinks : a.Links p' i.rule.name q := .goto hq
    obtain ⟨j', hj'⟩ := Expects.advance hb hg hlinks reads next valid others after
    have hdrop : (p :: below).drop r.parts.length = p' :: below' := by
      rw [hlength, ← hdot]
      exact hstack
    exact ⟨_, f.size + m, .reduce hr (.intro hdrop (hname ▸ hq)), ⟨q, p' :: below', _, j', f, word,
      m, rfl, (htrail.drop hstack).push hlinks, hj', rfl⟩, rfl⟩

/-- Putting two repeats together, when a third one is expected that was to be put
together with the second one before. -/
theorem Expects.regroup (h : a.Expects g start p below i f word n)
    (hb : Built g (FirstTable.ofGrammar g) noSkip starts a seeds) (hg : g.Unmarked)
    (hs : (a.state start).start = some t) (hkind : g.terms.isTop t = true)
    (htrail : a.Trail start (p :: below) symbols) (hd : i.dot = 1) {k : Item}
    (hk : k ∈ (a.state p).items) (hwraps : k.wraps g.terms = true) (hrule : i.rule = k.rule)
    (hahead : k.ahead.contains ((f.word ++ word).headD .eof) = true) :
    ∃ d m, a.Step ⟨p :: below, f.word ++ word⟩ d ∧ a.Nears g start d m ∧
      m + 1 = f.size + n := by
  obtain ⟨r, hr, hsame⟩ :=
    (hb.decided hg (lt_size_of_mem_items hk)).wraps k hk hwraps _ hahead
  obtain ⟨hname, hlength, _⟩ := Rule.sameReduce_iff.mp hsame
  rw [Item.length_of_wraps hwraps] at hlength
  have hk₂ : k.dot = 2 := Item.dot_of_wraps hwraps
  obtain ⟨p₀, below₀, hdrop, q₀, hgoto⟩ := hb.exists_goto_of_begun hs hkind htrail hk
    (by rw [hk₂]; exact Nat.succ_ne_zero 1) (Item.isTop_of_wraps hwraps)
  obtain ⟨htake, _⟩ := hb.exists_origin hs (htrail.path hb) hk
  obtain ⟨htake', _⟩ := hb.exists_origin hs (htrail.path hb) h.holds
  obtain ⟨u, hparts⟩ := Item.exists_parts_of_wraps hwraps
  rw [hk₂, hparts] at htake
  rw [hd, hrule, hparts] at htake'
  rw [hk₂] at hdrop
  cases htrail with
  | entry => cases hdrop
  | @push q _ _ x _ htrail links =>
    cases htrail with
    | entry => cases hdrop
    | @push p₁ _ below₁ x₁ _ htrail₁ links₁ =>
      obtain ⟨rfl, rfl⟩ : p₁ = p₀ ∧ below₁ = below₀ := List.cons.inj hdrop
      obtain ⟨hx, hx₁⟩ : x = u ∧ x₁ = k.rule.name := by simpa using htake
      obtain rfl : u = k.rule.name := hx.symm.trans (by simpa using htake')
      subst hx hx₁
      -- The repeat that was read first led to this state, too.
      have hq : q₀ = q := by
        cases links₁ with
        | shift listed =>
          have hterminal := ((hb.fits p₁ (lt_size_of_mem_actions listed)).actions _ listed).1
          rw [Grammar.isTerminal, Item.isTerminal_of_wraps hwraps] at hterminal
          cases hterminal
        | goto leads =>
          exact congrArg Goto.target (List.inj_on_of_nodup_map hb.nodup_gotos hgoto leads rfl)
      subst hq
      have hstep : a.Step ⟨p :: q₀ :: p₁ :: below₁, f.word ++ word⟩
          ⟨q₀ :: p₁ :: below₁, f.word ++ word⟩ :=
        .reduce hr (.intro (by rw [hlength]; rfl) (hname ▸ hgoto))
      -- What is expected behind the longer repeat is the body of the third one.
      have hroot : f.symbols = [k.rule.name] := by
        rw [h.left, hd, hrule, hparts]
        rfl
      have htree : f.IsTree g k.rule.name f.word := ⟨h.valid, hroot, rfl⟩
      obtain ⟨r', body, rfl, hr', hname', hsymbols, hbody, hleaves⟩ :=
        htree.exists_rule (Item.isTerminal_of_wraps hwraps)
      have hafter : a.Awaits g start (q₀ :: p₁ :: below₁) r' word n := by
        have hafter := h.after
        rw [hd, hrule] at hafter
        exact hafter.of_name hname'
      obtain ⟨i', f', word', n', _, h', hword, hsize⟩ :=
        hafter.exists_begun hb hr' hbody hsymbols.symm.symm rfl
      refine ⟨_, f'.size + n', hstep, ⟨q₀, p₁ :: below₁, _, i', f', word', n', ?_,
        htrail₁.push links₁, h', rfl⟩, ?_⟩
      · rw [hword, hleaves]
      · simp only [hsize, Forest.size]
        omega

variable (hb : Built g (FirstTable.ofGrammar g) noSkip starts a seeds) (hg : g.Unmarked)
  (htop : ∀ r ∈ g.rules, ∀ t ∈ r.parts, g.terms.isTop t = false)
  (hapart : ∀ p, (a.state p).repeatsApart g = true) (hgotos : ∀ p, (a.state p).leadsOn = true)
  (hs : (a.state start).start = some t) (hkind : g.terms.isTop t = true)

include hb hg htop hapart hgotos hs hkind

/-- Where a longer repeat is complete that is to be reduced now, the run can go on,
if no other rule that was begun is in the way. -/
theorem Expects.step_of_wraps (h : a.Expects g start p below i f word n)
    (htrail : a.Trail start (p :: below) symbols) {k : Item}
    (hk : k ∈ (a.state p).items) (hwraps : k.wraps g.terms = true)
    (hahead : k.ahead.contains ((f.word ++ word).headD .eof) = true) :
    f.word ++ word = [] ∧ (a.state p).accepting g = true ∨
      ∃ d m, a.Step ⟨p :: below, f.word ++ word⟩ d ∧ a.Nears g start d m ∧
        m + 1 = f.size + n := by
  obtain ⟨_, p₀, below₀, hdrop, _⟩ := hb.exists_origin hs (htrail.path hb) hk
  rw [Item.dot_of_wraps hwraps] at hdrop
  cases below with
  | nil => cases hdrop
  | cons q below =>
    obtain ⟨j, f', word', n', hd, hj, hword, hsize⟩ := h.exists_begun hb
    rw [← hword] at hahead ⊢
    rw [← hsize]
    cases hends : g.terms.isTop j.rule.name && j.atEnd with
    | true =>
      obtain ⟨hkind', hend⟩ := (Bool.and_eq_true _ _).mp hends
      exact .inl (hj.accepting hb htop hkind' hend)
    | false =>
      right
      have hgoes := hj.contains_beginnings hb hs htrail
      have hrule := State.rule_eq_of_repeatsApart (hapart p) hk hwraps hj.holds hd hends hahead
        hgoes
      have hle : j.dot ≤ 2 := by
        obtain ⟨seed, _, hitems, _, hgrown⟩ := hb.exists_seed (lt_size_of_mem_items hk)
        rw [← Item.length_of_wraps hwraps, ← hrule]
        exact hgrown.dot_le j (hitems ▸ hj.holds)
      rcases (by omega : j.dot = 1 ∨ j.dot = 2) with hd | hd
      · exact hj.regroup hb hg hs hkind htrail hd hk hwraps hrule hahead
      · -- The repeat itself is complete.
        have hwraps' : j.wraps g.terms = true := by
          rw [Item.wraps, hrule, hd, ((Bool.and_eq_true _ _).mp hwraps).1]
          rfl
        have hf : f' = .nil := by
          have hleft := hj.left
          rw [hd, hrule, ← Item.length_of_wraps hwraps, List.drop_length] at hleft
          exact Forest.eq_nil_of_symbols hleft
        subst hf
        obtain ⟨r, hr, hsame⟩ := (hb.decided hg (lt_size_of_mem_items hk)).wraps j hj.holds
          hwraps' _ (hj.contains_ahead hb hs htrail)
        have hstep := hj.reduce hb hg hgotos hs hkind htrail (Item.atEnd_of_wraps hwraps')
          (Item.isTop_of_wraps hwraps') hr hsame
        simpa [Forest.word, Forest.size] using hstep

variable {c : Config}

/-- A run that nears the end can end, or there is a step after which one node less
is still to be built. -/
theorem Nears.step (h : a.Nears g start c n) :
    (∃ s stack, c = ⟨s :: stack, []⟩ ∧ (a.state s).accepting g = true) ∨
      ∃ d m, a.Step c d ∧ a.Nears g start d m ∧ m + 1 = n := by
  obtain ⟨p, below, symbols, _, _, _, _, rfl, htrail, h, rfl⟩ := h
  obtain ⟨i, f, word, n, h, hword, hsize, hready⟩ := h.exists_ready hb hs htrail
  rw [← hword, ← hsize]
  have hdecided := hb.decided hg (lt_size_of_mem_items h.holds)
  have hend : f.word ++ word = [] ∧ (a.state p).accepting g = true →
      ∃ s stack, (⟨p :: below, f.word ++ word⟩ : Config) = ⟨s :: stack, []⟩ ∧
        (a.state s).accepting g = true := fun ⟨hnil, hacc⟩ => ⟨p, below, by rw [hnil], hacc⟩
  have hwrapped : (∃ k ∈ (a.state p).items, k.wraps g.terms = true ∧
      k.ahead.contains ((f.word ++ word).headD .eof) = true) → _ := fun ⟨k, hk, hw, ht⟩ =>
    (h.step_of_wraps hb hg htop hapart hgotos hs hkind htrail hk hw ht).imp_left hend
  rcases hready with rfl | ⟨u, after, rfl⟩
  · have hcomplete : i.atEnd = true := by
      obtain ⟨seed, _, hitems, _, hgrown⟩ := hb.exists_seed (lt_size_of_mem_items h.holds)
      have hle := hgrown.dot_le i (hitems ▸ h.holds)
      have hge := List.drop_eq_nil_iff.mp h.left.symm
      rw [Dotted.atEnd, beq_iff_eq]
      exact Nat.le_antisymm hle hge
    cases hkind' : g.terms.isTop i.rule.name with
    | true => exact .inl (hend (h.accepting hb htop hkind' hcomplete))
    | false =>
      rcases hdecided.reductions i h.holds hcomplete hkind' _ (h.contains_ahead hb hs htrail) with
        ⟨r, hr, hsame⟩ | hplace
      · right
        have hstep := h.reduce hb hg hgotos hs hkind htrail hcomplete hkind' hr hsame
        simpa [Forest.word, Forest.size] using hstep
      · exact hwrapped hplace
  · obtain ⟨hnext, _⟩ := Dotted.next?_of_drop (d := i.toDotted) h.left.symm
    rcases hdecided.shifts i h.holds u hnext h.valid.1 with ⟨q, hq⟩ | hplace
    · obtain ⟨d, hstep, hnears⟩ := h.shift hb hg htrail hq
      refine .inr ⟨d, _, hstep, hnears, ?_⟩
      simp only [Forest.size]
      omega
    · exact hwrapped hplace

/-- A run that nears the end comes to it. -/
theorem Nears.exists_accepting (h : a.Nears g start c n) :
    ∃ s stack, Relation.ReflTransGen a.Step c ⟨s :: stack, []⟩ ∧ (a.state s).accepting g = true := by
  induction n generalizing c with
  | zero =>
    rcases h.step hb hg htop hapart hgotos hs hkind with ⟨s, stack, rfl, hacc⟩ | ⟨_, m, _, _, hm⟩
    · exact ⟨s, stack, .refl, hacc⟩
    · cases hm
  | succ n ih =>
    rcases h.step hb hg htop hapart hgotos hs hkind with ⟨s, stack, rfl, hacc⟩ |
      ⟨d, m, hstep, hnears, hm⟩
    · exact ⟨s, stack, .refl, hacc⟩
    · obtain rfl := Nat.succ.inj hm
      obtain ⟨s, stack, hsteps, hacc⟩ := ih hnears
      exact ⟨s, stack, .head hstep hsteps, hacc⟩

end

end Automaton

/-! ## §4 Words -/

/-- The automaton of a grammar without marks has an entry state for each of its start
symbols that stand for anything, and accepts there all that a top symbol stands for,
however repeats have been decided. This holds where no other rule can go on with what
a longer repeat is reduced for, and where states lead on with the names of the empty
rules that they reduce by. -/
theorem fullAutomaton_accepts_repeats {g : Grammar} {starts : List Term} {noSkip : Term}
    {a : Automaton} (h : fullAutomaton g (FirstTable.ofGrammar g) starts noSkip = .ok a)
    (hg : g.Unmarked) (htop : ∀ r ∈ g.rules, ∀ t ∈ r.parts, g.terms.isTop t = false)
    (hapart : ∀ p, (a.state p).repeatsApart g = true)
    (hgotos : ∀ p, (a.state p).leadsOn = true) {t : Term} (ht : t ∈ starts)
    (hkind : g.terms.isTop t = true) {word : List Term} (hw : g.Generates t word) :
    (∃ start, (a.state start).start = some t) ∧
      ∀ start, (a.state start).start = some t →
        ∃ s, Automaton.Reads a.Step start word s ∧ (a.state s).accepting g = true := by
  obtain ⟨seeds, hb⟩ := fullAutomaton_built h
  obtain ⟨r, hr, rfl, hbody⟩ := hw.exists_rule (g.isTerminal_eq_false_of_isTop hkind)
  refine ⟨?_, fun start hs => ?_⟩
  · obtain ⟨start, _, hs⟩ := hb.entries _ ht
      (List.ne_nil_of_mem (Closing.mem_rulesFor.mpr ⟨hr, rfl⟩))
    exact ⟨start, hs⟩
  · obtain ⟨f, hf, hsymbols, rfl⟩ := Forest.exists_of_derives hbody
    obtain ⟨i, hi, hid, _⟩ := hb.holds_entry hs (Automaton.lt_size_of_start hs) hr rfl
    have hexpects : a.Expects g start start [] i f [] 0 := by
      refine ⟨hi, hf, ?_, ?_⟩
      · rw [Item.rule_of_dotted hid, Item.dot_of_dotted hid]
        exact hsymbols
      · rw [Item.rule_of_dotted hid, Item.dot_of_dotted hid]
        exact .top hs
    have hnears : a.Nears g start ⟨[start], f.word⟩ f.size :=
      ⟨start, [], [], i, f, [], 0, by rw [List.append_nil], .entry, hexpects, rfl⟩
    obtain ⟨s, stack, hsteps, hacc⟩ :=
      hnears.exists_accepting hb hg htop hapart hgotos hs hkind
    exact ⟨s, ⟨stack, hsteps⟩, hacc⟩

/-- What is true of every state that is there is true of all states, if it is true of
one that does nothing. -/
theorem Automaton.forall_state {a : Automaton} {P : State → Bool} (h : a.toList.all P = true)
    (hdefault : P default = true) (p : Nat) : P (a.state p) = true := by
  by_cases hp : p < a.size
  · rw [Automaton.state, Array.getElem?_eq_getElem hp, Option.getD_some]
    exact List.all_eq_true.mp h _ (Array.getElem_mem_toList hp)
  · rw [Automaton.state_eq_default (Nat.le_of_not_lt hp)]
    exact hdefault

/-- The rule `R → x`. -/
def oneRule : Rule := ⟨⟨[⟨4⟩], [.none, .none]⟩, 0, ⟨3⟩, .error⟩

/-- The rule `R → R R`. -/
def moreRule : Rule := ⟨⟨[⟨3⟩, ⟨3⟩], [.none, .none, .none]⟩, 1, ⟨3⟩, .error⟩

/-- A grammar with a repeat of `x`, and one rule for its top symbol `T`, with the given
parts. The symbols are `T`, `R`, `x` and `y`, from the third on. -/
def repeatGrammar (parts : List Term) : Grammar where
  terms := ⟨#[{ name := "␄", kind := .terminal }, { name := "⚠", kind := .nonterminal },
    { name := "T", kind := .top }, { name := "R", kind := .repeating },
    { name := "x", kind := .terminal }, { name := "y", kind := .terminal }], [⟨2⟩]⟩
  numbering := default
  rules := [oneRule, moreRule,
    ⟨⟨parts, List.replicate (parts.length + 1) .none⟩, 2, ⟨2⟩, .error⟩]

namespace repeatGrammar

variable {parts : List Term}

theorem unmarked (parts : List Term) : (repeatGrammar parts).Unmarked := by
  unfold Grammar.Unmarked
  refine List.forall_mem_cons.mpr ⟨by decide, List.forall_mem_cons.mpr ⟨by decide, ?_⟩⟩
  refine List.forall_mem_singleton.mpr fun m hm => (List.mem_replicate.mp hm).2

theorem derives_one :
    Derives (repeatGrammar parts).isTerminal (repeatGrammar parts).rules [⟨3⟩] [⟨4⟩] :=
  .of_rule (r := oneRule) (.head _) rfl (.of_terminal rfl)

theorem derives_append {v w : List Term}
    (hv : Derives (repeatGrammar parts).isTerminal (repeatGrammar parts).rules [⟨3⟩] v)
    (hw : Derives (repeatGrammar parts).isTerminal (repeatGrammar parts).rules [⟨3⟩] w) :
    Derives (repeatGrammar parts).isTerminal (repeatGrammar parts).rules [⟨3⟩] (v ++ w) :=
  .of_rule (r := moreRule) (.tail _ (.head _)) rfl (hv.append hw)

/-- The top symbol stands for what its parts stand for. -/
theorem generates {word : List Term}
    (h : Derives (repeatGrammar parts).isTerminal (repeatGrammar parts).rules parts word) :
    (repeatGrammar parts).Generates ⟨2⟩ word :=
  .of_rule (r := ⟨⟨parts, _⟩, 2, ⟨2⟩, .error⟩) (.tail _ (.tail _ (.head _))) rfl h

end repeatGrammar

/-- With `T → R y` the automaton accepts `x x x y`. -/
theorem fullAutomaton_accepts_repeats_followed :
    ∃ a start s,
      fullAutomaton (repeatGrammar [⟨3⟩, ⟨5⟩]) (FirstTable.ofGrammar (repeatGrammar [⟨3⟩, ⟨5⟩]))
          [⟨2⟩] .error = .ok a ∧
        (a.state start).start = some ⟨2⟩ ∧
        Automaton.Reads a.Step start [⟨4⟩, ⟨4⟩, ⟨4⟩, ⟨5⟩] s ∧
        (a.state s).accepting (repeatGrammar [⟨3⟩, ⟨5⟩]) = true := by
  have hcheck : (fullAutomaton (repeatGrammar [⟨3⟩, ⟨5⟩])
      (FirstTable.ofGrammar (repeatGrammar [⟨3⟩, ⟨5⟩])) [⟨2⟩] .error).toOption.any (fun a =>
        a.toList.all (State.repeatsApart (repeatGrammar [⟨3⟩, ⟨5⟩])) &&
          a.toList.all State.leadsOn) = true := by
    cbv
  obtain ⟨a, h, hcheck⟩ := exists_ok_of_any hcheck
  obtain ⟨hapart, hgotos⟩ := (Bool.and_eq_true _ _).mp hcheck
  have hword : (repeatGrammar [⟨3⟩, ⟨5⟩]).Generates ⟨2⟩ [⟨4⟩, ⟨4⟩, ⟨4⟩, ⟨5⟩] := by
    open repeatGrammar in
    exact generates ((derives_append derives_one (derives_append derives_one derives_one)).append
      (.of_terminal rfl))
  obtain ⟨⟨start, hs⟩, haccepts⟩ := fullAutomaton_accepts_repeats h (repeatGrammar.unmarked _)
    (by decide) (Automaton.forall_state hapart rfl) (Automaton.forall_state hgotos rfl)
    (List.mem_singleton_self _) rfl hword
  obtain ⟨s, hreads, hacc⟩ := haccepts start hs
  exact ⟨a, start, s, h, hs, hreads, hacc⟩

/-- Where there is at most one step, every run begins with it. -/
theorem Automaton.Determined.steps_of_step {a : Automaton} (h : a.Determined) {c d e : Config}
    (hd : a.Step c d) (he : Relation.ReflTransGen a.Step c e) :
    e = c ∨ Relation.ReflTransGen a.Step d e := by
  rcases he.cases_head with heq | ⟨d', first, rest⟩
  · exact .inl heq.symm
  · exact .inr (h.step_eq hd first ▸ rest)

/-- With `T → R R x` the automaton accepts nothing, not even `x x x`: behind two repeats
the last `x` is never read, since the two are put together instead. -/
theorem fullAutomaton_rejects_repeats :
    ∃ a, fullAutomaton (repeatGrammar [⟨3⟩, ⟨3⟩, ⟨4⟩])
        (FirstTable.ofGrammar (repeatGrammar [⟨3⟩, ⟨3⟩, ⟨4⟩])) [⟨2⟩] .error = .ok a ∧
      (repeatGrammar [⟨3⟩, ⟨3⟩, ⟨4⟩]).Unmarked ∧
      (repeatGrammar [⟨3⟩, ⟨3⟩, ⟨4⟩]).Generates ⟨2⟩ [⟨4⟩, ⟨4⟩, ⟨4⟩] ∧
      (a.state 0).start = some ⟨2⟩ ∧ ∀ start, (a.state start).start = some ⟨2⟩ →
        ¬ ∃ s, Automaton.Reads a.Step start [⟨4⟩, ⟨4⟩, ⟨4⟩] s ∧
          (a.state s).accepting (repeatGrammar [⟨3⟩, ⟨3⟩, ⟨4⟩]) = true := by
  have hcheck : (fullAutomaton (repeatGrammar [⟨3⟩, ⟨3⟩, ⟨4⟩])
      (FirstTable.ofGrammar (repeatGrammar [⟨3⟩, ⟨3⟩, ⟨4⟩])) [⟨2⟩] .error).toOption.any (fun a =>
        ((a.toList.zipIdx.all fun x => x.1.start != some ⟨2⟩ || x.2 == 0) &&
          (a.state 0).start == some ⟨2⟩) &&
        (((a.state 0).actions == [.shift ⟨4⟩ 1] && (a.state 0).gotos == [⟨⟨3⟩, 2⟩]) &&
        (((a.state 1).actions == [.reduce ⟨4⟩ oneRule] &&
          !(a.state 1).accepting (repeatGrammar [⟨3⟩, ⟨3⟩, ⟨4⟩])) &&
        (((a.state 2).actions == [.shift ⟨4⟩ 1] && (a.state 2).gotos == [⟨⟨3⟩, 3⟩]) &&
          (a.state 3).actions == [.reduce ⟨4⟩ moreRule])))) = true := by
    cbv
  obtain ⟨a, h, hcheck⟩ := exists_ok_of_any hcheck
  obtain ⟨⟨hentries, hstart⟩, ⟨hactions₀, hgotos₀⟩, ⟨hactions₁, hacc⟩, ⟨hactions₂, hgotos₂⟩,
    hactions₃⟩ := by
      simpa only [Bool.and_eq_true, beq_iff_eq, Bool.not_eq_true'] using hcheck
  obtain ⟨seeds, hb⟩ := fullAutomaton_built h
  have hdetermined : a.Determined :=
    ⟨fun i => hb.nodup_terms (repeatGrammar.unmarked _).noAmbiguities, fun i => hb.nodup_gotos⟩
  refine ⟨a, h, repeatGrammar.unmarked _, ?_, hstart, ?_⟩
  · open repeatGrammar in
    exact generates (derives_one.append (derives_one.append (.of_terminal rfl)))
  rintro start hs ⟨s, ⟨stack, hsteps⟩, haccepting⟩
  have hentry : start = 0 := by
    have hlt := Automaton.lt_size_of_start hs
    have hmem : (a[start], start) ∈ a.toList.zipIdx :=
      List.mem_zipIdx_iff_getElem?.mpr (by simp [hlt])
    have hone := List.all_eq_true.mp hentries _ hmem
    have hstate : a[start].start = some ⟨2⟩ := by
      rw [← hs, Automaton.state, Array.getElem?_eq_getElem hlt, Option.getD_some]
    simpa [hstate] using hone
  subst hentry
  -- There is only one run, and it ends behind the last `x`.
  have hshift₀ : .shift ⟨4⟩ 1 ∈ (a.state 0).actions := by simp [hactions₀]
  have hreduce₁ : .reduce ⟨4⟩ oneRule ∈ (a.state 1).actions := by simp [hactions₁]
  have hshift₂ : .shift ⟨4⟩ 1 ∈ (a.state 2).actions := by simp [hactions₂]
  have hreduce₃ : .reduce ⟨4⟩ moreRule ∈ (a.state 3).actions := by simp [hactions₃]
  have hgoto₀ : ⟨⟨3⟩, 2⟩ ∈ (a.state 0).gotos := by simp [hgotos₀]
  have hgoto₂ : ⟨⟨3⟩, 3⟩ ∈ (a.state 2).gotos := by simp [hgotos₂]
  have hnext : ∀ {c d : Config}, a.Step c d → c.rest ≠ [] →
      Relation.ReflTransGen a.Step c ⟨s :: stack, []⟩ →
        Relation.ReflTransGen a.Step d ⟨s :: stack, []⟩ :=
    fun hstep hrest hsteps => (hdetermined.steps_of_step hstep hsteps).resolve_left fun heq =>
      hrest (heq ▸ rfl)
  have h₁ := hnext (.shift hshift₀) (by simp) hsteps
  have h₂ := hnext (.reduce hreduce₁ (.intro rfl hgoto₀)) (by simp) h₁
  have h₃ := hnext (.shift hshift₂) (by simp) h₂
  have h₄ := hnext (.reduce hreduce₁ (.intro rfl hgoto₂)) (by simp) h₃
  have h₅ := hnext (.reduce hreduce₃ (.intro rfl hgoto₀)) (by simp) h₄
  have hlast := hnext (.shift hshift₂) (by simp) h₅
  rcases hlast.cases_head with heq | ⟨_, first, _⟩
  · cases heq
    rw [hacc] at haccepting
    cases haccepting
  · cases first with
    | @reduce _ r _ _ _ listed _ =>
      have heof : Term.eof = ⟨4⟩ ∧ r = oneRule := by simpa [hactions₁] using listed
      exact absurd heof.1 (by decide)

end GrammarCompiler
