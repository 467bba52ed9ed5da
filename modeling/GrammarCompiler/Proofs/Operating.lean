/-
GrammarCompiler.Proofs.Operating — automata for operators between operands.

Every state of such an automaton is at one of the places of the grammar. Where a
complete operation meets an operator, levels and sides tell whether it is reduced, so
nothing is left undecided, and an automaton is built
(`OperatorGrammar.exists_fullAutomaton`).

  §1 States    — every state is at a place.
  §2 Decisions — reducing an operation or reading the next operator.
  §3 Automata  — the automaton of an operator grammar.
-/
import GrammarCompiler.Proofs.Deciding
import GrammarCompiler.Proofs.Gotos
import GrammarCompiler.Proofs.Operators
import GrammarCompiler.Proofs.Searching

namespace GrammarCompiler

namespace OperatorGrammar

variable {G : OperatorGrammar} {p : Place}

/-! ## §1 States -/

/-- A state at a place: its kernel and its items are those of the place, whatever their
origins. -/
structure Place.IsAt (G : OperatorGrammar) (p : Place) (seed : Seed) : Prop where
  isOf : p.IsOf G
  kernel : seed.kernel.map Item.bare = Item.sort (G.kernel p)
  items : (seed.items.map Item.bare).Perm (G.items p)

/-- The places that something was read on the way to. -/
def inner (G : OperatorGrammar) : List Place :=
  [.operand, .whole, .part] ++ G.operators.map .behind ++ G.operators.map .complete

variable {table : FirstTable} {noSkip : Term} {seed : Seed}

theorem mem_inner_behind {o : Operator} (ho : o ∈ G.operators) : .behind o ∈ G.inner := by
  simp [inner, ho]

theorem mem_inner_complete {o : Operator} (ho : o ∈ G.operators) : .complete o ∈ G.inner := by
  simp [inner, ho]

/-- What can be read at a place, and where it leads. -/
inductive Place.Reads (G : OperatorGrammar) (p : Place) : Term → Place → Prop where
  | expr (begins : p.begins = true) : Reads G p G.expr p.after
  | operand (begins : p.begins = true) : Reads G p G.operand .operand
  | term {o : Operator} (mem : o ∈ G.operators) (continues : p.continues = true) :
      Reads G p o.term (.behind o)

theorem exists_reads (hp : p.IsOf G) {i : Item} (hi : i ∈ G.items p) {t : Term}
    (hnext : i.next? = some t) : ∃ p', p.Reads G t p' := by
  rcases next_cases hp hi hnext with ⟨hb, rfl | rfl⟩ | ⟨hc, o, ho, rfl⟩
  · exact ⟨_, .expr hb⟩
  · exact ⟨_, .operand hb⟩
  · exact ⟨_, .term ho hc⟩

theorem Place.Reads.isOf (hp : p.IsOf G) {t : Term} {p' : Place} (h : p.Reads G t p') :
    p'.IsOf G ∧ p' ∈ G.inner := by
  cases h with
  | operand => exact ⟨trivial, .head _⟩
  | term ho => exact ⟨ho, mem_inner_behind ho⟩
  | expr hb =>
    cases p with
    | top => exact ⟨trivial, .tail _ (.head _)⟩
    | expr => exact ⟨trivial, .tail _ (.tail _ (.head _))⟩
    | behind o => exact ⟨hp, mem_inner_complete hp⟩
    | operand => cases hb
    | whole => cases hb
    | part => cases hb
    | complete o => cases hb

theorem Place.Reads.kernel (hp : p.IsOf G) {t : Term} {p' : Place} (h : p.Reads G t p') :
    ((G.items p).filter fun i => i.next? == some t).map Item.advance = G.kernel p' := by
  cases h with
  | expr hb => exact items_read_expr hp hb
  | operand hb => exact items_read_operand hp hb
  | term ho hc =>
    rw [items_read_term hp hc ho]
    rfl

/-- No rule of the grammar cuts others off. -/
theorem applyCut_eq {items : List Item} (h : ∀ i ∈ items, i.rule ∈ G.grammar.rules) :
    Search.applyCut items = items := by
  have hcut : ∀ i ∈ items, Search.cutLevel i = 0 := by
    intro i hi
    rw [Search.cutLevel, Phrase.marksAt]
    cases hm : i.rule.marks[i.dot - 1]? with
    | none => rfl
    | some m => exact G.noCuts _ (h i hi) m (List.mem_of_getElem? hm)
  have hlevel : (items.map Search.cutLevel).foldl max 0 = 0 := by
    rw [List.map_congr_left hcut]
    induction items with
    | nil => rfl
    | cons i items ih => exact ih (fun j hj => h j (.tail _ hj)) fun j hj => hcut j (.tail _ hj)
  rw [Search.applyCut]
  simp [hlevel]

/-- The kernel that a symbol leads to from a place. -/
theorem Place.IsAt.perm_kernelFor (h : p.IsAt G seed) {t : Term} {p' : Place}
    (hread : p.Reads G t p') :
    ((kernelFor G.grammar seed.items t).map Item.bare).Perm (G.kernel p') := by
  have hrule : ∀ i ∈ seed.items, i.rule ∈ G.grammar.rules := by
    intro i hi
    have hmem : i.bare ∈ G.items p := h.items.mem_iff.mp (List.mem_map_of_mem hi)
    have hrule := rule_of_mem_items h.isOf hmem
    exact hrule
  have hcut : kernelFor G.grammar seed.items t =
      (seed.items.filter fun i => i.next? == some t).map Item.advance := by
    unfold kernelFor
    dsimp only
    split
    · refine applyCut_eq (G := G) fun i hi => ?_
      obtain ⟨j, hj, rfl⟩ := List.mem_map.mp hi
      exact hrule j (List.mem_filter.mp hj).1
    · rfl
  have hbare : (kernelFor G.grammar seed.items t).map Item.bare =
      ((seed.items.map Item.bare).filter fun i => i.next? == some t).map Item.advance := by
    rw [hcut, List.filter_map, List.map_map, List.map_map]
    rfl
  rw [hbare, ← hread.kernel h.isOf]
  exact (h.items.filter _).map _

/-- The kernel of a place makes a state at that place. -/
theorem isAt_of_kernel (hp : p.IsOf G)
    (hclosed : closure G.grammar table seed.kernel = .ok seed.items)
    (hk : seed.kernel.map Item.bare = Item.sort (G.kernel p)) : p.IsAt G seed :=
  ⟨hp, hk, perm_closure hp (hk ▸ List.mergeSort_perm _ _) hclosed⟩

theorem sort_map_bare_of_perm {kernel : List Item} (hp : p.IsOf G)
    (hk : (kernel.map Item.bare).Perm (G.kernel p)) :
    (Item.sort kernel).map Item.bare = Item.sort (G.kernel p) := by
  rw [Item.sort_map_bare]
  exact Item.sort_eq_of_perm hk ((hk.map _).nodup_iff.mpr (nodup_kernel hp))

theorem rules_eq : G.grammar.rules = G.exprRules ++ [G.topRule] := by
  rw [G.rules, exprRules, List.append_assoc]
  rfl

/-- The rule for the symbol at the top. -/
theorem rulesFor_top : G.grammar.rulesFor G.topRule.name = [G.topRule] := by
  have hexpr : G.exprRules.filter (fun r => r.name == G.topRule.name) = [] := by
    rw [List.filter_eq_nil_iff]
    intro r hr
    simp [name_of_mem_exprRules hr, topName_ne_expr.symm]
  rw [Grammar.rulesFor, rules_eq, List.filter_append, hexpr]
  simp

theorem rulesFor_expr : G.grammar.rulesFor G.expr = G.exprRules := by
  have hexpr : G.exprRules.filter (fun r => r.name == G.expr) = G.exprRules := by
    rw [List.filter_eq_self]
    intro r hr
    simp [name_of_mem_exprRules hr]
  rw [Grammar.rulesFor, rules_eq, List.filter_append, hexpr]
  simp [topName_ne_expr]

/-- Only the symbol at the top and expressions have rules. -/
theorem eq_of_rulesFor_ne_nil {start : Term} (h : G.grammar.rulesFor start ≠ []) :
    start = G.topRule.name ∨ start = G.expr := by
  obtain ⟨r, hmem⟩ := List.exists_mem_of_ne_nil _ h
  obtain ⟨hr, rfl⟩ := Closing.mem_rulesFor.mp hmem
  exact (mem_rules.mp hr).symm.imp (congrArg Rule.name) name_of_mem_exprRules

theorem entryItems_eq {start : Term} (h : G.grammar.rulesFor start ≠ []) :
    entryItems G.grammar noSkip start =
      (G.grammar.rulesFor start).map fun r => G.item r 0 last := by
  have hskip : ((G.grammar.rulesFor start).head?.map Rule.skip).getD noSkip = G.skip := by
    obtain ⟨first, rest, hcons⟩ := List.exists_cons_of_ne_nil h
    have hfirst : first ∈ G.grammar.rulesFor start := hcons ▸ .head _
    rw [hcons]
    exact G.skips first (Closing.mem_rulesFor.mp hfirst).1
  rw [entryItems, hskip]
  rfl

theorem map_bare_items (rules : List Rule) (dot : Nat) (a : TermSet) :
    (rules.map fun r => G.item r dot a).map Item.bare = rules.map fun r => G.item r dot a := by
  rw [List.map_map]
  rfl

/-- Every state is at a place, which something was read on the way to, unless the state
is an entry. -/
theorem exists_place (h : Grown G.grammar table noSkip seed) :
    ∃ p, p.IsAt G seed ∧ (seed.start = none → p ∈ G.inner) ∧
      (seed.start = some G.topRule.name → p = .top) := by
  induction h with
  | @entry start skip items hrules hclosed =>
    rcases eq_of_rulesFor_ne_nil hrules with rfl | rfl
    · refine ⟨.top, isAt_of_kernel trivial hclosed (sort_map_bare_of_perm trivial ?_),
        fun hstart => ?_, fun _ => rfl⟩
      · rw [entryItems_eq hrules, map_bare_items, rulesFor_top]
        rfl
      · cases hstart
    · refine ⟨.expr, isAt_of_kernel trivial hclosed (sort_map_bare_of_perm trivial ?_),
        fun hstart => ?_, fun hstart => ?_⟩
      · rw [entryItems_eq hrules, map_bare_items, rulesFor_expr]
        rfl
      · cases hstart
      · exact absurd (Option.some.inj hstart).symm topName_ne_expr
  | @read source symbol skip items _ hnext hclosed ih =>
    obtain ⟨p, hp, _, _⟩ := ih
    obtain ⟨i, hi, hnext⟩ := hnext
    have hmem : i.bare ∈ G.items p := hp.items.mem_iff.mp (List.mem_map_of_mem hi)
    obtain ⟨p', hreads⟩ := exists_reads hp.isOf hmem hnext
    obtain ⟨hp', hinner⟩ := hreads.isOf hp.isOf
    refine ⟨p', isAt_of_kernel hp' hclosed (sort_map_bare_of_perm hp' (hp.perm_kernelFor hreads)),
      fun _ => hinner, fun hstart => ?_⟩
    cases hstart

/-- States at the same place have the same kernel. -/
theorem Place.IsAt.sameAll {seed' : Seed} (h : p.IsAt G seed) (h' : p.IsAt G seed') :
    Item.sameAll seed.kernel seed'.kernel = true :=
  Item.sameAll_iff_bare.mpr (h.kernel.trans h'.kernel.symm)

/-- A symbol leads to the place that it is read on the way to. -/
theorem Place.IsAt.of_leads {seeds : Array Seed} {q q' : Nat} {t : Term} {p' : Place}
    {target : Seed} (h : p.IsAt G seed) (hq : seeds[q]? = some seed)
    (hleads : Leads G.grammar seeds q t q') (hq' : seeds[q']? = some target)
    (hgrown : Grown G.grammar table noSkip target) (hreads : p.Reads G t p') :
    p'.IsAt G target := by
  obtain ⟨source, target', hsource, htarget, hsame⟩ := hleads
  cases hsource.symm.trans hq
  cases htarget.symm.trans hq'
  have hp' := (hreads.isOf h.isOf).1
  refine isAt_of_kernel hp' hgrown.closed ((Item.sameAll_iff_bare.mp hsame).trans ?_)
  exact sort_map_bare_of_perm hp' (h.perm_kernelFor hreads)

/-- There are no more states than places to be at, beside the entries. -/
theorem size_le {s : Search} {starts : List Term} (hs : s.Orderly starts)
    (hgrown : ∀ (p : Nat) seed, s.seeds[p]? = some seed → Grown G.grammar table noSkip seed) :
    s.seeds.size ≤ starts.length + Search.kernelBits G.grammar := by
  refine (hs.size_le G.inner (Place.IsAt G) (fun seed hseed hstart => ?_)
    fun _ _ _ => Place.IsAt.sameAll).trans (Nat.add_le_add_left ?_ _)
  · obtain ⟨n, hn⟩ := Array.mem_iff_getElem?.mp hseed
    obtain ⟨p, hp, hinner, _⟩ := exists_place (hgrown n seed hn)
    exact ⟨p, hinner hstart, hp⟩
  · -- Each rule has at least two positions.
    have hdots : ∀ (rules : List Rule) n, (∀ r ∈ rules, r.parts ≠ []) →
        n + 2 * rules.length ≤ rules.foldl (fun n r => n + (r.parts.length + 1)) n := by
      intro rules
      induction rules with
      | nil => exact fun _ _ => Nat.le_refl _
      | cons r rules ih =>
        intro n hne
        obtain ⟨hr, hrest⟩ := List.forall_mem_cons.mp hne
        have := List.length_pos_iff.mpr hr
        have := ih (n + (r.parts.length + 1)) hrest
        rw [List.foldl_cons, List.length_cons]
        omega
    have hparts : ∀ r ∈ G.grammar.rules, r.parts ≠ [] := by
      intro r hr
      rcases mem_rules.mp hr with hr | rfl
      · rcases mem_exprRules.mp hr with ⟨o, ho, rfl⟩ | rfl
        · simp [G.operatorParts o ho]
        · simp [G.operandParts]
      · simp [G.topParts]
    have hle := hdots G.grammar.rules 0 hparts
    have hlength : G.grammar.rules.length = G.operators.length + 2 := by simp [G.rules]
    have hinner : G.inner.length = 3 + 2 * G.operators.length := by
      simp [inner]
      omega
    rw [Search.kernelBits]
    refine le_trans ?_ (Nat.le_mul_of_pos_right _ (Nat.succ_pos _))
    omega

/-! ## §2 Decisions -/

/-- The rule that is complete at a place, unless it is for the symbol at the top. -/
def completed (G : OperatorGrammar) : Place → Option Rule
  | .operand => some G.operandRule
  | .complete o => some o.rule
  | _ => none

theorem isTop_expr : G.grammar.terms.isTop G.expr = false := by
  rw [TermTable.isTop, G.exprKind]
  rfl

theorem atEnd_started {i : Item} (hi : i ∈ G.started) : i.atEnd = false := by
  obtain ⟨r, hr, rfl⟩ := List.mem_map.mp hi
  rcases mem_exprRules.mp hr with ⟨o, ho, rfl⟩ | rfl
  · simp [Dotted.atEnd, item, G.operatorParts o ho]
  · simp [Dotted.atEnd, item, G.operandParts]

theorem atEnd_pending {i : Item} (hi : i ∈ G.pending) : i.atEnd = false := by
  obtain ⟨o, ho, rfl⟩ := List.mem_map.mp hi
  simp [Dotted.atEnd, item, G.operatorParts o ho]

/-- The only item at a place whose rule can be reduced. -/
theorem filter_atEnd (hp : p.IsOf G) :
    (G.items p).filter (fun i => i.atEnd && !G.grammar.terms.isTop i.rule.name) =
      (G.completed p).toList.map fun r => G.item r r.parts.length G.ahead := by
  have hnone : ∀ items : List Item, (∀ i ∈ items, i.atEnd = false) →
      items.filter (fun i => i.atEnd && !G.grammar.terms.isTop i.rule.name) = [] := by
    intro items h
    rw [List.filter_eq_nil_iff]
    intro i hi
    simp [h i hi]
  have hstarted := hnone G.started fun _ => atEnd_started
  have hpending := hnone G.pending fun _ => atEnd_pending
  cases p with
  | top =>
    rw [items, List.filter_append, hstarted, List.append_nil]
    refine hnone _ fun i hi => ?_
    cases List.mem_singleton.mp hi
    simp [Dotted.atEnd, item, G.topParts]
  | expr => exact hstarted
  | operand =>
    simp [items, kernel, completed, Dotted.atEnd, item, G.operandParts, G.operandName, isTop_expr]
  | whole =>
    rw [items, kernel, List.filter_cons_of_neg (by simp [item, G.isTop])]
    exact hpending
  | part => exact hpending
  | behind o =>
    rw [items, List.filter_append, hstarted, List.append_nil]
    refine hnone _ fun i hi => ?_
    cases List.mem_singleton.mp hi
    simp [Dotted.atEnd, item, G.operatorParts o hp]
  | complete o =>
    rw [items, kernel, List.filter_cons_of_pos
      (by simp [Dotted.atEnd, item, G.operatorParts o hp, G.operatorName o hp, isTop_expr]),
      hpending]
    simp [completed, G.operatorParts o hp]

/-- Where no rule is complete, nothing is reduced. -/
theorem Place.IsAt.reductions_eq_nil (h : p.IsAt G seed) (hr : G.completed p = none) :
    Search.reductions G.grammar seed.items = [] := by
  have hperm := h.items.filter fun i => i.atEnd && !G.grammar.terms.isTop i.rule.name
  rw [filter_atEnd h.isOf, hr, List.filter_map] at hperm
  have hnil := List.map_eq_nil_iff.mp (List.Perm.eq_nil hperm)
  rw [Search.reductions, show (fun i : Item => i.atEnd && !G.grammar.terms.isTop i.rule.name) =
    (fun i : Item => i.atEnd && !G.grammar.terms.isTop i.rule.name) ∘ Item.bare from rfl, hnil]
  rfl

/-- Where a rule is complete, it is reduced if something comes next that can come behind
an expression. -/
theorem Place.IsAt.exists_reductions (h : p.IsAt G seed) {r : Rule}
    (hr : G.completed p = some r) :
    ∃ i, i.bare = G.item r r.parts.length G.ahead ∧
      Search.reductions G.grammar seed.items = G.ahead.toList.map fun t => ⟨.reduce t r, [i]⟩ := by
  have hperm := h.items.filter fun i => i.atEnd && !G.grammar.terms.isTop i.rule.name
  rw [filter_atEnd h.isOf, hr, List.filter_map] at hperm
  obtain ⟨i, hsingle, hbare⟩ := List.map_eq_singleton_iff.mp (List.perm_singleton.mp hperm)
  refine ⟨i, hbare, ?_⟩
  have hrule : i.rule = r := congrArg (fun j => j.rule) hbare
  have hahead : i.ahead = G.ahead := congrArg Item.ahead hbare
  rw [Search.reductions, show (fun i : Item => i.atEnd && !G.grammar.terms.isTop i.rule.name) =
    (fun i : Item => i.atEnd && !G.grammar.terms.isTop i.rule.name) ∘ Item.bare from rfl, hsingle]
  simp [hrule, hahead]

/-- The marks of an item, whatever its origins, say what its rule does. -/
theorem precedence_marks {i : Item} {r : Rule} {dot : Nat} {a : TermSet}
    (hi : i.bare = G.item r dot a) : i.marks.precedence = (r.marksAt dot).precedence := by
  have hrule : i.rule = r := congrArg (fun j => j.rule) hi
  have hdot : i.dot = dot := congrArg (fun j => j.dot) hi
  rw [Item.marks, Item.marksAt, hrule, hdot]
  split
  · exact Nat.max_zero _
  · rfl

/-- Behind an operation, reducing it is preferred to reading the next operator if the
operation holds against that, and else the other way. -/
theorem verdict_complete {o next : Operator} (h : (Place.complete o).IsAt G seed)
    (hnext : next ∈ G.operators) {i : Item} (hi : i.bare = G.item o.rule 3 G.ahead)
    (new old : Action) :
    Cause.verdict G.grammar seed.items ⟨new, [i]⟩
        ⟨old, seed.items.filter fun j => j.next? == some next.term⟩ =
      if o.holds next then .gt else .lt := by
  have ho : o ∈ G.operators := h.isOf
  have hperm := h.items.filter fun j => j.next? == some next.term
  rw [items_read_term h.isOf rfl hnext, List.filter_map] at hperm
  obtain ⟨j, hsingle, hj⟩ := List.map_eq_singleton_iff.mp (List.perm_singleton.mp hperm)
  rw [show (fun j : Item => j.next? == some next.term) =
    (fun j : Item => j.next? == some next.term) ∘ Item.bare from rfl, hsingle]
  have hdot : ∀ {k : Item} {r : Rule} {dot : Nat}, k.bare = G.item r dot G.ahead → k.dot = dot :=
    fun hk => congrArg (fun k => k.dot) hk
  have hname : i.rule.name = G.expr :=
    (congrArg (fun k => k.rule.name) hi).trans (G.operatorName o ho)
  rw [Cause.verdict_of_single (hdot hi ▸ by decide) (hdot hj ▸ by decide), precedence_marks hi,
    precedence_marks hj, G.endMark o ho, G.levelMark next hnext,
    Operator.compare_endPrecedence (G.level_pos o ho)]
  rw [hname, TermTable.isRepeat, G.exprKind]
  rfl

/-- A reduction only meets reading an operator, behind an operation. -/
theorem Place.IsAt.verdict_of_mem (h : p.IsAt G seed) {r : Rule} (hr : G.completed p = some r)
    {i : Item} (hi : i.bare = G.item r r.parts.length G.ahead) {done : List Term}
    {reading : Search.Reading} (hread : Search.HasRead G.grammar seed.items done reading)
    {old : Cause} (hold : old ∈ reading.causes.toList) (new : Action) :
    ∃ o next, p = .complete o ∧ next ∈ G.operators ∧ next.term = old.action.term ∧
      (∃ q, old.action = .shift next.term q) ∧
        Cause.verdict G.grammar seed.items ⟨new, [i]⟩ old = if o.holds next then .gt else .lt := by
  obtain ⟨t, ht, _, q, rfl⟩ := hread.shift_of_mem hold
  obtain ⟨j, hj, hnext⟩ := hread.next t ht
  have hmem : j.bare ∈ G.items p := h.items.mem_iff.mp (List.mem_map_of_mem hj)
  cases p with
  | complete o =>
    rcases next_cases h.isOf hmem hnext with ⟨hb, _⟩ | ⟨_, next, hop, rfl⟩
    · cases hb
    · cases hr
      rw [G.operatorParts o h.isOf] at hi
      exact ⟨o, next, rfl, hop, rfl, ⟨q, rfl⟩, verdict_complete h hop hi _ _⟩
  | operand =>
    rcases next_cases h.isOf hmem hnext with ⟨hb, _⟩ | ⟨hc, _⟩
    · cases hb
    · cases hc
  | top => cases hr
  | expr => cases hr
  | whole => cases hr
  | part => cases hr
  | behind o => cases hr

theorem nodup_termsOf_of_hasRead {g : Grammar} {items : List Item} {done : List Term}
    {reading : Search.Reading} (hread : Search.HasRead g items done reading)
    (hdone : done.Nodup) : (termsOf reading.causes.toList).Nodup := by
  have hterms : termsOf reading.causes.toList = done.reverse.filter g.isTerminal := by
    have hblind := congrArg termsOf hread.shifts
    rw [termsOf, termsOf, List.map_map, List.map_map,
      show (fun c : Cause => c.action.term) ∘ Search.shiftOf items = id from rfl,
      List.map_id] at hblind
    rw [← hblind]
    exact List.map_congr_left fun c _ => (Cause.term_blind c).symm
  rw [hterms]
  exact (List.nodup_reverse.mpr hdone).filter _

/-- Of the actions of a state, reductions stay where they are preferred to reading an
operator, and reading stays everywhere else; no conflict is left undecided. -/
theorem Place.IsAt.mem_causes (h : p.IsAt G seed) {done : List Term} {reading : Search.Reading}
    (hread : Search.HasRead G.grammar seed.items done reading) (hdone : done.Nodup) (s : Search) :
    (((Search.reductions G.grammar seed.items).foldl
      (Search.addReduction G.grammar seed.items) (reading, s)).2 = s) ∧
    ∀ c, c ∈ ((Search.reductions G.grammar seed.items).foldl
        (Search.addReduction G.grammar seed.items) (reading, s)).1.causes.toList ↔
      (c ∈ reading.causes.toList ∧ ∀ new ∈ Search.reductions G.grammar seed.items,
        new.action.term = c.action.term →
          Cause.verdict G.grammar seed.items new c = .lt) ∨
      c ∈ Search.reductions G.grammar seed.items ∧ ∀ old ∈ reading.causes.toList,
        old.action.term = c.action.term →
          Cause.verdict G.grammar seed.items c old = .gt := by
  refine Search.mem_addReductions_of_decided ?_ (fun new hnew old hold hterm => ?_)
    (nodup_termsOf_of_hasRead hread hdone) s
  · cases hr : G.completed p with
    | none =>
      rw [h.reductions_eq_nil hr]
      exact List.nodup_nil
    | some r =>
      obtain ⟨i, _, hreductions⟩ := h.exists_reductions hr
      rw [hreductions, termsOf, List.map_map]
      exact (TermSet.nodup_toList G.ahead).map fun _ _ heq => heq
  · cases hr : G.completed p with
    | none =>
      rw [h.reductions_eq_nil hr] at hnew
      cases hnew
    | some r =>
      obtain ⟨i, hi, hreductions⟩ := h.exists_reductions hr
      rw [hreductions] at hnew
      obtain ⟨t, _, rfl⟩ := List.mem_map.mp hnew
      obtain ⟨o, next, _, _, _, ⟨q, haction⟩, hverdict⟩ := h.verdict_of_mem hr hi hread hold _
      refine ⟨by rw [haction]; rfl, ?_⟩
      rw [hverdict]
      split <;> simp

/-! ## §3 Automata -/

/-- An automaton is built for every operator grammar: no conflict is left. -/
theorem exists_fullAutomaton (G : OperatorGrammar) (table : FirstTable) (noSkip : Term)
    {starts : List Term} (hstarts : ∀ start ∈ starts, G.grammar.rulesFor start ≠ []) :
    ∃ a, fullAutomaton G.grammar table starts noSkip = .ok a := by
  refine GrammarCompiler.exists_fullAutomaton
    ⟨G.skipsAlike table, G.known _ (.head _), fun seed hgrown done reading s hread hdone => ?_⟩
    hstarts fun s hs hgrown => size_le hs hgrown
  obtain ⟨p, hp, _⟩ := exists_place hgrown
  exact (hp.mem_causes hread hdone s).1

section

variable {st : State}

/-- A complete rule is reduced if something comes next that can come behind an expression,
but no operator that an operation gives way to. -/
theorem Place.IsAt.reduce_mem (h : p.IsAt G seed) (hst : Search.IsRead G.grammar table seed st)
    {r : Rule} (hr : G.completed p = some r) {t : Term} (ht : G.ahead.contains t = true)
    (hholds : ∀ o next, p = .complete o → next ∈ G.operators → next.term = t →
      o.holds next = true) : .reduce t r ∈ st.actions := by
  obtain ⟨s, s', hst⟩ := hst
  obtain ⟨reading, s₁, hbyNext, _, _, _, hactions, _⟩ := Search.readState_ok hst
  obtain ⟨done, hread, hdone, _, _⟩ := Search.hasRead_byNext hbyNext
  obtain ⟨i, hi, hreductions⟩ := h.exists_reductions hr
  rw [hactions]
  refine List.mem_map.mpr ⟨⟨.reduce t r, [i]⟩, ?_, rfl⟩
  refine ((h.mem_causes hread hdone s₁).2 _).mpr (.inr ⟨?_, fun old hold hterm => ?_⟩)
  · rw [hreductions]
    exact List.mem_map.mpr ⟨t, TermSet.mem_toList.mpr ht, rfl⟩
  · obtain ⟨o, next, hp, hnext, hop, _, hverdict⟩ := h.verdict_of_mem hr hi hread hold (.reduce t r)
    rw [hverdict, hholds o next hp hnext (hop.trans hterm)]
    rfl

/-- What can be read is read, unless an operation holds against it. -/
theorem Place.IsAt.exists_shift (h : p.IsAt G seed)
    (hst : Search.IsRead G.grammar table seed st) {t : Term} {p' : Place}
    (hreads : p.Reads G t p') (ht : G.grammar.isTerminal t = true)
    (hholds : ∀ o next, p = .complete o → next ∈ G.operators → next.term = t →
      o.holds next = false) : ∃ q, .shift t q ∈ st.actions := by
  obtain ⟨s, s', hst⟩ := hst
  obtain ⟨reading, s₁, hbyNext, _, _, _, hactions, _⟩ := Search.readState_ok hst
  obtain ⟨done, hread, hdone, _, hnext⟩ := Search.hasRead_byNext hbyNext
  obtain ⟨j, hj, hj'⟩ : ∃ j ∈ seed.items, j.next? = some t := by
    obtain ⟨i, hi⟩ : ∃ i, i ∈ (G.items p).filter fun i => i.next? == some t := by
      have hkernel := hreads.kernel h.isOf
      cases hreads with
      | expr => exact absurd rfl (ne_expr ht)
      | operand | term =>
        refine List.exists_mem_of_ne_nil _ fun hnil => ?_
        rw [hnil] at hkernel
        cases hkernel
    obtain ⟨hi, hnext⟩ := List.mem_filter.mp hi
    obtain ⟨j, hj, rfl⟩ := List.mem_map.mp (h.items.mem_iff.mpr hi)
    exact ⟨j, hj, beq_iff_eq.mp hnext⟩
  obtain ⟨q, c, hc, hq⟩ := hread.exists_shift (hnext j hj t hj') ht
  refine ⟨q, hactions ▸ List.mem_map.mpr ⟨c, ?_, hq⟩⟩
  refine ((h.mem_causes hread hdone s₁).2 c).mpr (.inl ⟨hc, fun new hnew hterm => ?_⟩)
  cases hr : G.completed p with
  | none =>
    rw [h.reductions_eq_nil hr] at hnew
    cases hnew
  | some r =>
    obtain ⟨i, hi, hreductions⟩ := h.exists_reductions hr
    rw [hreductions] at hnew
    obtain ⟨u, _, rfl⟩ := List.mem_map.mp hnew
    obtain ⟨o, next, hp, hop, hterm', _, hverdict⟩ :=
      h.verdict_of_mem hr hi hread hc (.reduce u r)
    rw [hverdict, hholds o next hp hop (hterm'.trans (by rw [hq]; rfl))]
    rfl

end

/-- What an automaton does that goes by operators: `IsAt q p` says that state `q` is at
place `p`. Where an expression starts, operands are read, and expressions lead on. A
complete operation is reduced if it holds against the operator that comes next, or if
none comes next; otherwise the operator is read. Behind the whole the input may end. -/
structure Performs (G : OperatorGrammar) (a : Automaton) (IsAt : Nat → Place → Prop) :
    Prop where
  readOperand {q : Nat} {p : Place} : IsAt q p → p.begins = true →
    ∃ q', .shift G.operand q' ∈ (a.state q).actions ∧ IsAt q' .operand
  readOperator {q : Nat} {p : Place} {next : Operator} : IsAt q p → p.continues = true →
    next ∈ G.operators → (∀ o, p = .complete o → o.holds next = false) →
      ∃ q', .shift next.term q' ∈ (a.state q).actions ∧ IsAt q' (.behind next)
  reduceOperand {q : Nat} {t : Term} : IsAt q .operand → G.ahead.contains t = true →
    .reduce t G.operandRule ∈ (a.state q).actions
  reduceOperator {q : Nat} {t : Term} {o : Operator} : IsAt q (.complete o) →
    G.ahead.contains t = true → (∀ next ∈ G.operators, next.term = t → o.holds next = true) →
      .reduce t o.rule ∈ (a.state q).actions
  goOn {q : Nat} {p : Place} : IsAt q p → p.begins = true → p ≠ .expr →
    ∃ q', ⟨G.expr, q'⟩ ∈ (a.state q).gotos ∧ IsAt q' p.after
  endsIn {q : Nat} : IsAt q .whole → a.EndsIn G.grammar q

/-- A state of an automaton at a place, as its seed is. -/
def StateIsAt (G : OperatorGrammar) (seeds : Array Seed) (q : Nat) (p : Place) : Prop :=
  ∃ seed, seeds[q]? = some seed ∧ p.IsAt G seed

section

variable {starts : List Term} {a : Automaton} {seeds : Array Seed} {q : Nat}

theorem StateIsAt.exists_read (h : G.StateIsAt seeds q p)
    (hb : Built G.grammar table noSkip starts a seeds) :
    ∃ seed st, p.IsAt G seed ∧ Search.IsRead G.grammar table seed st ∧
      a.state q = st.finish G.grammar ∧ (a.state q).items = seed.items := by
  obtain ⟨seed, hseed, hp⟩ := h
  have hlt : q < a.size := hb.size ▸ (Array.getElem?_eq_some_iff.mp hseed).1
  obtain ⟨seed', st, hseed', hst, heq⟩ := hb.isRead q hlt
  cases hseed.symm.trans hseed'
  obtain ⟨seed', hseed', hitems, _⟩ := (hb.fits q hlt).seed
  cases hseed.symm.trans hseed'
  exact ⟨seed, st, hp, hst, heq, hitems⟩

/-- A symbol leads from state to state as it does from place to place. -/
theorem StateIsAt.of_links (h : G.StateIsAt seeds q p)
    (hb : Built G.grammar table noSkip starts a seeds) {t : Term} {q' : Nat} {p' : Place}
    (hreads : p.Reads G t p') (hlinks : a.Links q t q') : G.StateIsAt seeds q' p' := by
  obtain ⟨seed, hseed, hp⟩ := h
  have hleads := hb.leads_of_links hlinks
  obtain ⟨_, target, _, htarget, _⟩ := id hleads
  exact ⟨target, htarget, hp.of_leads hseed hleads htarget (hb.grown q' target htarget) hreads⟩

theorem StateIsAt.exists_shift (h : G.StateIsAt seeds q p)
    (hb : Built G.grammar table noSkip starts a seeds) {t : Term} {p' : Place}
    (hreads : p.Reads G t p') (ht : G.grammar.isTerminal t = true)
    (hholds : ∀ o next, p = .complete o → next ∈ G.operators → next.term = t →
      o.holds next = false) :
    ∃ q', .shift t q' ∈ (a.state q).actions ∧ G.StateIsAt seeds q' p' := by
  obtain ⟨seed, st, hp, hst, heq, _⟩ := h.exists_read hb
  obtain ⟨q', hq'⟩ := hp.exists_shift hst hreads ht hholds
  have hlisted : .shift t q' ∈ (a.state q).actions := heq ▸ List.mem_mergeSort.mpr hq'
  exact ⟨q', hlisted, h.of_links hb hreads (.shift hlisted)⟩

theorem StateIsAt.reduce_mem (h : G.StateIsAt seeds q p)
    (hb : Built G.grammar table noSkip starts a seeds) {r : Rule} (hr : G.completed p = some r)
    {t : Term} (ht : G.ahead.contains t = true)
    (hholds : ∀ o next, p = .complete o → next ∈ G.operators → next.term = t →
      o.holds next = true) : .reduce t r ∈ (a.state q).actions := by
  obtain ⟨seed, st, hp, hst, heq, _⟩ := h.exists_read hb
  exact heq ▸ List.mem_mergeSort.mpr (hp.reduce_mem hst hr ht hholds)

theorem completed_of_begins (hb : p.begins = true) : G.completed p = none := by
  cases p <;> first | rfl | cases hb

/-- At the top and behind an operator, an expression is read next. -/
theorem exists_next_expr (hp : p.IsOf G) (hbegins : p.begins = true) (hne : p ≠ .expr) :
    ∃ i ∈ G.items p, i.next? = some G.expr := by
  cases p with
  | top => exact ⟨_, .head _, by simp [G.topParts]⟩
  | behind o => exact ⟨_, .head _, by simp [G.operatorParts o hp]⟩
  | expr => exact absurd rfl hne
  | operand => cases hbegins
  | whole => cases hbegins
  | part => cases hbegins
  | complete o => cases hbegins

/-- Where an expression starts, it leads on. -/
theorem StateIsAt.exists_goto (h : G.StateIsAt seeds q p)
    (hb : Built G.grammar table noSkip starts a seeds) (hbegins : p.begins = true)
    (hne : p ≠ .expr) :
    ∃ q', ⟨G.expr, q'⟩ ∈ (a.state q).gotos ∧ G.StateIsAt seeds q' p.after := by
  obtain ⟨seed, _, hp, _, _, hitems⟩ := h.exists_read hb
  obtain ⟨i, hi, hnext⟩ := exists_next_expr hp.isOf hbegins hne
  obtain ⟨j, hj, rfl⟩ := List.mem_map.mp (hp.items.mem_iff.mpr hi)
  have hkept : (a.state q).forgets G.grammar table G.expr = false := by
    rw [State.forgets, Search.replaces, hitems, hp.reductions_eq_nil (completed_of_begins hbegins)]
    rfl
  obtain ⟨q', hq'⟩ := (hb.exists_goto_iff ⟨j, hitems ▸ hj, hnext⟩ isTerminal_expr).mpr hkept
  exact ⟨q', hq', h.of_links hb (.expr hbegins) (.goto hq')⟩

/-- Behind the whole expression, the input may end. -/
theorem StateIsAt.endsIn (h : G.StateIsAt seeds q .whole)
    (hb : Built G.grammar table noSkip starts a seeds) : a.EndsIn G.grammar q := by
  obtain ⟨seed, _, hp, _, _, hitems⟩ := h.exists_read hb
  refine ⟨?_, fun hmem => ?_⟩
  · obtain ⟨i, hi, hbare⟩ := List.mem_map.mp (hp.items.mem_iff.mpr (.head _))
    have hrule : i.rule = G.topRule := congrArg (fun j => j.rule) hbare
    have hdot : i.dot = 1 := congrArg (fun j => j.dot) hbare
    rw [State.accepting, List.any_eq_true]
    exact ⟨i, hitems ▸ hi, by simp [hrule, hdot, G.isTop, Dotted.atEnd, G.topParts]⟩
  · rcases hb.mem_terms_iff.mp hmem with ⟨i, hi, hnext, _⟩ | ⟨i, hi, hend, htop, _⟩
    · have hmem : i.bare ∈ G.items .whole := hp.items.mem_iff.mp (List.mem_map_of_mem (hitems ▸ hi))
      rcases next_cases hp.isOf hmem hnext with ⟨hbegins, _⟩ | ⟨_, o, ho, heq⟩
      · cases hbegins
      · exact term_ne_eof ho heq.symm
    · have hmem : i.bare ∈ G.items .whole := hp.items.mem_iff.mp (List.mem_map_of_mem (hitems ▸ hi))
      have hnone : i.bare ∈ (G.items .whole).filter fun i =>
          i.atEnd && !G.grammar.terms.isTop i.rule.name :=
        List.mem_filter.mpr ⟨hmem, by simp [Item.bare, Dotted.atEnd] at hend ⊢; exact ⟨hend, htop⟩⟩
      rw [filter_atEnd hp.isOf] at hnone
      cases hnone

/-- The automaton of an operator grammar goes by operators, from the entry for the
symbol at the top on. -/
theorem performs_of_built (hb : Built G.grammar table noSkip starts a seeds) :
    G.Performs a (G.StateIsAt seeds) where
  readOperand h hbegins :=
    h.exists_shift hb (.operand hbegins) isTerminal_operand fun o _ hp _ _ => by
      subst hp
      cases hbegins
  readOperator h hcontinues hnext hholds :=
    h.exists_shift hb (.term hnext hcontinues) (isTerminal_term hnext) fun o next' hp hop heq =>
      eq_of_term hop hnext heq ▸ hholds o hp
  reduceOperand h ht := h.reduce_mem hb rfl ht fun _ _ hp => by cases hp
  reduceOperator h ht hholds := h.reduce_mem hb rfl ht fun o next hp hop heq => by
    cases hp
    exact hholds next hop heq
  goOn h hbegins hne := h.exists_goto hb hbegins hne
  endsIn h := h.endsIn hb

/-- The entry for the symbol at the top is at the top. -/
theorem stateIsAt_top (hb : Built G.grammar table noSkip starts a seeds)
    (hstart : (a.state q).start = some G.topRule.name) : G.StateIsAt seeds q .top := by
  obtain ⟨seed, hseed, _, hseedStart, hgrown⟩ :=
    hb.exists_seed (Automaton.lt_size_of_start hstart)
  obtain ⟨p, hp, _, htop⟩ := exists_place hgrown
  exact ⟨seed, hseed, htop (hseedStart.symm.trans hstart) ▸ hp⟩

end

end OperatorGrammar

end GrammarCompiler
