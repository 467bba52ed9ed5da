/-
GrammarCompiler.Proofs.Operators — grammars of operators between operands.

An `OperatorGrammar` has a symbol at the top that stands for an expression, and
expressions that are an operand or two expressions with an operator between them.
Each operator is on a level and leans to a side, which is what its marks say. There
are only a few kinds of states that such a grammar leads to (`Place`), with the same
terminals ahead of all rules, so the items of a state are known from its kernel
(`OperatorGrammar.perm_closure`).

  §1 Grammars — operators, and the rules for them.
  §2 Places   — the kinds of states, and what is read in them.
  §3 Closures — the items of a state from those of its kernel.
-/
import GrammarCompiler.Proofs.Ending
import GrammarCompiler.Proofs.Recognizing

namespace GrammarCompiler

/-! ## §1 Grammars -/

theorem TermSet.contains_ofList {terms : List Term} {t : Term} :
    (ofList terms).contains t = true ↔ t ∈ terms := by
  have hfold : ∀ s : TermSet, (terms.foldl insert s).contains t = true ↔
      s.contains t = true ∨ t ∈ terms := by
    induction terms with
    | nil => simp
    | cons u terms ih =>
      intro s
      rw [List.foldl_cons, ih, contains_insert, List.mem_cons, Bool.or_eq_true, decide_eq_true_eq,
        or_assoc, eq_comm (a := u)]
  rw [ofList, hfold, contains_empty]
  simp

/-- An operator: its terminal, the rule for the expressions that have it in their
middle, its level, and whether it leans to the left or to the right. -/
structure Operator where
  term : Term
  rule : Rule
  level : Nat
  leftward : Bool
deriving DecidableEq

namespace Operator

/-- Whether an operation is complete when a certain operator comes next: its operator
is on a higher level, or on the same one and leans to the left. -/
def holds (o next : Operator) : Bool :=
  decide (next.level < o.level) || (next.level == o.level && o.leftward)

/-- The precedence at the end of an operation. -/
def endPrecedence (o : Operator) : Nat :=
  if o.leftward then 4 * o.level + 1 else 4 * o.level - 1

/-- The precedence at the end of an operation is above that of the operators that it
holds against, and below that of all others. -/
theorem compare_endPrecedence {o next : Operator} (hpos : 0 < o.level) :
    compare o.endPrecedence (4 * next.level) = if o.holds next then .gt else .lt := by
  unfold endPrecedence holds
  cases o.leftward with
  | true =>
    by_cases hle : next.level ≤ o.level
    · have hholds : (decide (next.level < o.level) || (next.level == o.level && true)) = true := by
        simp only [Bool.and_true, Bool.or_eq_true, decide_eq_true_eq, beq_iff_eq]
        omega
      rw [if_pos rfl, hholds, if_pos rfl, Nat.compare_eq_gt]
      omega
    · have hholds : (decide (next.level < o.level) || (next.level == o.level && true)) = false := by
        simp only [Bool.and_true, Bool.or_eq_false_iff, decide_eq_false_iff_not, beq_eq_false_iff_ne]
        omega
      rw [if_pos rfl, hholds, if_neg Bool.false_ne_true, Nat.compare_eq_lt]
      omega
  | false =>
    rw [if_neg Bool.false_ne_true, Bool.and_false, Bool.or_false]
    by_cases hlt : next.level < o.level
    · rw [if_pos (decide_eq_true hlt), Nat.compare_eq_gt]
      omega
    · rw [if_neg (by simpa using hlt), Nat.compare_eq_lt]
      omega

end Operator

/-- A grammar of operators between operands: `topRule` makes an expression the whole,
`operandRule` makes an operand an expression. What is skipped is the same everywhere.
The marks of a rule with an operator say how it is to be compared: in front of the
operator by its level, at the end of the rule also by the side it leans to. -/
structure OperatorGrammar where
  grammar : Grammar
  skip : Term
  expr : Term
  operand : Term
  operators : List Operator
  topRule : Rule
  operandRule : Rule
  rules : grammar.rules = operators.map Operator.rule ++ [operandRule, topRule]
  ids : (grammar.rules.map Rule.id).Nodup
  skips : ∀ r ∈ grammar.rules, r.skip = skip
  noAmbiguities : grammar.NoAmbiguities
  noCuts : ∀ r ∈ grammar.rules, ∀ m ∈ r.marks, m.cut = 0
  isTop : grammar.terms.isTop topRule.name = true
  topParts : topRule.parts = [expr]
  exprKind : (grammar.terms.info expr).kind = .nonterminal
  operandName : operandRule.name = expr
  operandParts : operandRule.parts = [operand]
  operatorName : ∀ o ∈ operators, o.rule.name = expr
  operatorParts : ∀ o ∈ operators, o.rule.parts = [expr, o.term, expr]
  level_pos : ∀ o ∈ operators, 0 < o.level
  levelMark : ∀ o ∈ operators, (o.rule.marksAt 1).precedence = 4 * o.level
  endMark : ∀ o ∈ operators, (o.rule.marksAt 3).precedence = o.endPrecedence
  isTerminal : ∀ t ∈ operand :: operators.map Operator.term, grammar.isTerminal t = true
  distinct : (Term.eof :: operand :: operators.map Operator.term).Nodup
  known : ∀ t ∈ Term.eof :: operand :: operators.map Operator.term, t ∈ grammar.terms.all

namespace OperatorGrammar

variable (G : OperatorGrammar)

/-- The terminals that can come behind an expression. -/
def ahead : TermSet :=
  TermSet.ofList (.eof :: G.operators.map Operator.term)

/-- The end of the input alone. -/
def last : TermSet :=
  TermSet.empty.insert .eof

/-- The rules for expressions. -/
def exprRules : List Rule :=
  G.operators.map Operator.rule ++ [G.operandRule]

/-- An item at which nothing is ambiguous. -/
def item (r : Rule) (dot : Nat) (ahead : TermSet) : Item :=
  { rule := r, dot, ahead, ambigAhead := [], skipAhead := G.skip }

/-- The items of expressions that start. -/
def started : List Item :=
  G.exprRules.map fun r => G.item r 0 G.ahead

/-- The items of operations of which the first expression has been read. -/
def pending : List Item :=
  G.operators.map fun o => G.item o.rule 1 G.ahead

/-! ## §2 Places -/

/-- The kinds of states: the entries for the top symbol and for expressions; behind an
operand; behind the whole expression, or another one that no operation waits for; behind
an operator; and behind a complete operation. -/
inductive Place where
  | top
  | expr
  | operand
  | whole
  | part
  | behind (o : Operator)
  | complete (o : Operator)

/-- The items of the kernel at a place. -/
def kernel : Place → List Item
  | .top => [G.item G.topRule 0 last]
  | .expr => G.exprRules.map fun r => G.item r 0 last
  | .operand => [G.item G.operandRule 1 G.ahead]
  | .whole => G.item G.topRule 1 last :: G.pending
  | .part => G.pending
  | .behind o => [G.item o.rule 2 G.ahead]
  | .complete o => G.item o.rule 3 G.ahead :: G.pending

/-- The items at a place. -/
def items : Place → List Item
  | .top => G.kernel .top ++ G.started
  | .expr => G.started
  | .operand => G.kernel .operand
  | .whole => G.kernel .whole
  | .part => G.kernel .part
  | .behind o => G.kernel (.behind o) ++ G.started
  | .complete o => G.kernel (.complete o)

/-- Whether an expression starts at a place. -/
def Place.begins : Place → Bool
  | .top | .expr | .behind _ => true
  | _ => false

/-- Whether an operator can come next at a place. -/
def Place.continues : Place → Bool
  | .whole | .part | .complete _ => true
  | _ => false

/-- The place behind the expression that starts at a place. -/
def Place.after : Place → Place
  | .top => .whole
  | .expr => .part
  | .behind o => .complete o
  | p => p

/-- The operator that an operation is about is one of the grammar. -/
def Place.IsOf (G : OperatorGrammar) : Place → Prop
  | .behind o | .complete o => o ∈ G.operators
  | _ => True

theorem continues_after {p : Place} (hb : p.begins = true) : p.after.continues = true := by
  cases p <;> first | rfl | cases hb

theorem eq_behind_of_after {p : Place} (hb : p.begins = true) {o : Operator}
    (h : p.after = .complete o) : p = .behind o := by
  cases p with
  | behind o' => exact congrArg Place.behind (Place.complete.inj h)
  | top => cases h
  | expr => cases h
  | operand => cases hb
  | whole => cases hb
  | part => cases hb
  | complete o' => cases hb

variable {G}

theorem contains_ahead {t : Term} :
    G.ahead.contains t = true ↔ t = .eof ∨ ∃ o ∈ G.operators, o.term = t := by
  rw [ahead, TermSet.contains_ofList, List.mem_cons, List.mem_map]

theorem contains_last {t : Term} : last.contains t = true ↔ t = .eof := by
  simp [last, TermSet.contains_insert, TermSet.contains_empty, eq_comm]

theorem isTerminal_expr : G.grammar.isTerminal G.expr = false := by
  rw [Grammar.isTerminal, TermTable.isTerminal, G.exprKind]
  rfl

theorem ne_expr {t : Term} (h : G.grammar.isTerminal t = true) : t ≠ G.expr := by
  rintro rfl
  rw [isTerminal_expr] at h
  cases h

theorem isTerminal_operand : G.grammar.isTerminal G.operand = true :=
  G.isTerminal _ (.head _)

theorem isTerminal_term {o : Operator} (ho : o ∈ G.operators) :
    G.grammar.isTerminal o.term = true :=
  G.isTerminal _ (.tail _ (List.mem_map_of_mem ho))

theorem nodup_terms : (G.operators.map Operator.term).Nodup :=
  (List.nodup_cons.mp (List.nodup_cons.mp G.distinct).2).2

theorem term_ne_eof {o : Operator} (ho : o ∈ G.operators) : o.term ≠ .eof := by
  intro heq
  exact (List.nodup_cons.mp G.distinct).1 (.tail _ (heq ▸ List.mem_map_of_mem ho))

/-- An operator is known by its terminal. -/
theorem eq_of_term {o p : Operator} (ho : o ∈ G.operators) (hp : p ∈ G.operators)
    (h : o.term = p.term) : o = p :=
  List.inj_on_of_nodup_map nodup_terms ho hp h

theorem mem_rules {r : Rule} : r ∈ G.grammar.rules ↔ r ∈ G.exprRules ∨ r = G.topRule := by
  rw [G.rules, exprRules]
  simp [or_assoc]

theorem mem_exprRules {r : Rule} :
    r ∈ G.exprRules ↔ (∃ o ∈ G.operators, o.rule = r) ∨ r = G.operandRule := by
  rw [exprRules, List.mem_append, List.mem_map, List.mem_singleton]

theorem name_of_mem_exprRules {r : Rule} (h : r ∈ G.exprRules) : r.name = G.expr := by
  rcases mem_exprRules.mp h with ⟨o, ho, rfl⟩ | rfl
  · exact G.operatorName o ho
  · exact G.operandName

theorem topName_ne_expr : G.topRule.name ≠ G.expr := by
  intro heq
  have htop := G.isTop
  rw [heq, TermTable.isTop, G.exprKind] at htop
  cases htop

@[simp]
theorem next?_item (r : Rule) (dot : Nat) (ahead : TermSet) :
    (G.item r dot ahead).next? = r.parts[dot]? :=
  rfl

/-- Reading an expression where one starts. -/
theorem started_read_expr :
    (G.started.filter fun i => i.next? == some G.expr).map Item.advance = G.pending := by
  have hoperators : ((G.operators.map fun o => G.item o.rule 0 G.ahead).filter fun i =>
      i.next? == some G.expr) = G.operators.map fun o => G.item o.rule 0 G.ahead := by
    rw [List.filter_eq_self]
    intro i hi
    obtain ⟨o, ho, rfl⟩ := List.mem_map.mp hi
    simp [G.operatorParts o ho]
  have hne : G.operand ≠ G.expr := ne_expr isTerminal_operand
  have hoperand : ([G.item G.operandRule 0 G.ahead].filter fun i =>
      i.next? == some G.expr) = [] := by
    simp [G.operandParts, hne]
  rw [started, exprRules, List.map_append, List.map_map, List.filter_append,
    show ((fun r => G.item r 0 G.ahead) ∘ Operator.rule) = fun o => G.item o.rule 0 G.ahead from rfl,
    hoperators, List.map_cons, List.map_nil, hoperand, List.append_nil, List.map_map]
  rfl

/-- Reading an operand where an expression starts. -/
theorem started_read_operand :
    (G.started.filter fun i => i.next? == some G.operand).map Item.advance =
      G.kernel .operand := by
  have hne : G.operand ≠ G.expr := ne_expr isTerminal_operand
  have hoperators : ((G.operators.map fun o => G.item o.rule 0 G.ahead).filter fun i =>
      i.next? == some G.operand) = [] := by
    rw [List.filter_eq_nil_iff]
    intro i hi
    obtain ⟨o, ho, rfl⟩ := List.mem_map.mp hi
    simp [G.operatorParts o ho, hne.symm]
  have hoperand : ([G.item G.operandRule 0 G.ahead].filter fun i =>
      i.next? == some G.operand) = [G.item G.operandRule 0 G.ahead] := by
    simp [G.operandParts]
  rw [started, exprRules, List.map_append, List.map_map, List.filter_append,
    show ((fun r => G.item r 0 G.ahead) ∘ Operator.rule) = fun o => G.item o.rule 0 G.ahead from rfl,
    hoperators, List.map_cons, List.map_nil, hoperand]
  rfl

/-- Where operators are read, each by its own rule. -/
theorem pending_read {o : Operator} (ho : o ∈ G.operators) :
    G.pending.filter (fun i => i.next? == some o.term) = [G.item o.rule 1 G.ahead] := by
  have hfilter : ∀ {l : List Operator}, l ⊆ G.operators → (l.map Operator.term).Nodup → o ∈ l →
      (l.map fun p => G.item p.rule 1 G.ahead).filter (fun i => i.next? == some o.term) =
        [G.item o.rule 1 G.ahead] := by
    intro l hl hnodup hmem
    induction l with
    | nil => cases hmem
    | cons p l ih =>
      obtain ⟨hp, hrest⟩ := List.cons_subset.mp hl
      rw [List.map_cons, List.nodup_cons] at hnodup
      rcases List.mem_cons.mp hmem with rfl | hmem
      · have hnone : (l.map fun p => G.item p.rule 1 G.ahead).filter
            (fun i => i.next? == some o.term) = [] := by
          rw [List.filter_eq_nil_iff]
          intro i hi
          obtain ⟨q, hq, rfl⟩ := List.mem_map.mp hi
          have hne : q.term ≠ o.term := fun heq => hnodup.1 (heq ▸ List.mem_map_of_mem hq)
          simp [G.operatorParts q (hrest hq), hne]
        rw [List.map_cons, List.filter_cons_of_pos (by simp [G.operatorParts o hp]), hnone]
      · have hne : p.term ≠ o.term := fun heq => hnodup.1 (heq ▸ List.mem_map_of_mem hmem)
        rw [List.map_cons, List.filter_cons_of_neg (by simp [G.operatorParts p hp, hne])]
        exact ih hrest hnodup.2 hmem
  exact hfilter (List.Subset.refl _) nodup_terms ho

variable {p : Place}

/-- Reading an expression at a place leads to the place behind it. -/
theorem items_read_expr (hp : p.IsOf G) (hb : p.begins = true) :
    ((G.items p).filter fun i => i.next? == some G.expr).map Item.advance = G.kernel p.after := by
  cases p with
  | top =>
    have hfirst : (G.kernel .top).filter (fun i => i.next? == some G.expr) = G.kernel .top := by
      simp [kernel, G.topParts]
    rw [items, List.filter_append, List.map_append, hfirst, started_read_expr]
    rfl
  | expr => exact started_read_expr
  | behind o =>
    have hfirst : (G.kernel (.behind o)).filter (fun i => i.next? == some G.expr) =
        G.kernel (.behind o) := by
      simp [kernel, G.operatorParts o hp]
    rw [items, List.filter_append, List.map_append, hfirst, started_read_expr]
    rfl
  | operand => cases hb
  | whole => cases hb
  | part => cases hb
  | complete o => cases hb

/-- Reading an operand where an expression starts. -/
theorem items_read_operand (hp : p.IsOf G) (hb : p.begins = true) :
    ((G.items p).filter fun i => i.next? == some G.operand).map Item.advance =
      G.kernel .operand := by
  have hne : G.operand ≠ G.expr := ne_expr isTerminal_operand
  cases p with
  | top =>
    have hfirst : (G.kernel .top).filter (fun i => i.next? == some G.operand) = [] := by
      simp [kernel, G.topParts, hne.symm]
    rw [items, List.filter_append, hfirst, List.nil_append, started_read_operand]
  | expr => exact started_read_operand
  | behind o =>
    have hfirst : (G.kernel (.behind o)).filter (fun i => i.next? == some G.operand) = [] := by
      simp [kernel, G.operatorParts o hp, hne.symm]
    rw [items, List.filter_append, hfirst, List.nil_append, started_read_operand]
  | operand => cases hb
  | whole => cases hb
  | part => cases hb
  | complete o => cases hb

/-- The item that reads an operator behind an expression. -/
theorem items_read_term (hp : p.IsOf G) (hc : p.continues = true) {o : Operator}
    (ho : o ∈ G.operators) :
    (G.items p).filter (fun i => i.next? == some o.term) = [G.item o.rule 1 G.ahead] := by
  cases p with
  | whole =>
    rw [items, kernel, List.filter_cons_of_neg (by simp [G.topParts]), pending_read ho]
  | part => exact pending_read ho
  | complete q =>
    rw [items, kernel, List.filter_cons_of_neg (by simp [G.operatorParts q hp]), pending_read ho]
  | top => cases hc
  | expr => cases hc
  | operand => cases hc
  | behind o => cases hc

/-- All that is read at a place. -/
theorem next_cases (hp : p.IsOf G) {i : Item} (hi : i ∈ G.items p) {t : Term}
    (hnext : i.next? = some t) :
    (p.begins = true ∧ (t = G.expr ∨ t = G.operand)) ∨
      p.continues = true ∧ ∃ o ∈ G.operators, t = o.term := by
  have hstarted : i ∈ G.started → t = G.expr ∨ t = G.operand := by
    intro hi
    obtain ⟨r, hr, rfl⟩ := List.mem_map.mp hi
    rcases mem_exprRules.mp hr with ⟨o, ho, rfl⟩ | rfl
    · rw [next?_item, G.operatorParts o ho] at hnext
      exact .inl (Option.some.inj hnext).symm
    · rw [next?_item, G.operandParts] at hnext
      exact .inr (Option.some.inj hnext).symm
  have hpending : i ∈ G.pending → ∃ o ∈ G.operators, t = o.term := by
    intro hi
    obtain ⟨o, ho, rfl⟩ := List.mem_map.mp hi
    rw [next?_item, G.operatorParts o ho] at hnext
    exact ⟨o, ho, (Option.some.inj hnext).symm⟩
  cases p with
  | top =>
    refine .inl ⟨rfl, (List.mem_append.mp hi).elim (fun hi => ?_) hstarted⟩
    cases List.mem_singleton.mp hi
    rw [next?_item, G.topParts] at hnext
    exact .inl (Option.some.inj hnext).symm
  | expr => exact .inl ⟨rfl, hstarted hi⟩
  | operand =>
    cases List.mem_singleton.mp hi
    rw [next?_item, G.operandParts] at hnext
    cases hnext
  | whole =>
    refine .inr ⟨rfl, (List.mem_cons.mp hi).elim (fun hi => ?_) hpending⟩
    rw [hi, next?_item, G.topParts] at hnext
    cases hnext
  | part => exact .inr ⟨rfl, hpending hi⟩
  | behind o =>
    refine .inl ⟨rfl, (List.mem_append.mp hi).elim (fun hi => ?_) hstarted⟩
    cases List.mem_singleton.mp hi
    rw [next?_item, G.operatorParts o hp] at hnext
    exact .inl (Option.some.inj hnext).symm
  | complete o =>
    refine .inr ⟨rfl, (List.mem_cons.mp hi).elim (fun hi => ?_) hpending⟩
    rw [hi, next?_item, G.operatorParts o hp] at hnext
    cases hnext

/-! ## §3 Closures -/

theorem nodup_rules : G.grammar.rules.Nodup :=
  List.Nodup.of_map _ G.ids

theorem rule_of_mem {o : Operator} (ho : o ∈ G.operators) : o.rule ∈ G.exprRules :=
  mem_exprRules.mpr (.inl ⟨o, ho, rfl⟩)

theorem topRule_mem : G.topRule ∈ G.grammar.rules :=
  mem_rules.mpr (.inr rfl)

theorem exprRules_subset : G.exprRules ⊆ G.grammar.rules :=
  fun _ hr => mem_rules.mpr (.inl hr)

theorem topRule_notMem : G.topRule ∉ G.exprRules :=
  fun h => topName_ne_expr (name_of_mem_exprRules h)

theorem mem_rulesFor_expr {r : Rule} : r ∈ G.grammar.rulesFor G.expr ↔ r ∈ G.exprRules := by
  rw [Closing.mem_rulesFor, mem_rules]
  constructor
  · rintro ⟨hr | rfl, hname⟩
    · exact hr
    · exact absurd hname topName_ne_expr
  · exact fun hr => ⟨.inl hr, name_of_mem_exprRules hr⟩

/-- An expression is the only thing that has rules, and what comes behind it is what comes
behind the rule, unless it stands in front of an operator. -/
theorem termsAhead_cases (table : FirstTable) {r : Rule} (hr : r ∈ G.grammar.rules) {dot : Nat}
    {t : Term} (hnext : r.parts[dot]? = some t) (ht : G.grammar.isTerminal t = false)
    (after : TermSet) :
    t = G.expr ∧ (table.termsAhead G.grammar r dot after = after ∨
      ∃ o ∈ G.operators, o.rule = r ∧ dot = 0 ∧
        table.termsAhead G.grammar r dot after = TermSet.empty.insert o.term) := by
  rcases mem_rules.mp hr with hr | rfl
  · rcases mem_exprRules.mp hr with ⟨o, ho, rfl⟩ | rfl
    · unfold FirstTable.termsAhead
      rw [G.operatorParts o ho] at hnext ⊢
      rcases dot with _ | _ | _ | dot
      · refine ⟨(Option.some.inj hnext).symm, .inr ⟨o, ho, rfl, rfl, ?_⟩⟩
        simp [FirstTable.beginnings, isTerminal_term ho]
      · obtain rfl := Option.some.inj hnext
        rw [isTerminal_term ho] at ht
        cases ht
      · exact ⟨(Option.some.inj hnext).symm, .inl rfl⟩
      · cases hnext
    · rw [G.operandParts] at hnext
      rcases dot with _ | dot
      · obtain rfl := Option.some.inj hnext
        rw [isTerminal_operand] at ht
        cases ht
      · cases hnext
  · unfold FirstTable.termsAhead
    rw [G.topParts] at hnext ⊢
    rcases dot with _ | dot
    · exact ⟨(Option.some.inj hnext).symm, .inl rfl⟩
    · cases hnext

theorem knows_ahead : G.grammar.Knows G.ahead := by
  intro t ht
  rcases contains_ahead.mp ht with rfl | ⟨o, ho, rfl⟩
  · exact G.known _ (.head _)
  · exact G.known _ (.tail _ (.tail _ (List.mem_map_of_mem ho)))

/-- The same is skipped in all rules. -/
theorem skipsAlike (table : FirstTable) : G.grammar.SkipsAlike table G.skip where
  skip := G.skips
  knows r hr dot t s hnext ht hs := by
    obtain ⟨_, hsame | ⟨o, ho, _, _, hterm⟩⟩ := termsAhead_cases table hr hnext ht s
    · exact hsame.symm ▸ hs
    · intro u hu
      rw [hterm, TermSet.contains_insert, TermSet.contains_empty, Bool.false_or,
        decide_eq_true_eq] at hu
      exact hu ▸ knows_ahead _ (contains_ahead.mpr (.inr ⟨o, ho, rfl⟩))

/-- Items without origins at which nothing is ambiguous, for rules of the grammar, with
nothing ahead that cannot come behind an expression. -/
theorem kernel_item (hp : p.IsOf G) {i : Item} (hi : i ∈ G.kernel p) :
    i.rule ∈ G.grammar.rules ∧ i = G.item i.rule i.dot i.ahead ∧
      (∀ t, i.ahead.contains t = true → G.ahead.contains t = true) ∧
        i.ahead.contains .eof = true := by
  have hlast : ∀ t, last.contains t = true → G.ahead.contains t = true :=
    fun t ht => contains_ahead.mpr (.inl (contains_last.mp ht))
  have hlast' : last.contains .eof = true := contains_last.mpr rfl
  have hahead : G.ahead.contains .eof = true := contains_ahead.mpr (.inl rfl)
  have hpending : i ∈ G.pending → i.rule ∈ G.grammar.rules ∧ i = G.item i.rule i.dot i.ahead ∧
      (∀ t, i.ahead.contains t = true → G.ahead.contains t = true) ∧
        i.ahead.contains .eof = true := by
    intro hi
    obtain ⟨o, ho, rfl⟩ := List.mem_map.mp hi
    exact ⟨exprRules_subset (rule_of_mem ho), rfl, fun _ => id, hahead⟩
  cases p with
  | top =>
    cases List.mem_singleton.mp hi
    exact ⟨topRule_mem, rfl, hlast, hlast'⟩
  | expr =>
    obtain ⟨r, hr, rfl⟩ := List.mem_map.mp hi
    exact ⟨exprRules_subset hr, rfl, hlast, hlast'⟩
  | operand =>
    cases List.mem_singleton.mp hi
    exact ⟨exprRules_subset (mem_exprRules.mpr (.inr rfl)), rfl, fun _ => id, hahead⟩
  | whole =>
    rcases List.mem_cons.mp hi with rfl | hi
    · exact ⟨topRule_mem, rfl, hlast, hlast'⟩
    · exact hpending hi
  | part => exact hpending hi
  | behind o =>
    cases List.mem_singleton.mp hi
    exact ⟨exprRules_subset (rule_of_mem hp), rfl, fun _ => id, hahead⟩
  | complete o =>
    rcases List.mem_cons.mp hi with rfl | hi
    · exact ⟨exprRules_subset (rule_of_mem hp), rfl, fun _ => id, hahead⟩
    · exact hpending hi

/-- A rule is known by the order of creation. -/
theorem eq_of_id {r r' : Rule} (hr : r ∈ G.grammar.rules) (hr' : r' ∈ G.grammar.rules)
    (h : r.id = r'.id) : r = r' :=
  List.inj_on_of_nodup_map G.ids hr hr' h

theorem nodup_ids : (G.exprRules.map Rule.id).Nodup := by
  refine G.ids.sublist (List.Sublist.map _ ?_)
  rw [G.rules, exprRules]
  exact List.Sublist.append (List.Sublist.refl _) (List.Sublist.cons_cons _ (List.nil_sublist _))

theorem nodup_started (a : TermSet) :
    ((G.exprRules.map fun r => G.item r 0 a).map Item.position).Nodup := by
  have hpositions : (G.exprRules.map fun r => G.item r 0 a).map Item.position =
      (G.exprRules.map Rule.id).map fun id => (id, 0) := by
    rw [List.map_map, List.map_map]
    rfl
  rw [hpositions]
  exact nodup_ids.map fun _ _ h => (Prod.ext_iff.mp h).1

theorem nodup_pending : (G.pending.map Item.position).Nodup := by
  have hpositions : G.pending.map Item.position =
      ((G.operators.map Operator.rule).map Rule.id).map fun id => (id, 1) := by
    rw [pending, List.map_map, List.map_map, List.map_map]
    rfl
  rw [hpositions]
  refine ((nodup_ids (G := G)).sublist ?_).map fun _ _ h => (Prod.ext_iff.mp h).1
  exact List.Sublist.map _ (List.sublist_append_left _ _)

theorem dot_of_mem_started {i : Item} (hi : i ∈ G.started) : i.dot = 0 := by
  obtain ⟨r, _, rfl⟩ := List.mem_map.mp hi
  rfl

theorem dot_of_mem_pending {i : Item} (hi : i ∈ G.pending) : i.dot = 1 := by
  obtain ⟨o, _, rfl⟩ := List.mem_map.mp hi
  rfl

/-- Items in front of others that are further along or for another rule. -/
theorem nodup_cons_position {i : Item} {items : List Item}
    (h : ∀ j ∈ items, j.rule = i.rule → j.dot ≠ i.dot)
    (hrules : ∀ j ∈ i :: items, j.rule ∈ G.grammar.rules)
    (hitems : (items.map Item.position).Nodup) : ((i :: items).map Item.position).Nodup := by
  refine List.nodup_cons.mpr ⟨fun hmem => ?_, hitems⟩
  obtain ⟨j, hj, heq⟩ := List.mem_map.mp hmem
  obtain ⟨hid, hdot⟩ := Prod.ext_iff.mp heq
  exact h j hj (eq_of_id (hrules j (.tail _ hj)) (hrules i (.head _)) hid) hdot

theorem rule_of_mem_started {i : Item} (hi : i ∈ G.started) : i.rule ∈ G.exprRules := by
  obtain ⟨r, hr, rfl⟩ := List.mem_map.mp hi
  exact hr

theorem rule_of_mem_pending {i : Item} (hi : i ∈ G.pending) : i.rule ∈ G.exprRules := by
  obtain ⟨o, ho, rfl⟩ := List.mem_map.mp hi
  exact rule_of_mem ho

theorem nodup_kernel (hp : p.IsOf G) : ((G.kernel p).map Item.position).Nodup := by
  have hrules : ∀ j ∈ G.kernel p, j.rule ∈ G.grammar.rules := fun j hj => (kernel_item hp hj).1
  cases p with
  | top => exact List.nodup_singleton _
  | expr => exact nodup_started _
  | operand => exact List.nodup_singleton _
  | whole =>
    refine nodup_cons_position (fun j hj heq => ?_) hrules nodup_pending
    exact absurd (heq ▸ rule_of_mem_pending hj) topRule_notMem
  | part => exact nodup_pending
  | behind o => exact List.nodup_singleton _
  | complete o =>
    refine nodup_cons_position (fun j hj _ => ?_) hrules nodup_pending
    rw [dot_of_mem_pending hj]
    exact Nat.ne_of_beq_eq_false rfl

theorem rule_of_mem_items (hp : p.IsOf G) {i : Item} (hi : i ∈ G.items p) :
    i.rule ∈ G.grammar.rules := by
  have hstarted : i ∈ G.started → i.rule ∈ G.grammar.rules :=
    fun hi => exprRules_subset (rule_of_mem_started hi)
  have hkernel : i ∈ G.kernel p → i.rule ∈ G.grammar.rules := fun hi => (kernel_item hp hi).1
  cases p with
  | top => exact (List.mem_append.mp hi).elim hkernel hstarted
  | expr => exact hstarted hi
  | behind o => exact (List.mem_append.mp hi).elim hkernel hstarted
  | operand => exact hkernel hi
  | whole => exact hkernel hi
  | part => exact hkernel hi
  | complete o => exact hkernel hi

theorem nodup_items (hp : p.IsOf G) : ((G.items p).map Item.position).Nodup := by
  cases p with
  | top =>
    refine nodup_cons_position (fun j hj heq => ?_) (fun j hj => rule_of_mem_items hp hj)
      (nodup_started _)
    exact absurd (heq ▸ rule_of_mem_started hj) topRule_notMem
  | expr => exact nodup_started _
  | operand => exact nodup_kernel hp
  | whole => exact nodup_kernel hp
  | part => exact nodup_kernel hp
  | behind o =>
    refine nodup_cons_position (fun j hj _ => ?_) (fun j hj => rule_of_mem_items hp hj)
      (nodup_started _)
    rw [dot_of_mem_started hj]
    exact Nat.ne_of_beq_eq_false rfl
  | complete o => exact nodup_kernel hp

section

variable {table : FirstTable} {kernel items : List Item}

/-- What is known of the items of a kernel at a place, whatever their origins. -/
theorem skips_kernel (hp : p.IsOf G) (hk : (kernel.map Item.bare).Perm (G.kernel p)) :
    ∀ k ∈ kernel, k.Skips G.grammar G.skip := by
  intro k hmem
  obtain ⟨hrule, hitem, hahead, _⟩ := kernel_item hp (hk.mem_iff.mp (List.mem_map_of_mem hmem))
  exact ⟨hrule, congrArg Item.skipAhead hitem, fun t ht => knows_ahead t (hahead t ht)⟩

/-- Items at different positions are for different dotted rules. -/
theorem nodup_dotted_of_perm {expected : List Item} (hk : (kernel.map Item.bare).Perm expected)
    (h : (expected.map Item.position).Nodup) : (kernel.map Item.toDotted).Nodup := by
  have hpositions := (hk.map Item.position).nodup_iff.mpr h
  rw [List.map_map, show (Item.position ∘ Item.bare) = (fun d : Dotted => (d.rule.id, d.dot)) ∘
    Item.toDotted from rfl, ← List.map_map] at hpositions
  exact hpositions.of_map

theorem areApart_of_perm (hp : p.IsOf G) (hk : (kernel.map Item.bare).Perm (G.kernel p)) :
    AreApart kernel :=
  areApart_of_nodup (nodup_dotted_of_perm hk (nodup_kernel hp))

/-- The items of a closure are for rules of the grammar, with nothing ahead that cannot come
behind an expression. -/
theorem closure_item (hp : p.IsOf G) (hk : (kernel.map Item.bare).Perm (G.kernel p))
    (h : closure G.grammar table kernel = .ok items) {i : Item} (hi : i ∈ items) :
    i.rule ∈ G.grammar.rules ∧ i.bare = G.item i.rule i.dot i.ahead ∧
      ∀ t, i.ahead.contains t = true → G.ahead.contains t = true := by
  have hkernel : ∀ k ∈ kernel, k.rule ∈ G.grammar.rules ∧ k.bare = G.item k.rule k.dot k.ahead ∧
      ∀ t, k.ahead.contains t = true → G.ahead.contains t = true := by
    intro k hmem
    obtain ⟨hrule, hitem, hahead, _⟩ := kernel_item hp (hk.mem_iff.mp (List.mem_map_of_mem hmem))
    exact ⟨hrule, hitem, hahead⟩
  obtain ⟨hrule, hambig⟩ := closure_ambigAhead G.noAmbiguities (fun k hmem =>
    ⟨(hkernel k hmem).1, congrArg Item.ambigAhead (hkernel k hmem).2.1⟩) h i hi
  obtain ⟨items', hitems', hskips⟩ := exists_closure (G.skipsAlike table) (skips_kernel hp hk)
  obtain rfl := Except.ok.inj (hitems'.symm.trans h)
  refine ⟨hrule, ?_, closure_ahead h (fun k hmem => (hkernel k hmem).1)
    (fun k hmem => (hkernel k hmem).2.2) ?_ i hi⟩
  · have hskip := (hskips i hi).skipAhead
    obtain ⟨d, ahead, ambig, skip, origins⟩ := i
    cases hambig
    cases hskip
    rfl
  · intro r hr dot t after hnext ht hafter u hu
    obtain ⟨_, hsame | ⟨o, ho, _, _, hterm⟩⟩ := termsAhead_cases table hr hnext ht after
    · exact hafter u (hsame ▸ hu)
    · rw [hterm, TermSet.contains_insert, TermSet.contains_empty, Bool.false_or,
        decide_eq_true_eq] at hu
      exact contains_ahead.mpr (.inr ⟨o, ho, hu⟩)

/-- An item of the kernel is in the closure, with as much ahead. -/
theorem exists_kept (hp : p.IsOf G) (hk : (kernel.map Item.bare).Perm (G.kernel p))
    (h : closure G.grammar table kernel = .ok items) {i : Item} (hi : i ∈ G.kernel p) :
    ∃ j ∈ items, j.toDotted = i.toDotted ∧ j.ahead.contains .eof = true := by
  obtain ⟨k, hmem, rfl⟩ := List.mem_map.mp (hk.mem_iff.mpr hi)
  obtain ⟨j, hj, hbelow⟩ := closure_keeps h (areApart_of_perm hp hk) hmem
  exact ⟨j, hj, hbelow.dotted, hbelow.ahead _ (kernel_item hp hi).2.2.2⟩

/-- Where an expression comes next, all rules for expressions start. -/
theorem exists_begun (h : closure G.grammar table kernel = .ok items) {i : Item} (hi : i ∈ items)
    (hnext : i.next? = some G.expr) (heof : i.ahead.contains .eof = true) {r : Rule}
    (hr : r ∈ G.exprRules) :
    ∃ j ∈ items, j.toDotted = ⟨r, 0⟩ ∧ ∀ t,
      (table.termsAhead G.grammar i.rule i.dot i.ahead).contains t = true →
        j.ahead.contains t = true :=
  closure_complete h hi hnext isTerminal_expr (TermSet.ne_empty heof) (mem_rulesFor_expr.mpr hr)

/-- Where an expression starts, all rules for expressions start, and the input may end
behind them. -/
theorem exists_started (hp : p.IsOf G) (hb : p.begins = true)
    (hk : (kernel.map Item.bare).Perm (G.kernel p))
    (h : closure G.grammar table kernel = .ok items) {r : Rule} (hr : r ∈ G.exprRules) :
    ∃ j ∈ items, j.toDotted = ⟨r, 0⟩ ∧ j.ahead.contains .eof = true := by
  -- An item that reads the last part of its rule next starts the rules.
  have hbegun : ∀ i ∈ G.kernel p, i.next? = some G.expr →
      (∀ o ∈ G.operators, o.rule = i.rule → i.dot ≠ 0) →
      ∃ j ∈ items, j.toDotted = ⟨r, 0⟩ ∧ j.ahead.contains .eof = true := by
    intro i hi hnext hlast
    obtain ⟨j, hj, hdotted, heof⟩ := exists_kept hp hk h hi
    have hnext' : j.next? = some G.expr := (congrArg Dotted.next? hdotted).trans hnext
    obtain ⟨j', hj', hstart, hahead⟩ := exists_begun h hj hnext' heof hr
    obtain ⟨_, hsame | ⟨o, ho, hrule, hdot, _⟩⟩ :=
      termsAhead_cases table (closure_item hp hk h hj).1 hnext' isTerminal_expr j.ahead
    · exact ⟨j', hj', hstart, hahead _ (by rw [hsame]; exact heof)⟩
    · exact absurd ((congrArg Dotted.dot hdotted).symm.trans hdot)
        (hlast o ho (hrule.trans (congrArg Dotted.rule hdotted)))
  cases p with
  | top =>
    refine hbegun _ (.head _) (by simp [G.topParts]) fun o ho heq => ?_
    have heq : o.rule = G.topRule := heq
    exact absurd (heq ▸ rule_of_mem ho) topRule_notMem
  | expr => exact exists_kept hp hk h (List.mem_map.mpr ⟨r, hr, rfl⟩)
  | behind o =>
    exact hbegun _ (.head _) (by simp [G.operatorParts o hp]) fun _ _ _ => Nat.ne_of_beq_eq_false rfl
  | operand => cases hb
  | whole => cases hb
  | part => cases hb
  | complete o => cases hb

/-- All that can come behind an expression is ahead of the rules for expressions. -/
theorem ahead_of_started (hp : p.IsOf G) (hb : p.begins = true)
    (hk : (kernel.map Item.bare).Perm (G.kernel p))
    (h : closure G.grammar table kernel = .ok items) {i : Item} (hi : i ∈ items)
    (hdot : i.dot = 0) (hr : i.rule ∈ G.exprRules) : i.ahead = G.ahead := by
  have hapart := closure_areApart h (areApart_of_perm hp hk)
  refine TermSet.ext fun t => Bool.eq_iff_iff.mpr ⟨(closure_item hp hk h hi).2.2 t, fun ht => ?_⟩
  have hsame : ∀ j ∈ items, j.toDotted = ⟨i.rule, 0⟩ → j = i := fun j hj hdotted =>
    hapart j hj i hi (hdotted.trans (by rw [← hdot]))
  rcases contains_ahead.mp ht with rfl | ⟨o, ho, rfl⟩
  · obtain ⟨j, hj, hdotted, heof⟩ := exists_started hp hb hk h hr
    exact hsame j hj hdotted ▸ heof
  · -- An operation that starts has its operator behind its first expression.
    obtain ⟨k, hmem, hdotted, heof⟩ := exists_started hp hb hk h (rule_of_mem ho)
    have hrule : k.rule = o.rule := congrArg Dotted.rule hdotted
    have hdot' : k.dot = 0 := congrArg Dotted.dot hdotted
    have hnext : k.next? = some G.expr := by
      rw [show k.next? = Dotted.next? ⟨o.rule, 0⟩ from congrArg Dotted.next? hdotted, Dotted.next?]
      simp [G.operatorParts o ho]
    obtain ⟨j, hj, hstart, hahead⟩ := exists_begun h hmem hnext heof hr
    refine hsame j hj hstart ▸ hahead _ ?_
    rw [hrule, hdot', FirstTable.termsAhead, G.operatorParts o ho]
    simp [FirstTable.beginnings, isTerminal_term ho, TermSet.contains_insert]

/-- Nothing refers to the symbol at the top. -/
theorem topName_notMem_parts {r : Rule} (hr : r ∈ G.grammar.rules) : G.topRule.name ∉ r.parts := by
  have hterminal : ∀ t, G.grammar.isTerminal t = true → G.topRule.name ≠ t := by
    rintro t ht rfl
    have htop := G.isTop
    rw [Grammar.isTerminal, TermTable.isTerminal, beq_iff_eq] at ht
    rw [TermTable.isTop, ht] at htop
    cases htop
  rcases mem_rules.mp hr with hr | rfl
  · rcases mem_exprRules.mp hr with ⟨o, ho, rfl⟩ | rfl
    · simp [G.operatorParts o ho, topName_ne_expr, hterminal _ (isTerminal_term ho)]
    · simp [G.operandParts, hterminal _ isTerminal_operand]
  · simp [G.topParts, topName_ne_expr]

/-- What does not start an expression was in the kernel. -/
theorem mem_kernel_of_closure (hp : p.IsOf G) (hk : (kernel.map Item.bare).Perm (G.kernel p))
    (h : closure G.grammar table kernel = .ok items) {i : Item} (hi : i ∈ items)
    (hbegun : ¬(i.dot = 0 ∧ i.rule ∈ G.exprRules)) : i ∈ kernel := by
  rcases closure_sound h hi with hmem | hstart
  · exact hmem
  · have htop : i.rule = G.topRule :=
      (mem_rules.mp hstart.rule).resolve_left fun hr => hbegun ⟨hstart.dot, hr⟩
    obtain ⟨r, hr, hmem⟩ := hstart.occurs
    rw [htop] at hmem
    refine absurd hmem (topName_notMem_parts (hr.elim id ?_))
    rintro ⟨k, hk', rfl⟩
    exact (skips_kernel hp hk k hk').rule

/-- Where an expression starts, its rules take the place of those in the kernel. -/
theorem mem_items_of_begins (hp : p.IsOf G) (hb : p.begins = true) {i : Item} :
    i ∈ G.items p ↔ i ∈ G.started ∨ i ∈ G.kernel p ∧ ¬(i.dot = 0 ∧ i.rule ∈ G.exprRules) := by
  cases p with
  | top =>
    rw [items, List.mem_append, or_comm]
    refine or_congr_right (iff_self_and.mpr fun hi hbegun => ?_)
    cases List.mem_singleton.mp hi
    exact topRule_notMem hbegun.2
  | expr =>
    refine (or_iff_left ?_).symm
    rintro ⟨hi, hbegun⟩
    obtain ⟨r, hr, rfl⟩ := List.mem_map.mp hi
    exact hbegun ⟨rfl, hr⟩
  | behind o =>
    rw [items, List.mem_append, or_comm]
    refine or_congr_right (iff_self_and.mpr fun hi hbegun => ?_)
    cases List.mem_singleton.mp hi
    cases hbegun.1
  | operand => cases hb
  | whole => cases hb
  | part => cases hb
  | complete o => cases hb

/-- The items at a place where an expression starts come of its kernel. -/
theorem perm_closure_of_begins (hp : p.IsOf G) (hb : p.begins = true)
    (hk : (kernel.map Item.bare).Perm (G.kernel p))
    (h : closure G.grammar table kernel = .ok items) :
    (items.map Item.bare).Perm (G.items p) := by
  have hnodup : (items.map Item.bare).Nodup := by
    have := closure_nodup nodup_rules h (nodup_dotted_of_perm hk (nodup_kernel hp))
    rw [show Item.toDotted = Item.toDotted ∘ Item.bare from rfl, ← List.map_map] at this
    exact this.of_map
  have hapart := areApart_of_perm hp hk
  rw [List.perm_ext_iff_of_nodup hnodup (nodup_items hp).of_map]
  intro i
  rw [mem_items_of_begins hp hb]
  constructor
  · intro hi
    obtain ⟨j, hj, rfl⟩ := List.mem_map.mp hi
    by_cases hbegun : j.dot = 0 ∧ j.rule ∈ G.exprRules
    · refine .inl (List.mem_map.mpr ⟨j.rule, hbegun.2, ?_⟩)
      rw [(closure_item hp hk h hj).2.1, hbegun.1, ahead_of_started hp hb hk h hj hbegun.1 hbegun.2]
    · have hmem := mem_kernel_of_closure hp hk h hj hbegun
      exact .inr ⟨hk.mem_iff.mp (List.mem_map_of_mem hmem), hbegun⟩
  · rintro (hi | ⟨hi, hbegun⟩)
    · obtain ⟨r, hr, rfl⟩ := List.mem_map.mp hi
      obtain ⟨j, hj, hdotted, _⟩ := exists_started hp hb hk h hr
      have hrule : j.rule = r := congrArg Dotted.rule hdotted
      have hdot : j.dot = 0 := congrArg Dotted.dot hdotted
      refine List.mem_map.mpr ⟨j, hj, ?_⟩
      rw [(closure_item hp hk h hj).2.1, hdot, hrule,
        ahead_of_started hp hb hk h hj hdot (hrule ▸ hr)]
    · obtain ⟨k, hmem, rfl⟩ := List.mem_map.mp (hk.mem_iff.mpr hi)
      obtain ⟨j, hj, hbelow⟩ := closure_keeps h hapart hmem
      have hj' : j ∈ kernel := mem_kernel_of_closure hp hk h hj fun hstart =>
        hbegun ⟨hbelow.dot.symm.trans hstart.1, hbelow.rule ▸ hstart.2⟩
      exact List.mem_map.mpr ⟨j, hj, congrArg Item.bare (hapart j hj' k hmem hbelow.dotted)⟩

/-- The items at a place come of its kernel. -/
theorem perm_closure (hp : p.IsOf G) (hk : (kernel.map Item.bare).Perm (G.kernel p))
    (h : closure G.grammar table kernel = .ok items) :
    (items.map Item.bare).Perm (G.items p) := by
  cases hb : p.begins with
  | true => exact perm_closure_of_begins hp hb hk h
  | false =>
    have hsame : G.items p = G.kernel p := by cases p <;> first | rfl | cases hb
    have hterminal : ∀ k ∈ kernel, ∀ t, k.next? = some t → G.grammar.isTerminal t = true := by
      intro k hmem t hnext
      have hi : k.bare ∈ G.items p := hsame ▸ hk.mem_iff.mp (List.mem_map_of_mem hmem)
      rcases next_cases hp hi hnext with ⟨hbegins, _⟩ | ⟨_, o, ho, rfl⟩
      · rw [hb] at hbegins
        cases hbegins
      · exact isTerminal_term ho
    obtain rfl := Except.ok.inj ((closure_eq_sort table hterminal).symm.trans h)
    rw [hsame]
    exact ((List.mergeSort_perm kernel _).map _).trans hk

end

end OperatorGrammar

end GrammarCompiler
