/-
GrammarCompiler.Proofs.Precedence — what is built by operator precedence.

Operations on operands make trees (`OperatorTree`). In a tree by precedence, what is in
the left operand of an operation holds against its operator, and the operation itself
holds against nothing in its right operand. Every sequence of operators has exactly one
such tree (`OperatorTree.exists_unique`), and that is what the automaton of an operator
grammar builds (`OperatorGrammar.Performs.builds_tree`).

  §1 Trees      — operations, their operators, and what precedence asks of them.
  §2 Uniqueness — the operators tell which is at the root.
  §3 Existence  — one more operation on the right.
  §4 Runs       — an automaton that goes by operators builds trees by precedence.
-/
import GrammarCompiler.Proofs.Operating
import GrammarCompiler.Proofs.Trees

namespace GrammarCompiler

/-! ## §1 Trees -/

/-- An operand, or an operation on two others. -/
inductive OperatorTree (α : Type) where
  | operand
  | apply (left : OperatorTree α) (o : α) (right : OperatorTree α)
deriving DecidableEq, Repr

namespace OperatorTree

variable {α β : Type}

/-- The operators of a tree from left to right. -/
def operators : OperatorTree α → List α
  | operand => []
  | apply left o right => left.operators ++ o :: right.operators

/-- A tree with other operators in the same places. -/
def map (f : α → β) : OperatorTree α → OperatorTree β
  | operand => operand
  | apply left o right => apply (left.map f) (f o) (right.map f)

/-- `t.IsByPrecedence holds`: the operators in the left operand of each operation hold
against its own, and its own holds against none in the right operand. -/
def IsByPrecedence (holds : α → α → Bool) : OperatorTree α → Prop
  | operand => True
  | apply left o right =>
    left.IsByPrecedence holds ∧ right.IsByPrecedence holds ∧
      (∀ p ∈ left.operators, holds p o = true) ∧ ∀ q ∈ right.operators, holds o q = false

instance decidableIsByPrecedence (holds : α → α → Bool) :
    (t : OperatorTree α) → Decidable (t.IsByPrecedence holds)
  | operand => .isTrue trivial
  | apply left o right =>
    have := decidableIsByPrecedence holds left
    have := decidableIsByPrecedence holds right
    inferInstanceAs (Decidable (left.IsByPrecedence holds ∧ right.IsByPrecedence holds ∧
      (∀ p ∈ left.operators, holds p o = true) ∧ ∀ q ∈ right.operators, holds o q = false))

/-- What is read to build a tree: each operand is the terminal `x`. -/
def word (x : Term) (term : α → Term) : OperatorTree α → List Term
  | operand => [x]
  | apply left o right => left.word x term ++ term o :: right.word x term

/-- The derivation tree of operations. -/
def forest (x : Term) (term : α → Term) (operandRule : Rule) (rule : α → Rule) :
    OperatorTree α → Forest
  | operand => .rule operandRule (.terminal x .nil) .nil
  | apply left o right =>
    .rule (rule o) ((left.forest x term operandRule rule).append
      (.terminal (term o) (right.forest x term operandRule rule))) .nil

variable {holds : α → α → Bool}

@[simp]
theorem operators_map (f : α → β) (t : OperatorTree α) :
    (t.map f).operators = t.operators.map f := by
  induction t with
  | operand => rfl
  | apply left o right ihl ihr => simp [map, operators, ihl, ihr]

theorem word_map (f : α → β) (x : Term) (term : β → Term) (t : OperatorTree α) :
    (t.map f).word x term = t.word x (term ∘ f) := by
  induction t with
  | operand => rfl
  | apply left o right ihl ihr => simp [map, word, ihl, ihr]

theorem forest_map (f : α → β) (x : Term) (term : β → Term) (operandRule : Rule)
    (rule : β → Rule) (t : OperatorTree α) :
    (t.map f).forest x term operandRule rule = t.forest x (term ∘ f) operandRule (rule ∘ f) := by
  induction t with
  | operand => rfl
  | apply left o right ihl ihr => simp [map, forest, ihl, ihr]

theorem isByPrecedence_map {holds' : β → β → Bool} {f : α → β} {t : OperatorTree α}
    (hf : ∀ o ∈ t.operators, ∀ p ∈ t.operators, holds' (f o) (f p) = holds o p)
    (h : t.IsByPrecedence holds) : (t.map f).IsByPrecedence holds' := by
  induction t with
  | operand => trivial
  | apply left o right ihl ihr =>
    obtain ⟨hleft, hright, hl, hr⟩ := h
    have hsubl : ∀ p ∈ left.operators, p ∈ (apply left o right).operators :=
      fun p hp => List.mem_append_left _ hp
    have hsubr : ∀ p ∈ o :: right.operators, p ∈ (apply left o right).operators :=
      fun p hp => List.mem_append_right _ hp
    refine ⟨ihl (fun p hp q hq => hf p (hsubl p hp) q (hsubl q hq)) hleft,
      ihr (fun p hp q hq => hf p (hsubr p (.tail _ hp)) q (hsubr q (.tail _ hq))) hright, ?_, ?_⟩
    · rw [operators_map, List.forall_mem_map]
      exact fun p hp => (hf p (hsubl p hp) o (hsubr o (.head _))).trans (hl p hp)
    · rw [operators_map, List.forall_mem_map]
      exact fun q hq => (hf o (hsubr o (.head _)) q (hsubr q (.tail _ hq))).trans (hr q hq)

/-! ## §2 Uniqueness -/

/-- Of two operators that could be at the root, the first would hold against the second
and would not, so it is not further to the left. -/
theorem eq_nil_of_roots {left right left' right' : OperatorTree α} {o o' : α} {mid : List α}
    (hright : ∀ q ∈ right.operators, holds o q = false)
    (hleft' : ∀ p ∈ left'.operators, holds p o' = true)
    (hmid : left'.operators = left.operators ++ mid)
    (hrest : o :: right.operators = mid ++ o' :: right'.operators) : mid = [] := by
  cases mid with
  | nil => rfl
  | cons m mid =>
    obtain ⟨rfl, htail⟩ := List.cons.inj hrest
    have hheld : holds o o' = true := hleft' o (hmid ▸ List.mem_append_right _ (.head _))
    have hnot : holds o o' = false := hright o' (htail ▸ List.mem_append_right _ (.head _))
    rw [hheld] at hnot
    cases hnot

/-- A sequence of operators has at most one tree by precedence. -/
theorem IsByPrecedence.eq {t t' : OperatorTree α} (h : t.IsByPrecedence holds)
    (h' : t'.IsByPrecedence holds) (heq : t.operators = t'.operators) : t = t' := by
  induction t generalizing t' with
  | operand =>
    cases t' with
    | operand => rfl
    | apply left o right => simp [operators] at heq
  | apply left o right ihl ihr =>
    cases t' with
    | operand => simp [operators] at heq
    | apply left' o' right' =>
      obtain ⟨hl, hr, hleft, hright⟩ := h
      obtain ⟨hl', hr', hleft', hright'⟩ := h'
      have hsame : left.operators = left'.operators ∧
          o :: right.operators = o' :: right'.operators := by
        rcases List.append_eq_append_iff.mp heq with ⟨mid, hmid, hrest⟩ | ⟨mid, hmid, hrest⟩
        · obtain rfl := eq_nil_of_roots hright hleft' hmid hrest
          exact ⟨(hmid.trans (List.append_nil _)).symm, hrest⟩
        · obtain rfl := eq_nil_of_roots hright' hleft hmid hrest
          exact ⟨hmid.trans (List.append_nil _), hrest.symm⟩
      obtain ⟨rfl, hrest⟩ := List.cons.inj hsame.2
      rw [ihl hl hl' hsame.1, ihr hr hr' hrest]

/-! ## §3 Existence -/

/-- What makes operators comparable: what holds against an operator holds against all
that the operator holds against, and so does what the operator does not hold against. -/
structure IsPrecedence (holds : α → α → Bool) : Prop where
  trans {o p q : α} : holds o p = true → holds p q = true → holds o q = true
  above {o p q : α} : holds p o = false → holds p q = true → holds o q = true

/-- A tree with one more operation on the right: it takes all that holds against its
operator as its left operand. -/
def snoc (holds : α → α → Bool) : OperatorTree α → α → OperatorTree α
  | operand, o => apply operand o operand
  | apply left p right, o =>
    if holds p o then apply (apply left p right) o operand
    else apply left p (right.snoc holds o)

@[simp]
theorem operators_snoc (t : OperatorTree α) (o : α) :
    (t.snoc holds o).operators = t.operators ++ [o] := by
  induction t with
  | operand => rfl
  | apply left p right _ ihr =>
    rw [snoc]
    split
    · rfl
    · simp [operators, ihr]

theorem IsByPrecedence.snoc (hp : IsPrecedence holds) {t : OperatorTree α}
    (h : t.IsByPrecedence holds) (o : α) : (t.snoc holds o).IsByPrecedence holds := by
  induction t with
  | operand => exact ⟨trivial, trivial, nofun, nofun⟩
  | apply left p right _ ihr =>
    obtain ⟨hl, hr, hleft, hright⟩ := h
    rw [OperatorTree.snoc]
    split
    next hheld =>
      refine ⟨⟨hl, hr, hleft, hright⟩, trivial, fun q hq => ?_, nofun⟩
      rcases List.mem_append.mp hq with hq | hq
      · exact hp.trans (hleft q hq) hheld
      · rcases List.mem_cons.mp hq with rfl | hq
        · exact hheld
        · exact hp.above (hright q hq) hheld
    next hheld =>
      refine ⟨hl, ihr hr, hleft, fun q hq => ?_⟩
      rw [operators_snoc, List.mem_append, List.mem_singleton] at hq
      rcases hq with hq | rfl
      · exact hright q hq
      · simpa using hheld

/-- Every sequence of operators has exactly one tree by precedence. -/
theorem exists_unique (hp : IsPrecedence holds) (ops : List α) :
    ∃! t : OperatorTree α, t.IsByPrecedence holds ∧ t.operators = ops := by
  have hfold : ∀ t : OperatorTree α, t.IsByPrecedence holds →
      (ops.foldl (OperatorTree.snoc holds) t).IsByPrecedence holds ∧
        (ops.foldl (OperatorTree.snoc holds) t).operators = t.operators ++ ops := by
    induction ops with
    | nil => simp
    | cons o ops ih =>
      intro t ht
      obtain ⟨hby, hops⟩ := ih (t.snoc holds o) (ht.snoc hp o)
      exact ⟨hby, by simp [hops]⟩
  obtain ⟨hby, hops⟩ := hfold operand trivial
  exact ⟨_, ⟨hby, hops⟩, fun t' ⟨hby', hops'⟩ => hby'.eq hby (hops'.trans hops.symm)⟩

end OperatorTree

theorem Operator.holds_iff {o next : Operator} :
    o.holds next = true ↔ next.level < o.level ∨ next.level = o.level ∧ o.leftward = true := by
  simp [holds]

/-- Levels and sides make operators comparable. -/
theorem Operator.isPrecedence : OperatorTree.IsPrecedence Operator.holds where
  trans {o p q} hop hpq := by
    rw [holds_iff] at *
    rcases hop with hop | ⟨hop, ho⟩
    · exact .inl (by omega)
    · exact hpq.imp (fun hpq => by omega) fun hpq => ⟨by omega, ho⟩
  above {o p q} hpo hpq := by
    have hpo : ¬(o.level < p.level ∨ o.level = p.level ∧ p.leftward = true) := by
      rw [← holds_iff, hpo]
      exact Bool.false_ne_true
    rw [holds_iff] at *
    refine .inl ?_
    rcases hpq with hpq | ⟨hpq, hleft⟩
    · omega
    · have : o.level ≠ p.level := fun heq => hpo (.inr ⟨heq, hleft⟩)
      omega

/-! ## §4 Runs -/

namespace OperatorGrammar

variable {G : OperatorGrammar}

/-- The terminals of a tree of operators. -/
def word (G : OperatorGrammar) (t : OperatorTree Operator) : List Term :=
  t.word G.operand Operator.term

/-- The derivation tree of a tree of operators. -/
def forest (G : OperatorGrammar) (t : OperatorTree Operator) : Forest :=
  t.forest G.operand Operator.term G.operandRule Operator.rule

theorem symbols_forest {t : OperatorTree Operator} (ht : ∀ o ∈ t.operators, o ∈ G.operators) :
    (G.forest t).symbols = [G.expr] := by
  cases t with
  | operand => exact congrArg (fun name => [name]) G.operandName
  | apply left o right =>
    have ho : o ∈ G.operators := ht o (List.mem_append_right _ (.head _))
    exact congrArg (fun name => [name]) (G.operatorName o ho)

variable {a : Automaton} {IsAt : Nat → Place → Prop}

/-- Reducing a rule for expressions leads to the place behind the expression. -/
theorem Performs.exists_reduced (h : G.Performs a IsAt) {q : Nat} {p : Place} (hq : IsAt q p)
    (hp : p.begins = true) (hne : p ≠ .expr) {r : Rule} (hname : r.name = G.expr) {s : Nat}
    (above stack : List Nat) {rest : List Term} (body : Forest)
    (habove : (s :: above).length = r.parts.length)
    (hbody : body.symbols.length = r.parts.length)
    (hlisted : .reduce (rest.headD .eof) r ∈ (a.state s).actions) (done : Forest) :
    ∃ q', a.Builds (⟨s :: (above ++ q :: stack), rest⟩, done.append body)
        (⟨q' :: q :: stack, rest⟩, done.append (.rule r body .nil)) ∧ IsAt q' p.after := by
  obtain ⟨q', hgoto, hq'⟩ := h.goOn hq hp hne
  refine ⟨q', .reduce hlisted (.intro ?_ (hname ▸ hgoto)) hbody, hq'⟩
  rw [← habove, ← List.cons_append]
  exact List.drop_left

/-- A tree by precedence is built where an expression starts, if the operator in front of
it holds against none of its operators, and these hold against the operator behind it. -/
theorem Performs.builds_tree (h : G.Performs a IsAt) {t : OperatorTree Operator}
    (ht : t.IsByPrecedence Operator.holds) (hops : ∀ o ∈ t.operators, o ∈ G.operators)
    {q : Nat} {p : Place} (hq : IsAt q p) (hp : p.begins = true) (hne : p ≠ .expr)
    (hfront : ∀ o, p = .behind o → ∀ p ∈ t.operators, o.holds p = false) (rest : List Term)
    (hrest : G.ahead.contains (rest.headD .eof) = true)
    (hbehind : ∀ next ∈ G.operators, next.term = rest.headD .eof →
      ∀ p ∈ t.operators, p.holds next = true) (stack : List Nat) (done : Forest) :
    ∃ q', Relation.ReflTransGen a.Builds (⟨q :: stack, G.word t ++ rest⟩, done)
        (⟨q' :: q :: stack, rest⟩, done.append (G.forest t)) ∧ IsAt q' p.after := by
  induction t generalizing q p rest stack done with
  | operand =>
    obtain ⟨q₁, hread, hq₁⟩ := h.readOperand hq hp
    obtain ⟨q', hreduce, hq'⟩ := h.exists_reduced hq hp hne G.operandName [] stack
      (.terminal G.operand .nil) (by simp [G.operandParts])
      (by simp [G.operandParts, Forest.symbols]) (h.reduceOperand hq₁ hrest) done
    exact ⟨q', .tail (.single (.shift hread)) hreduce, hq'⟩
  | apply left o right ihl ihr =>
    obtain ⟨hl, hr, hleft, hright⟩ := ht
    have ho : o ∈ G.operators := hops o (List.mem_append_right _ (.head _))
    have hopsl : ∀ p ∈ left.operators, p ∈ G.operators :=
      fun p hp => hops p (List.mem_append_left _ hp)
    have hopsr : ∀ p ∈ right.operators, p ∈ G.operators :=
      fun p hp => hops p (List.mem_append_right _ (.tail _ hp))
    have hword : G.word (.apply left o right) ++ rest =
        G.word left ++ (o.term :: (G.word right ++ rest)) := by
      simp [word, OperatorTree.word]
    -- The left operand is built, as its operators hold against the one at the root.
    obtain ⟨q₁, hrun₁, hq₁⟩ := ihl hl hopsl hq hp hne
      (fun o' hp' p' hmem => hfront o' hp' p' (List.mem_append_left _ hmem))
      (o.term :: (G.word right ++ rest)) (contains_ahead.mpr (.inr ⟨o, ho, rfl⟩))
      (fun next hnext heq p' hmem => eq_of_term hnext ho heq ▸ hleft p' hmem) stack done
    obtain ⟨q₂, hread, hq₂⟩ := h.readOperator hq₁ (continues_after hp) ho
      fun o' hafter => hfront o' (eq_behind_of_after hp hafter) o (List.mem_append_right _ (.head _))
    obtain ⟨q₃, hrun₂, hq₃⟩ := ihr hr hopsr hq₂ rfl (by simp)
      (fun o' hp' p' hmem => by cases hp'; exact hright p' hmem) rest hrest
      (fun next hnext heq p' hmem =>
        hbehind next hnext heq p' (List.mem_append_right _ (.tail _ hmem)))
      (q₁ :: q :: stack) ((done.append (G.forest left)).append (.terminal o.term .nil))
    obtain ⟨q', hreduce, hq'⟩ := h.exists_reduced hq hp hne (G.operatorName o ho) [q₂, q₁] stack
      ((G.forest left).append (.terminal o.term (G.forest right))) (by simp [G.operatorParts o ho])
      (by simp [G.operatorParts o ho, Forest.symbols, symbols_forest hopsl, symbols_forest hopsr])
      (h.reduceOperator hq₃ hrest fun next hnext heq =>
        hbehind next hnext heq o (List.mem_append_right _ (.head _))) done
    have hforest : ((done.append (G.forest left)).append (.terminal o.term .nil)).append
        (G.forest right) =
        done.append ((G.forest left).append (.terminal o.term (G.forest right))) := by
      rw [Forest.append_assoc, Forest.append_assoc]
      rfl
    rw [hforest] at hrun₂
    rw [hword]
    exact ⟨q', (hrun₁.tail (.shift hread)).trans (hrun₂.tail hreduce), hq'⟩

/-- An expression is read as a whole, and its tree by precedence is what is built. -/
theorem Performs.builds_whole (h : G.Performs a IsAt) {start : Nat} (hstart : IsAt start .top)
    {t : OperatorTree Operator} (ht : t.IsByPrecedence Operator.holds)
    (hops : ∀ o ∈ t.operators, o ∈ G.operators) :
    ∃ s, Relation.ReflTransGen a.Builds (⟨[start], G.word t⟩, .nil)
        (⟨[s, start], []⟩, G.forest t) ∧ a.EndsIn G.grammar s := by
  obtain ⟨s, hrun, hs⟩ := h.builds_tree ht hops hstart rfl (by simp) (fun o hp => by cases hp)
    [] (contains_ahead.mpr (.inl rfl))
    (fun next hnext heq => absurd heq (term_ne_eof hnext)) [] .nil
  rw [List.append_nil] at hrun
  exact ⟨s, hrun, h.endsIn hs⟩

end OperatorGrammar

end GrammarCompiler
