/-
GrammarCompiler.Proofs.Operations — grammars of operators, as they are declared.

In a grammar text, operators are assigned to the items of a precedence list, which make
them lean to the left or to the right (`OperatorTable`). Such a text is worked through in
one way: the rules that come out, their order and their marks are those of the table
(`OperatorTable.IsBuilt`), and each operator has a terminal of its own.

  §1 Tables     — operators, their items, and the declarations of a table.
  §2 Marks      — what the marker of an operation comes down to.
  §3 References — what the names and literals in an operation stand for.
  §4 Bodies     — the phrases for all operations of a table.
  §5 Rules      — the rules that a grammar of operators consists of.
-/
import GrammarCompiler.Proofs.Overlapping
import GrammarCompiler.Proofs.Stages

namespace GrammarCompiler

/-! ## §1 Tables -/

/-- An operator as it is declared: the item of the precedence list that its rule is
marked with, and what its token is read by. -/
structure DeclaredOperator where
  item : String
  key : TokenKey

/-- Operators between operands, as they are declared: the name of the rule for
expressions, the precedence list, the operators and the operand. -/
structure OperatorTable where
  name : String
  items : List PrecedenceItem
  operators : List DeclaredOperator
  operand : TokenKey

/-- An operation on two expressions, with a marker in front of the operator. -/
inductive IsOperation (name : String) (o : DeclaredOperator) : Expr → Prop where
  | intro (start left right mark : Nat) (id : Ident) (token : Expr) (hid : id.name = o.item)
      (hkey : TokenKey.ofExpr? token = some o.key) :
      IsOperation name o (.sequence start [.name left name [], token, .name right name []]
        [[], [⟨mark, .precedence, id⟩], [], []])

namespace OperatorTable

/-- The tokens of the operand and the operators. -/
def keys (x : OperatorTable) : List TokenKey :=
  x.operand :: x.operators.map DeclaredOperator.key

/-- Where the item of an operator stands in the precedence list. -/
def place (x : OperatorTable) (o : DeclaredOperator) : Nat :=
  x.items.findIdx fun i => i.id.name == o.item

/-- Whether the item of an operator makes it lean to the left. -/
def leftward (x : OperatorTable) (o : DeclaredOperator) : Bool :=
  (x.items.find? fun i => i.id.name == o.item).any fun i => i.assoc == some .left

/-- Whether an operation takes its right operand before another operator does: its item
stands earlier, or it is the same and leans to the left. -/
def binds (x : OperatorTable) (o next : DeclaredOperator) : Bool :=
  decide (x.place o < x.place next) || (x.place o == x.place next && x.leftward o)

end OperatorTable

/-- `decl.Declares x`: there is a precedence list of which each item leans to a side, one
top rule that stands for an expression, and one rule for expressions, with an operation
for each operator and the operand behind them. Every operator has an item, all tokens are
different, and nothing is skipped or comes from somewhere else. -/
structure GrammarDecl.Declares (decl : GrammarDecl) (x : OperatorTable) : Prop where
  precedences : (decl.precedences.map PrecedenceDecl.items).getD [] = x.items
  sides : ∀ i ∈ x.items, i.assoc = some .left ∨ i.assoc = some .right
  assigned : ∀ o ∈ x.operators, ∃ i ∈ x.items, i.id.name = o.item
  top : ∃ id params start, decl.topRules = [⟨id, [], params, .name start x.name []⟩]
  rule : ∃ id start operations last, decl.rules =
      [⟨id, [], [], .choice start (operations ++ [last])⟩] ∧ id.name = x.name ∧
    List.Forall₂ (IsOperation x.name) x.operators operations ∧
    TokenKey.ofExpr? last = some x.operand
  nonempty : x.operators ≠ []
  keys_hasRule : ∀ key ∈ x.keys, key.hasRule x.name = false
  distinct : x.keys.Pairwise fun a b => a.same b = false
  mainSkip : decl.mainSkip = none
  scopedSkips : decl.scopedSkips = []
  externalTokens : decl.externalTokens = []
  externalSpecializers : decl.externalSpecializers = []

/-- The rules that names refer to where there are no other scopes. -/
def GrammarDecl.mainScope (decl : GrammarDecl) (skip : Term) : List ScopedRule :=
  decl.rules.map fun rule => ⟨skip, rule⟩

theorem GrammarDecl.Declares.name_of_mem_mainScope {decl : GrammarDecl} {x : OperatorTable}
    (hx : decl.Declares x) {skip : Term} : ∀ s ∈ decl.mainScope skip, s.rule.id.name = x.name := by
  obtain ⟨id, _, _, _, hrules, hid, -⟩ := hx.rule
  rw [mainScope, hrules]
  exact List.forall_mem_singleton.mpr hid

/-! ## §2 Marks -/

namespace OperatorTable

/-- What the marker of an operation says: in front of the operator it goes by the place of
the item, and at the end of the rule also by the side that the item leans to. -/
def gap (x : OperatorTable) (o : DeclaredOperator) : GapMarks :=
  let level := 4 * (x.items.length - x.place o)
  ⟨{ precedence := level }, { precedence := if x.leftward o then level + 1 else level - 1 }⟩

/-- The marks of the rule for an operator. -/
def marks (x : OperatorTable) (o : DeclaredOperator) : List Marks :=
  [.none, (x.gap o).here, .none, (x.gap o).atEnd]

end OperatorTable

/-- The first item with a name, and the number of items behind it. -/
theorem of_dropWhile_eq_cons {items later : List PrecedenceItem} {item : PrecedenceItem}
    {name : String} (h : (items.dropWhile fun i => i.id.name != name) = item :: later) :
    (items.find? fun i => i.id.name == name) = some item ∧
      (items.findIdx fun i => i.id.name == name) + (later.length + 1) = items.length := by
  induction items with
  | nil => cases h
  | cons i items ih =>
    by_cases hi : i.id.name = name
    · have heq : i :: items = item :: later := by simpa [List.dropWhile_cons, hi] using h
      obtain ⟨rfl, rfl⟩ := List.cons.inj heq
      simp [List.findIdx_cons, hi]
    · have hrest : (items.dropWhile fun i => i.id.name != name) = item :: later := by
        simpa [List.dropWhile_cons, hi] using h
      obtain ⟨hfind, hlength⟩ := ih hrest
      simp only [List.find?_cons, List.findIdx_cons, beq_eq_false_iff_ne.mpr hi, cond_false,
        List.length_cons]
      exact ⟨hfind, by omega⟩

namespace OperatorTable

variable {x : OperatorTable} {o : DeclaredOperator}

theorem ofMarkers_eq (hsides : ∀ i ∈ x.items, i.assoc = some .left ∨ i.assoc = some .right)
    {mark : Nat} {id : Ident} (hid : id.name = o.item) {found : GapMarks}
    (h : GapMarks.ofMarkers x.items [⟨mark, .precedence, id⟩] = .ok found) :
    found = x.gap o := by
  obtain ⟨_, hfound, h⟩ := exists_ok_of_bind h
  cases h
  obtain ⟨marker, hmarker, hfound⟩ := exists_ok_of_bind hfound
  cases hfound
  simp only [GapMarks.ofMarker] at hmarker
  rw [hid] at hmarker
  split at hmarker
  next => cases hmarker
  next item later hdrop =>
    cases hmarker
    obtain ⟨hfind, hlength⟩ := of_dropWhile_eq_cons hdrop
    have hplace : x.items.length - x.place o = later.length + 1 := by
      rw [place]
      omega
    rw [gap, leftward, hplace, hfind]
    rcases hsides item (List.mem_of_find?_eq_some hfind) with hside | hside
    · simp [hside, GapMarks.ofPrecedence, GapMarks.join, Marks.join, Marks.none, unionNames]
    · simp [hside, GapMarks.ofPrecedence, GapMarks.join, Marks.join, Marks.none, unionNames]

/-- Only the gap in front of the operator has a marker. -/
theorem ofMarkers_gaps (hsides : ∀ i ∈ x.items, i.assoc = some .left ∨ i.assoc = some .right)
    {mark : Nat} {id : Ident} (hid : id.name = o.item) {gaps : List GapMarks}
    (h : [[], [⟨mark, .precedence, id⟩], [], []].mapM (GapMarks.ofMarkers x.items) = .ok gaps) :
    gaps = [{}, x.gap o, {}, {}] := by
  obtain ⟨_, ⟨⟩, h⟩ := exists_ok_of_bind h
  obtain ⟨_, hgap, h⟩ := exists_ok_of_bind h
  obtain rfl := ofMarkers_eq hsides hid hgap
  obtain ⟨_, ⟨⟩, h⟩ := exists_ok_of_bind h
  obtain ⟨_, ⟨⟩, h⟩ := exists_ok_of_bind h
  cases h
  rfl

/-- The phrase of an operation has the marks of its gaps. -/
theorem sequencePhrases_operation (x : OperatorTable) (o : DeclaredOperator) (t u : Term) :
    sequencePhrases [[.single t], [.single u], [.single t]] [{}, x.gap o, {}, {}] .empty .none =
      [⟨[t, u, t], x.marks o⟩] := by
  simp [sequencePhrases, Phrase.empty, Phrase.single, Phrase.append, Phrase.markEnd,
    Phrase.lastMarks, marks, gap, Marks.join, Marks.none, unionNames]

end OperatorTable

/-! ## §3 References -/

namespace Draft

/-- The terminal that is remembered for a token. -/
def terminal (d : Draft) (key : TokenKey) : Term :=
  (d.tokenFor? key).getD .eof

/-- While the body of a rule is worked through, the rule itself is the only one that can be
referred to. -/
structure Encloses (name : String) (t : Term) (d : Draft) : Prop where
  ruleInstances_eq : d.ruleInstances = [⟨name, [], t⟩]
  scope : ∀ s ∈ d.scope, s.rule.id.name = name
  external : d.externalTokens = [] ∧ d.externalSpecializers = []

/-- No rule has been worked through, names can refer to the rules of `scope`, and no token
comes from somewhere else. -/
structure IsUnentered (scope : List ScopedRule) (d : Draft) : Prop where
  ruleInstances_eq : d.ruleInstances = []
  scope_eq : d.scope = scope
  external : d.externalTokens = [] ∧ d.externalSpecializers = []

variable {decl : GrammarDecl} {d d' : Draft} {scope : List ScopedRule} {name : String} {t : Term}

theorem IsUnentered.of_declared_eq (hd : d.IsUnentered scope) (h : d'.declared = d.declared) :
    d'.IsUnentered scope := by
  simp only [declared, Prod.mk.injEq] at h
  obtain ⟨_, hinstances, _, hscope, hexternal, hspecializers, _⟩ := h
  exact ⟨hinstances.trans hd.ruleInstances_eq, hscope.trans hd.scope_eq,
    hexternal.trans hd.external.1, hspecializers.trans hd.external.2⟩

/-- The first rule is entered. -/
theorem IsUnentered.encloses (hd : d.IsUnentered scope)
    (hscope : ∀ s ∈ scope, s.rule.id.name = name) (t : Term) :
    (d.withInstance ⟨name, [], t⟩).Encloses name t where
  ruleInstances_eq := by
    rw [withInstance, hd.ruleInstances_eq]
    rfl
  scope s hs := hscope s (hd.scope_eq ▸ hs)
  external := hd.external

/-- The instance that a name without arguments refers to is that of the rule. -/
theorem Encloses.find?_self (hd : d.Encloses name t) :
    d.ruleInstances.find? (fun i => i.name == name && Expr.allSame i.args []) =
      some ⟨name, [], t⟩ := by
  rw [hd.ruleInstances_eq]
  simp [Expr.allSame]

theorem Encloses.find?_other (hd : d.Encloses name t) {other : String} (hne : name ≠ other)
    (args : List Expr) :
    d.ruleInstances.find? (fun i => i.name == other && Expr.allSame i.args args) = none := by
  rw [hd.ruleInstances_eq]
  simp [hne]

theorem Supplies.encloses (h : Supplies decl d d') (hd : d.Encloses name t) :
    d'.Encloses name t := by
  have hdeclared := h.declared_eq
  simp only [declared, Prod.mk.injEq] at hdeclared
  obtain ⟨_, hinstances, _, hscope, hexternal, hspecializers, _⟩ := hdeclared
  exact ⟨hinstances.trans hd.ruleInstances_eq, hscope ▸ hd.scope,
    hexternal.trans hd.external.1, hspecializers.trans hd.external.2⟩

theorem Supplies.rules_eq (h : Supplies decl d d') : d'.rules = d.rules :=
  congrArg Prod.fst h.declared_eq

theorem Supplies.skipTerms_eq (h : Supplies decl d d') : d'.skipTerms = d.skipTerms :=
  congrArg (fun declared => declared.2.2.2.2.2.2) h.declared_eq

theorem Grows.isSome_tokenFor? {low : Nat} (h : Grows decl low d d') {key : TokenKey}
    (hkey : (d.tokenFor? key).isSome = true) : (d'.tokenFor? key).isSome = true := by
  obtain ⟨u, hu⟩ := Option.isSome_iff_exists.mp hkey
  rw [h.tokenFor? hu]
  rfl

theorem Grows.terminal_eq {low : Nat} (h : Grows decl low d d') {key : TokenKey}
    (hkey : (d.tokenFor? key).isSome = true) : d'.terminal key = d.terminal key := by
  obtain ⟨u, hu⟩ := Option.isSome_iff_exists.mp hkey
  rw [terminal, terminal, hu, h.tokenFor? hu]

end Draft

theorem Build.externalToken?_eq_none {d : Draft} (h : d.externalTokens = [])
    (h' : d.externalSpecializers = []) (name : String) : externalToken? d name = none := by
  rw [externalToken?, h, h']
  rfl

namespace Build

open Draft (Grows Supplies Quietly Enters)

variable {ctx : Declared} {d : Draft} {name : String} {t skip : Term} {fuel : Nat}

/-- In the body of a rule, the name of the rule stands for its symbol. -/
theorem yields_self (hd : d.Encloses name t) (start : Nat) :
    Yields ctx d (normalizeTo (fuel + 1) skip (.name start name [])) fun phrases d' =>
      phrases = [.single t] ∧ d' = d := by
  refine Yields.bind (Q := fun u d' => u = t ∧ d' = d) (yields_get_bind ?_)
    fun u d' ⟨hu, hd'⟩ => yields_pure ⟨hu ▸ rfl, hd'⟩
  rw [hd.find?_self]
  exact yields_pure ⟨rfl, rfl⟩

/-- A literal, or a name that is not the rule's, stands for its token. -/
theorem yields_token (hd : d.Encloses name t) {e : Expr} {key : TokenKey}
    (he : TokenKey.ofExpr? e = some key) (hkey : key.hasRule name = false) :
    Yields ctx d (normalizeTo (fuel + 1) skip e) fun phrases d' => Supplies ctx.decl d d' ∧
      (d'.tokenFor? key).isSome = true ∧ phrases = [.single (d'.terminal key)] := by
  have hdone {u : Term} {d' : Draft} (hd' : Supplies ctx.decl d d')
      (hu : d'.tokenFor? key = some u) : Supplies ctx.decl d d' ∧
      (d'.tokenFor? key).isSome = true ∧ [Phrase.single u] = [.single (d'.terminal key)] :=
    ⟨hd', hu ▸ rfl, by rw [Draft.terminal, hu, Option.getD_some]⟩
  cases e with
  | literal start value =>
    cases he
    exact (yields_literalToken value ctx d).bind fun u d' ⟨hd', hu⟩ => yields_pure (hdone hd' hu)
  | name start other args =>
    cases he
    have hother : name ≠ other := by simpa [TokenKey.hasRule] using hkey
    refine (yields_resolve start other args).bind fun u d' h => yields_pure ?_
    rcases h with ⟨i, hi, _⟩ | ⟨hd', hu⟩ | ⟨hd', hu, _⟩ | ⟨_, d₁, rest, rule, hd₁, hrule, _⟩
    · rw [hd.find?_other hother] at hi
      cases hi
    · exact hdone hd' hu
    · have henclosed := hd'.encloses hd
      rw [externalToken?_eq_none henclosed.external.1 henclosed.external.2] at hu
      cases hu
    · have hfound : rule.id.name = other := by simpa using List.find?_some hrule
      have hname := (hd₁.encloses hd).scope _ (List.mem_of_find?_eq_some hrule)
      exact absurd (hname.symm.trans hfound) hother
  | _ => cases he

end Build

/-! ## §4 Bodies -/

namespace OperatorTable

/-- The phrase for an operation. -/
def phrase (x : OperatorTable) (d : Draft) (expr : Term) (o : DeclaredOperator) : Phrase :=
  ⟨[expr, d.terminal o.key, expr], x.marks o⟩

/-- What an expression can stand for: an operation or an operand. -/
def phrases (x : OperatorTable) (d : Draft) (expr : Term) : List Phrase :=
  x.operators.map (x.phrase d expr) ++ [.single (d.terminal x.operand)]

end OperatorTable

namespace Build

open Draft (Grows Supplies Quietly Enters)

variable {x : OperatorTable} {ctx : Declared} {d : Draft} {t skip : Term} {fuel : Nat}

open OperatorTable in
/-- An operation stands for one phrase. -/
theorem yields_operation (hx : ctx.decl.Declares x) (hd : d.Encloses x.name t)
    {o : DeclaredOperator} (hkey : o.key.hasRule x.name = false) {e : Expr}
    (he : IsOperation x.name o e) :
    Yields ctx d (normalizeTo (fuel + 2) skip e) fun phrases d' => Supplies ctx.decl d d' ∧
      (d'.tokenFor? o.key).isSome = true ∧ phrases = [x.phrase d' t o] := by
  cases he with
  | intro start left right mark id token hid htoken =>
    change Yields ctx d (([.name left x.name [], token, .name right x.name []].mapM
      (normalizeTo (fuel + 1) skip)) >>= _) _
    simp only [List.mapM_cons, List.mapM_nil, bind_assoc, pure_bind]
    refine (yields_self hd left).bind ?_
    rintro _ _ ⟨rfl, rfl⟩
    refine (yields_token hd htoken hkey).bind ?_
    rintro _ d₁ ⟨hd₁, hfound, rfl⟩
    refine (yields_self (hd₁.encloses hd) right).bind ?_
    rintro _ _ ⟨rfl, rfl⟩
    refine yields_read_bind (yields_check_bind fun gaps hgaps => yields_pure ?_)
    rw [hx.precedences] at hgaps
    obtain rfl := ofMarkers_gaps hx.sides hid hgaps
    exact ⟨hd₁, hfound, sequencePhrases_operation x o _ _⟩

/-- Operations stand for one phrase each. -/
theorem yields_operations (hx : ctx.decl.Declares x) (hd : d.Encloses x.name t)
    {operators : List DeclaredOperator} {es : List Expr}
    (hkeys : ∀ o ∈ operators, o.key.hasRule x.name = false)
    (hes : List.Forall₂ (IsOperation x.name) operators es) :
    Yields ctx d (es.mapM (normalizeTo (fuel + 2) skip)) fun found d' =>
      Supplies ctx.decl d d' ∧ found = operators.map (fun o => [x.phrase d' t o]) ∧
        ∀ o ∈ operators, (d'.tokenFor? o.key).isSome = true := by
  induction hes generalizing d with
  | nil => exact yields_pure ⟨refl_of (Supplies ctx.decl) d, rfl, by simp⟩
  | @cons o e operators es he _ ih =>
    obtain ⟨hkey, hkeys⟩ := List.forall_mem_cons.mp hkeys
    rw [List.mapM_cons]
    refine (yields_operation hx hd hkey he).bind ?_
    rintro _ d₁ ⟨hd₁, hfound, rfl⟩
    refine (ih (hd₁.encloses hd) hkeys).bind ?_
    rintro _ d₂ ⟨hd₂, rfl, hall⟩
    refine yields_pure ⟨trans_of (Supplies ctx.decl) hd₁ hd₂, ?_,
      List.forall_mem_cons.mpr ⟨hd₂.isSome_tokenFor? hfound, hall⟩⟩
    rw [List.map_cons, OperatorTable.phrase, OperatorTable.phrase, hd₂.terminal_eq hfound]

/-- The body of the rule for expressions stands for the phrases of the table. -/
theorem yields_body (hx : ctx.decl.Declares x) (hd : d.Encloses x.name t) {start : Nat}
    {operations : List Expr} {last : Expr}
    (hoperations : List.Forall₂ (IsOperation x.name) x.operators operations)
    (hlast : TokenKey.ofExpr? last = some x.operand) :
    Yields ctx d (normalizeTo (fuel + 3) skip (.choice start (operations ++ [last])))
      fun phrases d' => Supplies ctx.decl d d' ∧ phrases = x.phrases d' t ∧
        ∀ key ∈ x.keys, (d'.tokenFor? key).isSome = true := by
  obtain ⟨hkey, hkeys⟩ := List.forall_mem_cons.mp hx.keys_hasRule
  rw [List.forall_mem_map] at hkeys
  change Yields ctx d (((operations ++ [last]).mapM (normalizeTo (fuel + 2) skip)) >>= _) _
  rw [List.mapM_append]
  simp only [List.mapM_cons, List.mapM_nil, bind_assoc, pure_bind]
  refine (yields_operations hx hd hkeys hoperations).bind ?_
  rintro _ d₁ ⟨hd₁, rfl, hall⟩
  refine (yields_token (hd₁.encloses hd) hlast hkey).bind ?_
  rintro _ d₂ ⟨hd₂, hfound, rfl⟩
  have hsame (o : DeclaredOperator) (ho : o ∈ x.operators) :
      x.phrase d₁ t o = x.phrase d₂ t o := by
    rw [OperatorTable.phrase, OperatorTable.phrase, hd₂.terminal_eq (hall o ho)]
  refine yields_pure ⟨trans_of (Supplies ctx.decl) hd₁ hd₂, ?_,
    List.forall_mem_cons.mpr ⟨hfound, ?_⟩⟩
  · rw [List.map_congr_left fun o ho => congrArg ([·]) (hsame o ho), List.flatten_append,
      ← List.flatMap_def, ← List.map_eq_flatMap]
    rfl
  · rw [List.forall_mem_map]
    exact fun o ho => hd₂.isSome_tokenFor? (hall o ho)

end Build

/-! ## §5 Rules -/

namespace OperatorTable

/-- The rules of a grammar of operators: those for expressions, and the one at the top. -/
def rules (x : OperatorTable) (d : Draft) (expr top skip : Term) : List Rule :=
  Draft.rulesFrom 0 expr skip (x.phrases d expr) ++
    Draft.rulesFrom (x.operators.length + 1) top skip [.single expr]

theorem phrases_eq {x : OperatorTable} {d d' : Draft} {expr : Term}
    (h : ∀ key ∈ x.keys, d'.terminal key = d.terminal key) :
    x.phrases d' expr = x.phrases d expr := by
  obtain ⟨hoperand, hkeys⟩ := List.forall_mem_cons.mp h
  rw [List.forall_mem_map] at hkeys
  have hphrase (o : DeclaredOperator) (ho : o ∈ x.operators) :
      x.phrase d' expr o = x.phrase d expr o := by
    rw [phrase, phrase, hkeys o ho]
  rw [phrases, phrases, hoperand, List.map_congr_left hphrase]

/-- What holds of a draft in which the rule for expressions has been worked through. -/
structure IsEntered (x : OperatorTable) (decl : GrammarDecl) (skip : Term) (d : Draft)
    (expr : Term) (d' : Draft) : Prop extends Draft.Grows decl 0 d d' where
  rules_eq : d'.rules = d.rules ++ Draft.rulesFrom d.rules.length expr skip (x.phrases d' expr)
  skipTerms_eq : d'.skipTerms = d.skipTerms
  size_le_index : d.terms.size ≤ expr.index
  kind : expr.index < d'.terms.size ∧ (d'.terms.info expr).kind = .nonterminal
  found : ∀ key ∈ x.keys, (d'.tokenFor? key).isSome = true

theorem IsEntered.after {x : OperatorTable} {decl : GrammarDecl} {d d₁ d' : Draft}
    {expr skip : Term} (h : x.IsEntered decl skip d₁ expr d') (hd : d.Supplies decl d₁) :
    x.IsEntered decl skip d expr d' where
  __ := hd.toGrows.trans h.toGrows
  rules_eq := by rw [h.rules_eq, hd.rules_eq]
  skipTerms_eq := h.skipTerms_eq.trans hd.skipTerms_eq
  size_le_index := Nat.le_trans hd.size_le h.size_le_index
  kind := h.kind
  found := h.found

end OperatorTable

namespace Build

open Draft (Grows Supplies Quietly Enters)

variable {x : OperatorTable} {ctx : Declared} {d : Draft} {scope : List ScopedRule} {skip : Term}
  {fuel : Nat}

/-- The rule for expressions gets the rules of the table. -/
theorem yields_buildRule_operations (hx : ctx.decl.Declares x) {id : Ident} {start : Nat}
    {operations : List Expr} {last : Expr} (hid : id.name = x.name)
    (hoperations : List.Forall₂ (IsOperation x.name) x.operators operations)
    (hlast : TokenKey.ofExpr? last = some x.operand) (hd : d.IsUnentered scope)
    (hscope : ∀ s ∈ scope, s.rule.id.name = x.name) :
    Yields ctx d (buildRule (normalizeTo (fuel + 3))
      ⟨id, [], [], .choice start (operations ++ [last])⟩ [] skip false) fun t d' =>
        x.IsEntered ctx.decl skip d t d' := by
  intro t d' h
  have hgrows := grows_buildRule (grows_normalizeTo _) _ _ _ _ _ _ _ h
  obtain ⟨body, d₁, phrases, d₂, d₃, hbody, henter, hkind, hrun, hd₃, hd'⟩ :=
    yields_buildRule _ _ _ _ _ _ h
  cases hbody
  have hdeclared := henter.declared_eq
  have hencloses : Draft.Encloses x.name t (d₁.withInstance ⟨id.name, [], t⟩) := by
    rw [hid]
    exact (hd.of_declared_eq hdeclared).encloses hscope t
  simp only [Draft.declared, Prod.mk.injEq] at hdeclared
  obtain ⟨hrules, _, _, _, _, _, hskips⟩ := hdeclared
  obtain ⟨hsupplies, rfl, hfound⟩ := yields_body hx hencloses hoperations hlast _ _ hrun
  have htokens (key : TokenKey) : d'.tokenFor? key = d₂.tokenFor? key :=
    (hd'.tokenFor?_eq key).trans (hd₃.tokenFor?_eq key)
  have hlt₂ : t.index < d₂.terms.size := Nat.lt_of_lt_of_le henter.index_lt hsupplies.size_le
  have hlt₃ : t.index < d₃.terms.size := Nat.lt_of_lt_of_le hlt₂ hd₃.size_le
  have hkind' : (d'.terms.info t).kind = .nonterminal := by
    rw [hd'.kind_eq t hlt₃]
    exact (hd₃.kind_eq t hlt₂).trans ((hsupplies.kind_eq t henter.index_lt).trans hkind)
  refine ⟨hgrows, ?_, ?_, henter.size_le_index, ⟨?_, hkind'⟩, fun key hkey => ?_⟩
  · have hbefore : d₃.rules = d.rules :=
      hd₃.rules_eq.trans (hsupplies.rules_eq.trans hrules)
    have hphrases : x.phrases d₂ t = x.phrases d' t :=
      OperatorTable.phrases_eq fun key _ => by rw [Draft.terminal, Draft.terminal, htokens]
    rw [hd'.rules_eq]
    change d₃.rules ++ Draft.rulesFrom d₃.rules.length t skip (x.phrases d₂ t) = _
    rw [hbefore, hphrases]
  · exact hd'.skipTerms_eq.trans (hd₃.skipTerms_eq.trans (hsupplies.skipTerms_eq.trans hskips))
  · exact Nat.lt_of_lt_of_le hlt₃ hd'.size_le
  · rw [htokens]
    exact hfound key hkey

/-- Expressions are worked through deep enough for operations. -/
theorem exists_normalizeTo (ctx : Declared) :
    ∃ fuel, ∀ skip e, normalize skip e ctx = normalizeTo (fuel + 4) skip e ctx := by
  obtain ⟨fuel, hfuel⟩ : ∃ fuel,
      (ctx.source.text.length + 64) * (ctx.source.text.length + 64) = fuel + 4 :=
    Nat.exists_eq_add_of_le' (by nlinarith)
  refine ⟨fuel, fun skip e => ?_⟩
  rw [← hfuel]
  rfl

/-- When nothing has been worked through, the name of the rule for expressions makes that rule
be worked through. -/
theorem yields_operations_named (hx : ctx.decl.Declares x) (htidy : d.Tidy ctx.decl)
    (hd : d.IsUnentered (ctx.decl.mainScope skip))
    (hnew : ∀ r ∈ ctx.decl.tokenRules, r.id.name ≠ x.name) (start : Nat) :
    Yields ctx d (normalize skip (.name start x.name [])) fun phrases d' =>
      ∃ t, phrases = [.single t] ∧ x.IsEntered ctx.decl skip d t d' := by
  obtain ⟨fuel, hfuel⟩ := exists_normalizeTo ctx
  rw [Yields, hfuel]
  refine (yields_resolve start x.name []).bind fun t d' h => yields_pure ⟨t, rfl, ?_⟩
  rcases h with ⟨i, hi, _⟩ | ⟨hd', ht⟩ | ⟨hd', ht, _⟩ | ⟨_, d₁, rest, rule, hd₁, hrule, _, hbuild⟩
  · rw [hd.ruleInstances_eq] at hi
    cases hi
  · obtain ⟨i, hi, rfl⟩ := Option.map_eq_some_iff.mp ht
    have hkey : i.key.same (.rule x.name []) = true := by simpa using List.find?_some hi
    cases hi' : i.key with
    | rule name args =>
      obtain ⟨r, hr, hname⟩ := (hd'.tidy htidy).keys i (List.mem_of_find?_eq_some hi) name args hi'
      rw [hi'] at hkey
      have hsame : name = x.name ∧ Expr.allSame args [] = true := by
        simpa [TokenKey.same] using hkey
      exact absurd (hname.trans hsame.1) (hnew r hr)
    | literal value =>
      rw [hi'] at hkey
      cases hkey
  · have hunentered := hd.of_declared_eq hd'.declared_eq
    rw [externalToken?_eq_none hunentered.external.1 hunentered.external.2] at ht
    cases ht
  · have hunentered := hd.of_declared_eq hd₁.declared_eq
    obtain ⟨id, place, operations, last, hrules, hid, hoperations, hlast⟩ := hx.rule
    rw [hunentered.scope_eq, GrammarDecl.mainScope, hrules] at hrule
    have hmem := List.mem_of_find?_eq_some hrule
    obtain ⟨rfl, rfl⟩ : rest = skip ∧ rule = _ := by simpa using hmem
    have hentered := yields_buildRule_operations hx hid hoperations hlast hunentered
      hx.name_of_mem_mainScope _ _ hbuild
    exact hentered.after hd₁

end Build

namespace OperatorTable

/-- What holds of a grammar of operators that has been worked through. -/
structure IsBuilt (x : OperatorTable) (b : Blueprint) (expr top skip : Term) : Prop where
  rules_eq : b.draft.rules = x.rules b.draft expr top skip
  skipTerms_eq : b.draft.skipTerms = [skip]
  tops_eq : b.draft.terms.tops = [top]
  skip_lt : skip.index < top.index
  top_lt : top.index < expr.index
  kind : (b.draft.terms.info expr).kind = .nonterminal
  found : ∀ key ∈ x.keys, (b.draft.tokenFor? key).isSome = true

end OperatorTable

namespace Stages

variable {x : OperatorTable} {ctx : Declared} {b : Blueprint} (s : Stages ctx b)
  (hx : ctx.decl.Declares x)
include hx

theorem mainSkip_eq : s.mainSkip = s.noSkip := by
  by_contra hne
  have hsome := s.isOpened.mainSkip_ne.mpr hne
  rw [hx.mainSkip] at hsome
  cases hsome

theorem isUnentered : s.opened.IsUnentered (ctx.decl.mainScope s.noSkip) where
  ruleInstances_eq := s.isOpened.ruleInstances_eq
  scope_eq := by
    rw [s.isOpened.scope_eq, GrammarDecl.scopedRules, hx.scopedSkips, s.mainSkip_eq hx]
    exact List.append_nil _
  external := s.isOpened.external_eq hx.externalTokens hx.externalSpecializers

/-- Nothing is worked through before the top rule. -/
theorem afterScopes_eq : s.afterScopes = s.opened := by
  have hmain : s.afterMain = s.opened := by
    rcases s.main with ⟨e, _, _, he, _⟩ | ⟨_, heq⟩
    · rw [hx.mainSkip] at he
      cases he
    · exact heq
  have h := s.scopes
  rw [hx.scopedSkips, hmain] at h
  exact (EStateM.Result.ok.inj h).2.symm

/-- Nothing is worked through behind the top rule. -/
theorem afterExports_eq : s.afterExports = s.afterTops := by
  obtain ⟨_, _, _, _, hrules, -⟩ := hx.rule
  have hspecial : s.afterSpecial = s.afterTops := by
    have h := s.special
    rw [hx.externalSpecializers] at h
    exact (EStateM.Result.ok.inj h).2.symm
  have h := s.exports
  rw [GrammarDecl.scopedRules, hrules, hx.scopedSkips, hspecial] at h
  obtain ⟨_, d₃, hbuild, hend⟩ := Build.exists_ok_of_bind h
  obtain rfl : d₃ = s.afterExports := (EStateM.Result.ok.inj hend).2
  rcases Build.yields_buildExported _ _ _ _ hbuild with hsame | ⟨hexported, _⟩
  · exact hsame
  · cases hexported

open Build Draft in
/-- A grammar of operators has the rules of its table. -/
theorem isBuilt : ∃ expr top, x.IsBuilt b expr top s.noSkip := by
  obtain ⟨id, params, start, htops⟩ := hx.top
  obtain ⟨ruleId, place, operations, last, hrules, hid, -⟩ := hx.rule
  have hskip := s.mainSkip_eq hx
  have hunentered := s.isUnentered hx
  -- The top rule is the only one, and it refers to the rule for expressions.
  have htop := s.top
  rw [GrammarDecl.scopedTops, htops, hx.scopedSkips, hskip, s.afterScopes_eq hx, List.zip_nil_left,
    List.flatMap_nil, List.append_nil, List.map_cons, List.map_nil,
    List.mergeSort_singleton] at htop
  obtain ⟨_, d₀, htop, hend⟩ := Build.exists_ok_of_bind htop
  obtain rfl : d₀ = s.afterTops := (EStateM.Result.ok.inj hend).2
  have hlow : 0 < s.opened.terms.size := Nat.zero_lt_of_lt (s.lt_size (.head _))
  obtain ⟨top, d₁, phrases, d₂, henter, htops, hrun, heq⟩ := yields_buildTop hlow _ _ _ _ htop
  have hdeclared := henter.declared_eq
  have hnew : ∀ r ∈ ctx.decl.tokenRules, r.id.name ≠ x.name := by
    have hmem : ⟨s.noSkip, ⟨ruleId, [], [], .choice place (operations ++ [last])⟩⟩ ∈
        s.opened.scope := by
      rw [hunentered.scope_eq, GrammarDecl.mainScope, hrules]
      exact .head _
    exact hid ▸ (s.isOpened.scope_new _ hmem).2
  obtain ⟨expr, rfl, hentered⟩ := yields_operations_named hx (henter.tidy s.isOpened.tidy)
    (hunentered.of_declared_eq hdeclared) hnew start _ _ hrun
  simp only [Draft.declared, Prod.mk.injEq] at hdeclared
  obtain ⟨hrules₁, _, _, _, _, _, hskips⟩ := hdeclared
  have hfinal : Quietly ctx.decl (d₂.withRules top s.noSkip [.single expr]) b.draft := by
    rw [← heq, ← s.afterExports_eq hx]
    exact s.final
  have htokens (key : TokenKey) : b.draft.tokenFor? key = d₂.tokenFor? key :=
    hfinal.tokenFor?_eq key
  have hexpr := hentered.kind.1
  refine ⟨expr, top, ?_, ?_, ?_, ?_, ?_, ?_, fun key hkey => ?_⟩
  · have hbefore : d₂.rules = rulesFrom 0 expr s.noSkip (x.phrases d₂ expr) := by
      rw [hentered.rules_eq, hrules₁, s.isOpened.rules_eq]
      rfl
    have hphrases : x.phrases b.draft expr = x.phrases d₂ expr :=
      OperatorTable.phrases_eq fun key _ => by rw [terminal, terminal, htokens]
    rw [hfinal.rules_eq, OperatorTable.rules, hphrases, ← hbefore, withRules]
    simp [hbefore, rulesFrom, OperatorTable.phrases]
  · rw [hfinal.skipTerms_eq]
    change d₂.skipTerms = _
    rw [hentered.skipTerms_eq, hskips, s.isOpened.skipTerms_eq, hskip, if_pos rfl]
  · rw [hfinal.tops_eq rfl]
    change d₂.terms.tops = _
    rw [hentered.tops_eq rfl, htops, s.isOpened.tops_eq, List.nil_append]
  · exact Nat.lt_of_lt_of_le (s.lt_size (.head _)) henter.size_le_index
  · exact Nat.lt_of_lt_of_le henter.index_lt hentered.size_le_index
  · exact (hfinal.kind_eq expr hexpr).trans hentered.kind.2
  · rw [htokens]
    exact hentered.found key hkey

end Stages

end GrammarCompiler
