/-
GrammarCompiler.Proofs.Succeeding — grammars of operators are worked through.

Working through declarations can fail in many places. For a grammar of operators whose
tokens are literals, or token rules that are literals (`GrammarDecl.HasPlainTokens`),
it fails in none: every name that is referred to is declared, once, and the items of the
precedence list are there.

  §1 Success  — actions that succeed, and define no groups on the way.
  §2 Symbols  — actions that succeed on all drafts.
  §3 Tokens   — literals, and token rules that are literals.
  §4 Rules    — the rule for expressions and the one at the top.
  §5 Grammars — all declarations in order.
-/
import GrammarCompiler.Proofs.Operations

namespace GrammarCompiler

namespace Build

variable {α β : Type} {ctx : Declared} {d : Draft}

/-! ## §1 Success -/

/-- An action succeeds and leaves no group to be defined. -/
def Succeeds (ctx : Declared) (d : Draft) (m : Build α) : Prop :=
  ∃ a d', m ctx d = .ok a d' ∧ d'.groups = []

/-- An action succeeds on all drafts with no group to be defined. -/
def AlwaysSucceeds (ctx : Declared) (m : Build α) : Prop :=
  ∀ d, d.groups = [] → Succeeds ctx d m

theorem bind_of_ok {m : Build α} {a : α} {d₁ : Draft} (h : m ctx d = .ok a d₁)
    (f : α → Build β) : (m >>= f) ctx d = f a ctx d₁ := by
  change EStateM.bind (m ctx) (fun a => f a ctx) d = _
  rw [EStateM.bind, h]

/-- A step that succeeds, before others that do from what it makes of the draft. -/
theorem Succeeds.bind {m : Build α} {f : α → Build β} {Q : α → Draft → Prop}
    (hm : Succeeds ctx d m) (hQ : Yields ctx d m Q)
    (hf : ∀ a d₁, d₁.groups = [] → Q a d₁ → Succeeds ctx d₁ (f a)) : Succeeds ctx d (m >>= f) := by
  obtain ⟨a, d₁, h, hgroups⟩ := hm
  obtain ⟨b, d', h', hgroups'⟩ := hf a d₁ hgroups (hQ a d₁ h)
  exact ⟨b, d', (bind_of_ok h f).trans h', hgroups'⟩

theorem succeeds_pure (hd : d.groups = []) (a : α) : Succeeds ctx d (pure a) :=
  ⟨a, d, rfl, hd⟩

/-- A step with a known outcome, before others. -/
theorem succeeds_ok_bind {m : Build α} {f : α → Build β} {a : α} {d₁ : Draft}
    (h : m ctx d = .ok a d₁) (hf : Succeeds ctx d₁ (f a)) : Succeeds ctx d (m >>= f) := by
  rw [Succeeds, bind_of_ok h]
  exact hf

theorem succeeds_get_bind {f : Draft → Build β} (h : Succeeds ctx d (f d)) :
    Succeeds ctx d (MonadState.get >>= f) :=
  h

theorem succeeds_read_bind {f : Declared → Build β} (h : Succeeds ctx d (f ctx)) :
    Succeeds ctx d (MonadReader.read >>= f) :=
  h

theorem succeeds_modify_bind {g : Draft → Draft} {f : PUnit → Build β}
    (h : Succeeds ctx (g d) (f ⟨⟩)) : Succeeds ctx d (modify g >>= f) :=
  h

theorem succeeds_check_bind {result : Except FaultAt α} {f : α → Build β} {a : α}
    (hresult : result = .ok a) (h : Succeeds ctx d (f a)) :
    Succeeds ctx d (check result >>= f) := by
  subst hresult
  exact h

/-- A step that succeeds, before others that always do. -/
theorem Succeeds.before {m : Build α} {f : α → Build β} (hm : Succeeds ctx d m)
    (hf : ∀ a, AlwaysSucceeds ctx (f a)) : Succeeds ctx d (m >>= f) :=
  hm.bind (Q := fun _ _ => True) (fun _ _ _ => trivial) fun a d₁ hd₁ _ => hf a d₁ hd₁

namespace AlwaysSucceeds

theorem pure (a : α) : AlwaysSucceeds ctx (Pure.pure a : Build α) :=
  fun _ hd => succeeds_pure hd a

theorem bind {m : Build α} {f : α → Build β} (hm : AlwaysSucceeds ctx m)
    (hf : ∀ a, AlwaysSucceeds ctx (f a)) : AlwaysSucceeds ctx (m >>= f) :=
  fun d hd => (hm d hd).before hf

theorem get_bind {f : Draft → Build β} (hf : ∀ d, AlwaysSucceeds ctx (f d)) :
    AlwaysSucceeds ctx (MonadState.get >>= f) :=
  fun d hd => hf d d hd

theorem read_bind {f : Declared → Build β} (hf : AlwaysSucceeds ctx (f ctx)) :
    AlwaysSucceeds ctx (MonadReader.read >>= f) :=
  hf

theorem check_bind {result : Except FaultAt α} {f : α → Build β} {a : α}
    (hresult : result = .ok a) (hf : AlwaysSucceeds ctx (f a)) :
    AlwaysSucceeds ctx (check result >>= f) := by
  subst hresult
  exact hf

theorem of_modify {f : Draft → Draft} (hf : ∀ d, (f d).groups = d.groups) :
    AlwaysSucceeds ctx (modify f : Build PUnit) :=
  fun d hd => ⟨⟨⟩, f d, rfl, (hf d).trans hd⟩

theorem ite {c : Prop} {_ : Decidable c} {m m' : Build α} (h : AlwaysSucceeds ctx m)
    (h' : AlwaysSucceeds ctx m') : AlwaysSucceeds ctx (if c then m else m') := by
  split
  · exact h
  · exact h'

/-- A step that is only taken under a condition. -/
theorem when {c : Prop} {_ : Decidable c} {m : Build PUnit} {f : PUnit → Build α}
    (hm : AlwaysSucceeds ctx m) (hf : ∀ u, AlwaysSucceeds ctx (f u)) :
    AlwaysSucceeds ctx (if c then m >>= f else f ⟨⟩) :=
  .ite (hm.bind hf) (hf ⟨⟩)

theorem forM {l : List α} {f : α → Build PUnit} (hf : ∀ a, AlwaysSucceeds ctx (f a)) :
    AlwaysSucceeds ctx (l.forM f) := by
  induction l with
  | nil => exact .pure _
  | cons a l ih => exact (hf a).bind fun _ => ih

theorem mapM {l : List α} {f : α → Build β} (hf : ∀ a, AlwaysSucceeds ctx (f a)) :
    AlwaysSucceeds ctx (l.mapM f) := by
  induction l with
  | nil => exact .pure _
  | cons a l ih =>
    rw [List.mapM_cons]
    exact (hf a).bind fun b => ih.bind fun bs => .pure (b :: bs)

theorem foldlM {l : List α} {f : β → α → Build β} (hf : ∀ b a, AlwaysSucceeds ctx (f b a))
    (b : β) : AlwaysSucceeds ctx (l.foldlM f b) := by
  induction l generalizing b with
  | nil => exact .pure _
  | cons a l ih =>
    rw [List.foldlM_cons]
    exact (hf b a).bind fun b => ih b

end AlwaysSucceeds

/-! ## §2 Symbols -/

theorem succeeds_newTerm (info : TermInfo) : AlwaysSucceeds ctx (newTerm info) :=
  fun _ hd => ⟨_, _, rfl, hd⟩

theorem succeeds_newSkip (name : String) : AlwaysSucceeds ctx (newSkip name) :=
  succeeds_newTerm _

theorem succeeds_modifyTerm (t : Term) (f : TermInfo → TermInfo) :
    AlwaysSucceeds ctx (modifyTerm t f) :=
  .of_modify fun _ => rfl

theorem succeeds_nameTerm (name : String) (t : Term) : AlwaysSucceeds ctx (nameTerm name t) :=
  .of_modify fun _ => rfl

theorem succeeds_markUsed (name : String) : AlwaysSucceeds ctx (markUsed name) :=
  .of_modify fun _ => rfl

theorem succeeds_warn (warning : Warning) (start : Option Nat) :
    AlwaysSucceeds ctx (warn warning start) :=
  .read_bind (.of_modify fun _ => rfl)

theorem succeeds_addRules (name skip : Term) (phrases : List Phrase) :
    AlwaysSucceeds ctx (addRules name skip phrases) :=
  .of_modify fun _ => rfl

theorem succeeds_newTerminal (name : String) (info : NodeInfo) :
    AlwaysSucceeds ctx (newTerminal name info) := by
  refine (succeeds_newTerm _).bind fun t => .bind ?_ fun _ => .pure t
  cases info.dialect with
  | none => exact .pure ()
  | some id => exact .of_modify fun _ => rfl

theorem succeeds_exportNode (info : NodeInfo) (t : Term) :
    AlwaysSucceeds ctx (exportNode info t) := by
  rw [exportNode]
  split
  · exact .pure ()
  · exact .when (succeeds_modifyTerm t _) fun _ => succeeds_nameTerm _ t

theorem succeeds_registerRule (rule : RuleDecl) (inPlace : Bool) (info : NodeInfo) (t : Term) :
    AlwaysSucceeds ctx (registerRule rule inPlace info t) := by
  have hname : AlwaysSucceeds ctx (do
      let isNode := ((← get).terms.info t).isNode
      if (isNode || info.exported.isSome) && rule.params.isEmpty then
        if info.name.isNone then modifyTerm t fun i => { i with preserved := true }
        if !inPlace then nameTerm (info.exported.getD rule.id.name) t) :=
    .get_bind fun d => .ite
      (.when (succeeds_modifyTerm t _) fun _ => .ite (succeeds_nameTerm _ t) (.pure _)) (.pure _)
  rw [registerRule]
  refine .when (succeeds_modifyTerm t _) fun _ =>
    .ite (.bind ?_ fun _ => (succeeds_modifyTerm t _).bind fun _ => hname) hname
  exact .of_modify fun _ => rfl

/-- A name or a choice has no delimiters. -/
theorem delimiters?_eq {e : Expr}
    (h : ∀ start elements markers, e ≠ .sequence start elements markers) :
    delimiters? e = pure none := by
  unfold delimiters?
  split
  · exact absurd rfl (h _ _ _)
  · rfl

/-- A rule without properties whose body is no sequence has its name, and nothing else. -/
theorem ruleInfo_eq (place : NodePlace) {rule : RuleDecl} (hprops : rule.props = [])
    (hbody : ∀ start elements markers, rule.body ≠ .sequence start elements markers)
    (args : List Expr) : ruleInfo place rule args ctx d =
      .ok { name := NodeInfo.defaultName place (some rule.id.name) } d := by
  have hmark (info : NodeInfo) : markDelimiters info rule.body ctx d = .ok ⟨⟩ d := by
    rw [markDelimiters, delimiters?_eq hbody]
    change (ite _ _ _ : Build PUnit) ctx d = _
    split <;> rfl
  rw [ruleInfo, hprops]
  exact bind_of_ok (hmark _) _

end Build

/-! ## §3 Tokens -/

namespace TokenBuild

variable {α β : Type}

/-- An action on the automaton succeeds. -/
def AlwaysRuns (m : Action α) : Prop :=
  ∀ p, ∃ a p', m p = .ok (a, p')

theorem AlwaysRuns.bind {m : Action α} {f : α → Action β} (hm : AlwaysRuns m)
    (hf : ∀ a, AlwaysRuns (f a)) : AlwaysRuns (m >>= f) := by
  intro p
  obtain ⟨a, p₁, h⟩ := hm p
  obtain ⟨b, p', h'⟩ := hf a p₁
  refine ⟨b, p', ?_⟩
  change Except.bind (m p) (fun found => f found.1 found.2) = _
  rw [h]
  exact h'

theorem runs_modify (f : Progress → Progress) : AlwaysRuns (modify f) :=
  fun p => ⟨⟨⟩, f p, rfl⟩

theorem runs_change (f : Nfa → Nfa) : AlwaysRuns (change f) :=
  runs_modify _

theorem runs_newState : AlwaysRuns newState :=
  fun _ => ⟨_, _, rfl⟩

theorem runs_chain {build : α → Nat → Nat → Action Unit}
    (hbuild : ∀ a source target, AlwaysRuns (build a source target)) (l : List α)
    (source target : Nat) : AlwaysRuns (chain build l source target) := by
  induction l generalizing source with
  | nil => exact fun p => ⟨(), p, rfl⟩
  | cons a l ih =>
    cases l with
    | nil => exact hbuild a source target
    | cons b l =>
      exact runs_newState.bind fun next => (hbuild a source next).bind fun _ => ih next

theorem runs_addLiteral (value : String) (source target : Nat) :
    AlwaysRuns (addLiteral value source target) := by
  rw [addLiteral]
  split
  · exact runs_change _
  · exact runs_chain (fun _ _ _ => runs_change _) _ _ _

/-- A rule without parameters that is a literal is built where no other is being built. -/
theorem runs_addRule (rules : List RuleDecl) (fuel : Nat) {rule : RuleDecl}
    (hparams : rule.params = []) {place : Nat} {value : String}
    (hbody : rule.body = .literal place value) (start source target : Nat) :
    AlwaysRuns (addRule (addExpr rules (fuel + 1)) [] [] rule start [] source target) := by
  rw [addRule, hparams, hbody]
  refine (runs_modify _).bind fun _ => runs_newState.bind fun entry => ?_
  exact (runs_change _).bind fun _ => runs_addLiteral value entry target

end TokenBuild

namespace Build

variable {ctx : Declared} {d : Draft}

theorem succeeds_onTokens {action : TokenBuild.Action Unit}
    (haction : TokenBuild.AlwaysRuns action) : AlwaysSucceeds ctx (onTokens action) := by
  intro d hd
  obtain ⟨_, progress, hrun⟩ := haction ⟨d.tokens, []⟩
  refine succeeds_get_bind (succeeds_check_bind hrun ?_)
  exact succeeds_modify_bind (AlwaysSucceeds.forM (fun name => succeeds_markUsed name) _ hd)

theorem succeeds_tokenEnd (t : Term) : AlwaysSucceeds ctx (tokenEnd t) :=
  fun _ hd => ⟨_, _, rfl, hd⟩

theorem succeeds_rememberToken (key : TokenKey) (t : Term) :
    AlwaysSucceeds ctx (rememberToken key t) :=
  .of_modify fun _ => rfl

/-- A literal becomes a token if those that are listed have no properties. -/
theorem succeeds_literalToken
    (hliterals : ∀ l ∈ (ctx.decl.tokens.map TokensDecl.literals).getD [], l.props = [])
    (value : String) : AlwaysSucceeds ctx (literalToken value) := by
  refine .get_bind fun d => ?_
  dsimp only
  split
  · exact .pure _
  refine .read_bind ?_
  have hnew (info : NodeInfo) (hexported : info.exported = none) :
      AlwaysSucceeds ctx (newLiteral value info) := by
    rw [newLiteral]
    refine (succeeds_newTerminal _ info).bind fun t => ?_
    rw [hexported]
    exact (succeeds_tokenEnd t).bind fun _ =>
      (succeeds_onTokens (TokenBuild.runs_addLiteral value _ _)).bind fun _ =>
        (succeeds_rememberToken _ t).bind fun _ => .pure t
  split
  next l hl =>
    rw [hliterals l (List.mem_of_find?_eq_some hl)]
    exact .check_bind rfl (hnew _ rfl)
  next => exact hnew {} rfl

/-- Token rules without properties and parameters that are literals become tokens. -/
theorem succeeds_token? (hrules : ∀ r ∈ ctx.decl.tokenRules, r.props = [] ∧ r.params = [] ∧
      ∃ place value, r.body = .literal place value) (start : Nat) (name : String) :
    AlwaysSucceeds ctx (token? start name []) := by
  refine .get_bind fun d => ?_
  dsimp only
  split
  · exact .pure _
  refine .read_bind ?_
  split
  next rule hrule =>
    obtain ⟨hprops, hparams, place, value, hbody⟩ := hrules rule (List.mem_of_find?_eq_some hrule)
    rw [hprops]
    refine .check_bind rfl ((succeeds_newTerminal _ _).bind fun t =>
      .when (succeeds_exportNode _ t) fun _ => (succeeds_tokenEnd t).bind fun target =>
        .read_bind ?_)
    obtain ⟨fuel, hfuel⟩ : ∃ fuel,
        TokenBuild.fuelFor ctx.decl.tokenRules (.name start name []) = fuel + 1 :=
      Nat.exists_eq_add_one.mpr (by unfold TokenBuild.fuelFor; positivity)
    rw [hfuel]
    exact (succeeds_onTokens (TokenBuild.runs_addRule _ fuel hparams hbody start _ target)).bind
      fun _ => (succeeds_rememberToken _ t).bind fun _ => .pure (some t)
  next => exact .pure _

end Build

/-! ## §4 Rules -/

/-- The tokens of a table are literals, or token rules that are literals. They have no
properties, and no name is declared twice. -/
structure GrammarDecl.HasPlainTokens (decl : GrammarDecl) (x : OperatorTable) : Prop where
  literals : ∀ l ∈ (decl.tokens.map TokensDecl.literals).getD [], l.props = []
  tokenRules : ∀ r ∈ decl.tokenRules, r.props = [] ∧ r.params = [] ∧
    ∃ place value, r.body = .literal place value
  keys : ∀ key ∈ x.keys, (∃ value, key = .literal value) ∨
    ∃ r ∈ decl.tokenRules, key = .rule r.id.name []
  names : ((decl.tokenRules ++ decl.rules ++ decl.topRules).map fun r => r.id.name).Nodup

/-- There are marks for the markers of an operation whose item is declared. -/
theorem OperatorTable.exists_gaps {x : OperatorTable} {o : DeclaredOperator}
    (h : ∃ i ∈ x.items, i.id.name = o.item) (mark : Nat) {id : Ident} (hid : id.name = o.item) :
    ∃ gaps, [[], [⟨mark, .precedence, id⟩], [], []].mapM (GapMarks.ofMarkers x.items) =
      .ok gaps := by
  obtain ⟨i, hi, hname⟩ := h
  cases hdrop : x.items.dropWhile fun i => i.id.name != id.name with
  | nil =>
    have hne := List.dropWhile_eq_nil_iff.mp hdrop i hi
    simp [hname, hid] at hne
  | cons item later =>
    have hmarker : GapMarks.ofMarker x.items ⟨mark, .precedence, id⟩ =
        .ok (GapMarks.ofPrecedence (later.length + 1) item.assoc) := by
      simp only [GapMarks.ofMarker, hdrop]
    have hgap : GapMarks.ofMarkers x.items [⟨mark, .precedence, id⟩] =
        .ok (GapMarks.join {} (GapMarks.ofPrecedence (later.length + 1) item.assoc)) := by
      simp only [GapMarks.ofMarkers, List.foldlM_cons, hmarker]
      rfl
    refine ⟨[{}, GapMarks.join {} (GapMarks.ofPrecedence (later.length + 1) item.assoc), {}, {}],
      ?_⟩
    simp only [List.mapM_cons, hgap]
    rfl

namespace Build

open Draft (Grows Supplies Quietly Enters)

variable {x : OperatorTable} {ctx : Declared} {d : Draft} {scope : List ScopedRule}
  {t skip : Term} {fuel : Nat}

theorem succeeds_self (hd : d.Encloses x.name t) (hgroups : d.groups = []) (start : Nat) :
    Succeeds ctx d (normalizeTo (fuel + 1) skip (.name start x.name [])) := by
  refine Succeeds.before (succeeds_get_bind ?_) fun _ => .pure _
  rw [hd.find?_self]
  exact succeeds_pure hgroups t

/-- The tokens of a table are built. -/
theorem succeeds_token (htokens : ctx.decl.HasPlainTokens x) (hd : d.Encloses x.name t)
    (hgroups : d.groups = []) {e : Expr} {key : TokenKey} (he : TokenKey.ofExpr? e = some key)
    (hkey : key ∈ x.keys) (hname : key.hasRule x.name = false) :
    Succeeds ctx d (normalizeTo (fuel + 1) skip e) := by
  cases e with
  | literal start value =>
    exact (succeeds_literalToken htokens.literals value d hgroups).before fun _ => .pure _
  | name start other args =>
    cases he
    have hother : x.name ≠ other := by simpa [TokenKey.hasRule] using hname
    obtain ⟨r, hr, hrule⟩ : ∃ r ∈ ctx.decl.tokenRules,
        TokenKey.rule other args = .rule r.id.name [] :=
      (htokens.keys _ hkey).resolve_left (by rintro ⟨_, ⟨⟩⟩)
    cases hrule
    refine Succeeds.before (succeeds_get_bind ?_) fun _ => .pure _
    rw [hd.find?_other hother]
    refine (succeeds_token? htokens.tokenRules start r.id.name d hgroups).bind
      (yields_token? start r.id.name [] ctx d) ?_
    rintro found d₁ hgroups₁ ⟨-, -, hmissing⟩
    cases found with
    | some u => exact succeeds_pure hgroups₁ u
    | none => exact absurd rfl (hmissing rfl r hr)
  | _ => cases he

theorem succeeds_operation (hx : ctx.decl.Declares x) (htokens : ctx.decl.HasPlainTokens x)
    (hd : d.Encloses x.name t) (hgroups : d.groups = []) {o : DeclaredOperator}
    (ho : o ∈ x.operators) {e : Expr} (he : IsOperation x.name o e) :
    Succeeds ctx d (normalizeTo (fuel + 2) skip e) := by
  have hkey : o.key ∈ x.keys := List.mem_cons_of_mem _ (List.mem_map_of_mem ho)
  have hname := hx.keys_hasRule o.key hkey
  cases he with
  | intro start left right mark id token hid htoken =>
    change Succeeds ctx d (([.name left x.name [], token, .name right x.name []].mapM
      (normalizeTo (fuel + 1) skip)) >>= _)
    simp only [List.mapM_cons, List.mapM_nil, bind_assoc, pure_bind]
    refine (succeeds_self hd hgroups left).bind (yields_self hd left) ?_
    rintro _ _ _ ⟨rfl, rfl⟩
    refine (succeeds_token htokens hd hgroups htoken hkey hname).bind
      (yields_token hd htoken hname) ?_
    rintro _ d₁ hgroups₁ ⟨hd₁, -, -⟩
    refine (succeeds_self (hd₁.encloses hd) hgroups₁ right).bind
      (yields_self (hd₁.encloses hd) right) ?_
    rintro _ _ _ ⟨rfl, rfl⟩
    obtain ⟨gaps, hgaps⟩ := OperatorTable.exists_gaps (hx.assigned o ho) mark hid
    refine succeeds_read_bind (succeeds_check_bind (a := gaps) ?_ (succeeds_pure hgroups₁ _))
    rw [hx.precedences]
    exact hgaps

theorem succeeds_operations (hx : ctx.decl.Declares x) (htokens : ctx.decl.HasPlainTokens x)
    (hd : d.Encloses x.name t) (hgroups : d.groups = []) {operators : List DeclaredOperator}
    (hall : ∀ o ∈ operators, o ∈ x.operators) {es : List Expr}
    (hes : List.Forall₂ (IsOperation x.name) operators es) :
    Succeeds ctx d (es.mapM (normalizeTo (fuel + 2) skip)) := by
  induction hes generalizing d with
  | nil => exact succeeds_pure hgroups _
  | @cons o e operators es he _ ih =>
    obtain ⟨ho, hall⟩ := List.forall_mem_cons.mp hall
    have hname := hx.keys_hasRule o.key (List.mem_cons_of_mem _ (List.mem_map_of_mem ho))
    rw [List.mapM_cons]
    refine (succeeds_operation hx htokens hd hgroups ho he).bind
      (yields_operation hx hd hname he) ?_
    rintro _ d₁ hgroups₁ ⟨hd₁, -, -⟩
    exact (ih (hd₁.encloses hd) hgroups₁ hall).before fun _ => .pure _

theorem succeeds_body (hx : ctx.decl.Declares x) (htokens : ctx.decl.HasPlainTokens x)
    (hd : d.Encloses x.name t) (hgroups : d.groups = []) {start : Nat} {operations : List Expr}
    {last : Expr} (hoperations : List.Forall₂ (IsOperation x.name) x.operators operations)
    (hlast : TokenKey.ofExpr? last = some x.operand) :
    Succeeds ctx d (normalizeTo (fuel + 3) skip (.choice start (operations ++ [last]))) := by
  obtain ⟨hname, hnames⟩ := List.forall_mem_cons.mp hx.keys_hasRule
  rw [List.forall_mem_map] at hnames
  change Succeeds ctx d (((operations ++ [last]).mapM (normalizeTo (fuel + 2) skip)) >>= _)
  rw [List.mapM_append]
  simp only [List.mapM_cons, List.mapM_nil, bind_assoc, pure_bind]
  refine (succeeds_operations hx htokens hd hgroups (fun _ => id) hoperations).bind
    (yields_operations hx hd hnames hoperations) ?_
  rintro _ d₁ hgroups₁ ⟨hd₁, -, -⟩
  exact (succeeds_token htokens (hd₁.encloses hd) hgroups₁ hlast (.head _) hname).before
    fun _ => .pure _

/-- The rule for expressions is built. -/
theorem succeeds_buildRule_operations (hx : ctx.decl.Declares x)
    (htokens : ctx.decl.HasPlainTokens x) {id : Ident} {start : Nat} {operations : List Expr}
    {last : Expr} (hid : id.name = x.name)
    (hoperations : List.Forall₂ (IsOperation x.name) x.operators operations)
    (hlast : TokenKey.ofExpr? last = some x.operand) (hgroups : d.groups = [])
    (hd : d.IsUnentered scope) (hscope : ∀ s ∈ scope, s.rule.id.name = x.name) :
    Succeeds ctx d (buildRule (normalizeTo (fuel + 3))
      ⟨id, [], [], .choice start (operations ++ [last])⟩ [] skip false) := by
  refine succeeds_check_bind rfl (succeeds_ok_bind (ruleInfo_eq _ rfl (by simp) []) ?_)
  refine (succeeds_newTerm _ d hgroups).bind
    (yields_enter (by simp) (by simp) (refl_of (Supplies ctx.decl) d)) ?_
  rintro t d₁ hgroups₁ ⟨henter, -⟩
  refine (succeeds_registerRule _ _ _ t d₁ hgroups₁).bind
    (silently_registerRule _ _ _ _).quietly.yields fun _ d₂ hgroups₂ hd₂ => ?_
  have hencloses : Draft.Encloses x.name t (d₂.withInstance ⟨id.name, [], t⟩) := by
    rw [hid]
    exact (hd.of_declared_eq (hd₂.declared_eq.trans henter.declared_eq)).encloses hscope t
  refine succeeds_modify_bind
    ((succeeds_body hx htokens hencloses hgroups₂ hoperations hlast).before fun phrases => ?_)
  exact .when (succeeds_warn _ _) fun _ => (succeeds_addRules _ _ _).bind fun _ => .pure t

/-- The name of the rule for expressions makes the rule be built. -/
theorem succeeds_operations_named (hx : ctx.decl.Declares x)
    (htokens : ctx.decl.HasPlainTokens x) (hgroups : d.groups = [])
    (hd : d.IsUnentered (ctx.decl.mainScope skip)) (start : Nat) :
    Succeeds ctx d (normalize skip (.name start x.name [])) := by
  obtain ⟨fuel, hfuel⟩ := exists_normalizeTo ctx
  rw [Succeeds, hfuel]
  refine Succeeds.before (succeeds_get_bind ?_) fun _ => .pure _
  rw [hd.ruleInstances_eq]
  refine (succeeds_token? htokens.tokenRules start x.name d hgroups).bind
    (supplies_token? start x.name []).yields fun found d₁ hgroups₁ hd₁ => ?_
  cases found with
  | some t => exact succeeds_pure hgroups₁ t
  | none =>
    obtain ⟨id, place, operations, last, hrules, hid, hoperations, hlast⟩ := hx.rule
    have hunentered := hd.of_declared_eq hd₁.declared_eq
    have hfind : d₁.scope.find? (fun s => s.rule.id.name == x.name) =
        some ⟨skip, ⟨id, [], [], .choice place (operations ++ [last])⟩⟩ := by
      rw [hunentered.scope_eq, GrammarDecl.mainScope, hrules]
      simp [hid]
    refine succeeds_get_bind ?_
    rw [externalToken?_eq_none hunentered.external.1 hunentered.external.2, hfind]
    refine (succeeds_markUsed _ d₁ hgroups₁).bind (silently_markUsed _).quietly.yields
      fun _ d₂ hgroups₂ hd₂ => ?_
    exact succeeds_buildRule_operations hx htokens hid hoperations hlast hgroups₂
      (hunentered.of_declared_eq hd₂.declared_eq) hx.name_of_mem_mainScope

/-! ## §5 Grammars -/

theorem succeeds_declareName (hgroups : d.groups = []) {id : Ident}
    (hnew : id.name ∉ d.names.map DeclaredName.name) : Succeeds ctx d (declareName id) := by
  refine succeeds_get_bind ?_
  rw [if_neg]
  · exact ⟨_, _, rfl, hgroups⟩
  · rintro hany
    obtain ⟨n, hn, hname⟩ := List.any_eq_true.mp hany
    exact hnew (List.mem_map.mpr ⟨n, hn, beq_iff_eq.mp hname⟩)

/-- Names that are all different can be declared. -/
theorem succeeds_declareNames {α : Type} (id : α → Ident) {l : List α} (hgroups : d.groups = [])
    (hnodup : (d.names.map DeclaredName.name ++ l.map fun a => (id a).name).Nodup) :
    Succeeds ctx d (l.forM fun a => declareName (id a)) := by
  induction l generalizing d with
  | nil => exact succeeds_pure hgroups _
  | cons a l ih =>
    have hnew : (id a).name ∉ d.names.map DeclaredName.name := fun hmem =>
      (List.nodup_append'.mp hnodup).2.2 hmem (.head _)
    refine (succeeds_declareName hgroups hnew).bind (yields_declareName (id a))
      fun _ d₁ hgroups₁ ⟨_, hnames⟩ => ih hgroups₁ ?_
    rw [hnames, List.append_assoc]
    exact hnodup

theorem succeeds_warnUnused : AlwaysSucceeds ctx warnUnused := by
  refine .get_bind fun d => .forM fun n => ?_
  split
  · exact .pure _
  · exact succeeds_warn _ _

theorem succeeds_readPrecedence (ranks : List TokenRank) (decl : TokenPrecedence) :
    AlwaysSucceeds ctx (readPrecedence ranks decl) :=
  .get_bind fun _ => (AlwaysSucceeds.foldlM (fun _ _ =>
    .when (succeeds_warn _ _) fun _ => .pure _) _).bind fun _ => .pure _

theorem succeeds_readConflict (decl : TokenConflictDecl) :
    AlwaysSucceeds ctx (readConflict decl) := by
  have htoken (e : Expr) : AlwaysSucceeds ctx (conflictToken e) :=
    .get_bind fun _ => .when (succeeds_warn _ _) fun _ => .pure _
  exact (htoken _).bind fun _ => (htoken _).bind fun _ => .pure _

/-- Where no groups are to be defined, there may still be warnings. -/
theorem succeeds_defineGroups : AlwaysSucceeds ctx defineGroups := by
  intro d hd
  refine succeeds_get_bind ?_
  rw [hd]
  exact AlwaysSucceeds.get_bind (fun d => .forM fun w => succeeds_warn w none) d hd

/-- The top rule is built, which stands for an expression. -/
theorem succeeds_buildTop (hx : ctx.decl.Declares x) (htokens : ctx.decl.HasPlainTokens x)
    (hgroups : d.groups = []) (hd : d.IsUnentered (ctx.decl.mainScope skip)) {id : Ident}
    (hnew : id.name ∉ d.names.map DeclaredName.name) (params : List Ident) (start : Nat) :
    Succeeds ctx d (buildTop ⟨skip, ⟨id, [], params, .name start x.name []⟩⟩) := by
  refine (succeeds_declareName hgroups hnew).bind (yields_declareName id)
    fun _ d₁ hgroups₁ ⟨hd₁, _⟩ => ?_
  refine (succeeds_markUsed _ d₁ hgroups₁).bind (silently_markUsed _).quietly.yields
    fun _ d₂ hgroups₂ hd₂ => ?_
  have hunentered := hd.of_declared_eq (hd₂.declared_eq.trans hd₁.declared_eq)
  refine succeeds_ok_bind (ruleInfo_eq _ rfl (by simp) []) ?_
  -- What is left when the symbol is there.
  have hrest {d₃ : Draft} (t : Term) (hgroups₃ : d₃.groups = [])
      (hdeclared : d₃.declared = d₂.declared) : Succeeds ctx d₃ (do
        addRules t skip (← normalize skip (.name start x.name []))) :=
    (succeeds_operations_named hx htokens hgroups₃ (hunentered.of_declared_eq hdeclared)
      start).before fun _ => succeeds_addRules _ _ _
  refine succeeds_ok_bind (a := ⟨d₂.terms.size⟩) rfl ?_
  dsimp only
  cases NodeInfo.defaultName .topRule (some id.name) with
  | none => exact hrest _ hgroups₂ rfl
  | some name =>
    refine succeeds_modify_bind ?_
    exact hrest _ hgroups₂ rfl

/-- Nothing is done about a rule that is not exported. -/
theorem succeeds_buildExported {rule : RuleDecl} (hprops : rule.props = []) :
    AlwaysSucceeds ctx (buildExported ⟨skip, rule⟩) := by
  refine .get_bind fun d => ?_
  have hexported : isExported rule = false := by
    rw [isExported, hprops]
    rfl
  simp only [hexported, Bool.and_false, Bool.false_and, Bool.false_eq_true, if_false]
  exact .pure _

/-- All rules are built when the names of token rules have been declared. -/
theorem succeeds_buildRules (hx : ctx.decl.Declares x) (htokens : ctx.decl.HasPlainTokens x)
    (hgroups : d.groups = []) (hd : d.IsUnentered [])
    (hnames : d.names.map DeclaredName.name = ctx.decl.tokenRules.map fun r => r.id.name) :
    Succeeds ctx d buildRules := by
  have hnodup := htokens.names
  obtain ⟨id, params, start, htops⟩ := hx.top
  obtain ⟨ruleId, place, operations, last, hrules, -⟩ := hx.rule
  rw [htops, List.map_append, List.map_append, ← hnames] at hnodup
  refine succeeds_read_bind ((succeeds_newSkip _ d hgroups).bind (yields_newSkip _) ?_)
  rintro noSkip d₁ hgroups₁ ⟨hd₁, -, -⟩
  have hnames₁ : d₁.names.map DeclaredName.name = d.names.map DeclaredName.name :=
    congrArg (fun noted => noted.2.2) hd₁.noted_eq
  rw [← hnames₁] at hnodup
  -- There is one scope, with one top rule.
  simp only [hx.mainSkip, hx.scopedSkips, hx.externalSpecializers, htops, Option.isSome_none,
    Bool.false_eq_true, if_false, pure_bind, scopeSkips, List.zip_nil_left, List.flatMap_nil,
    List.append_nil, List.map_cons, List.map_nil, List.isEmpty_cons, List.mergeSort_singleton]
  refine (succeeds_declareNames (fun s : ScopedRule => s.rule.id) hgroups₁ ?_).bind
    (yields_declareNames _ _) ?_
  · rw [List.map_map]
    exact (List.nodup_append'.mp hnodup).1
  rintro _ d₂ hgroups₂ ⟨hd₂, hnames₂⟩
  refine succeeds_modify_bind ?_
  rw [List.map_map] at hnames₂
  have hunentered := hd.of_declared_eq (hd₂.declared_eq.trans hd₁.declared_eq)
  refine succeeds_ok_bind rfl (.before (.before ?_ fun _ => .pure _) fun _ => .get_bind fun _ => ?_)
  · apply succeeds_buildTop hx htokens
    case hgroups => exact hgroups₂
    case hd => exact ⟨hunentered.ruleInstances_eq, rfl, hunentered.external⟩
    case hnew => exact fun hmem => (List.nodup_append'.mp hnodup).2.2 (hnames₂ ▸ hmem) (.head _)
  · rw [hrules]
    exact .bind (.pure _) fun _ => (succeeds_buildExported rfl).bind fun _ => .pure _

/-- All declarations are worked through. -/
theorem succeeds_blueprint (hx : ctx.decl.Declares x) (htokens : ctx.decl.HasPlainTokens x) :
    Succeeds ctx {} blueprint := by
  have hnodup := htokens.names
  rw [List.append_assoc, List.map_append] at hnodup
  have hnodup := (List.nodup_append'.mp hnodup).1
  refine succeeds_read_bind ((succeeds_declareNames (d := {}) RuleDecl.id rfl hnodup).bind
    (yields_declareNames _ _) fun _ d₁ hgroups₁ ⟨hd₁, hnames₁⟩ => ?_)
  have hunentered : d₁.IsUnentered [] :=
    .of_declared_eq ⟨rfl, rfl, rfl, rfl⟩ hd₁.declared_eq
  have hexternals : declareExternals ctx d₁ = .ok ⟨⟩ d₁ := by
    change (ctx.decl.externalTokens.zipIdx.forM declareTokenizer >>= fun _ =>
      ctx.decl.externalSpecializers.forM declareSpecializer) ctx d₁ = _
    rw [hx.externalTokens, hx.externalSpecializers]
    rfl
  refine succeeds_ok_bind hexternals ?_
  refine (succeeds_buildRules hx htokens hgroups₁ hunentered hnames₁).before fun _ => ?_
  refine succeeds_warnUnused.bind fun _ => ?_
  refine (AlwaysSucceeds.foldlM succeeds_readPrecedence _).bind fun ranks => ?_
  refine (AlwaysSucceeds.mapM succeeds_readConflict).bind fun conflicts => ?_
  refine succeeds_defineGroups.bind fun _ => ?_
  exact .bind (.of_modify fun _ => rfl) fun _ => .get_bind fun _ => .pure _

end Build

/-- A grammar of operators whose tokens are plain is worked through. -/
theorem GrammarDecl.Declares.exists_blueprint {source : Text.Source} {decl : GrammarDecl}
    {x : OperatorTable} (hparse : GrammarDecl.parse source = .ok decl) (hx : decl.Declares x)
    (htokens : decl.HasPlainTokens x) :
    ∃ b journal, Blueprint.ofSource source = (.ok b, journal) := by
  have hsucceeds : Build.Succeeds ⟨source, decl⟩ {} Build.blueprint :=
    Build.succeeds_blueprint hx htokens
  obtain ⟨b, d, hrun, -⟩ := hsucceeds
  refine ⟨b, d.journal, ?_⟩
  rw [Blueprint.ofSource, hparse]
  have hrun : (Build.blueprint.run ⟨source, decl⟩).run {} = .ok b d := hrun
  simp only [hrun]

end GrammarCompiler
