/-
GrammarCompiler.Proofs.Parsing — expressions as they can be read.

Readers pass the tokens on that they do not take. So the sets and the names in
expressions are those among the tokens of a text, and sound as those are. Sequences
and choices are only made where there is more than one part.

  §1 Readers      — what holds of a reader whatever the tokens are.
  §2 Lists        — items, blocks, and the parts of rules.
  §3 Expressions  — what is read as an expression.
  §4 Declarations — the rules, tokens and skip expressions of a grammar.
-/
import GrammarCompiler.Declaration.Parser
import GrammarCompiler.Proofs.Lists
import GrammarCompiler.Proofs.Scanning

namespace GrammarCompiler

open Text

/-- Expressions whose sets are canonical, apart from what stands in references
and in rules in place. -/
inductive Expr.IsCanonical : Expr → Prop
  | name (start : Nat) (id : String) (args : List Expr) : IsCanonical (.name start id args)
  | specialize (start : Nat) (kind : SpecializeKind) (props : List NodeProp)
      (token content : Expr) : IsCanonical (.specialize start kind props token content)
  | inlineRule (start : Nat) (id : String) (props : List NodeProp) (body : Expr) :
      IsCanonical (.inlineRule start id props body)
  | choice (start : Nat) {alternatives : List Expr} (h : ∀ e ∈ alternatives, IsCanonical e) :
      IsCanonical (.choice start alternatives)
  | sequence (start : Nat) {elements : List Expr} (markers : List (List Marker))
      (h : ∀ e ∈ elements, IsCanonical e) : IsCanonical (.sequence start elements markers)
  | repeated (start : Nat) {body : Expr} (kind : RepeatKind) (h : IsCanonical body) :
      IsCanonical (.repeated start body kind)
  | literal (start : Nat) (value : String) : IsCanonical (.literal start value)
  | set (start : Nat) {ranges : List CodeRange} (inverted : Bool)
      (h : CharSet.IsCanonical ranges) : IsCanonical (.set start ranges inverted)
  | any (start : Nat) : IsCanonical (.any start)
  | charClass (start : Nat) (cls : CharClass) : IsCanonical (.charClass start cls)

/-- Expressions as they can be read. A sequence of one element has a marker, and a choice has more
than one alternative. -/
inductive Expr.IsReadable : Expr → Prop
  | name (start : Nat) {id : String} {args : List Expr} (hid : IsName id) (hany : id ≠ "_")
      (h : ∀ a ∈ args, IsReadable a) : IsReadable (.name start id args)
  | specialize (start : Nat) (kind : SpecializeKind) (props : List NodeProp)
      {token content : Expr} (htoken : IsReadable token) (hcontent : IsReadable content) :
      IsReadable (.specialize start kind props token content)
  | inlineRule (start : Nat) {id : String} (props : List NodeProp) {body : Expr} (hid : IsName id)
      (hany : id ≠ "_") (h : IsReadable body) : IsReadable (.inlineRule start id props body)
  | choice (start : Nat) {alternatives : List Expr} (hlength : 2 ≤ alternatives.length)
      (h : ∀ e ∈ alternatives, IsReadable e) : IsReadable (.choice start alternatives)
  | sequence (start : Nat) {elements : List Expr} {markers : List (List Marker)}
      (hlength : markers.length = elements.length + 1)
      (hsingle : elements.length = 1 → markers.flatten ≠ [])
      (hnames : ∀ gap ∈ markers, ∀ m ∈ gap, IsName m.id.name)
      (h : ∀ e ∈ elements, IsReadable e) : IsReadable (.sequence start elements markers)
  | repeated (start : Nat) {body : Expr} (kind : RepeatKind) (h : IsReadable body) :
      IsReadable (.repeated start body kind)
  | literal (start : Nat) (value : String) : IsReadable (.literal start value)
  | set (start : Nat) {ranges : List CodeRange} (inverted : Bool)
      (h : CharSet.IsCanonical ranges) : IsReadable (.set start ranges inverted)
  | any (start : Nat) : IsReadable (.any start)
  | charClass (start : Nat) (cls : CharClass) : IsReadable (.charClass start cls)

theorem Expr.isReadable_empty (start : Nat) : (Expr.empty start).IsReadable :=
  .sequence start rfl nofun (by simp) nofun

theorem Expr.IsReadable.isCanonical {e : Expr} (h : e.IsReadable) : e.IsCanonical := by
  induction h with
  | name => exact .name ..
  | specialize => exact .specialize ..
  | inlineRule => exact .inlineRule ..
  | choice start _ _ ih => exact .choice start ih
  | sequence start _ _ _ _ ih => exact .sequence start _ ih
  | repeated start kind _ ih => exact .repeated start kind ih
  | literal => exact .literal ..
  | set start inverted h => exact .set start inverted h
  | any => exact .any _
  | charClass => exact .charClass ..

namespace Reader

/-! ## §1 Readers -/

variable {α β : Type} {P Q : α → Prop} {S : β → Prop}

/-- What is left of sound tokens is sound, and the answer has a property. -/
def Keeps (m : Reader α) (Q : α → Prop) : Prop :=
  ∀ tokens x rest, tokens.AreSound → m tokens = .ok (x, rest) → rest.AreSound ∧ Q x

/-- What is left of sound tokens is sound. -/
abbrev Moves (m : Reader α) : Prop :=
  Keeps m fun _ => True

theorem Keeps.bind {m : Reader α} {f : α → Reader β} (hm : Keeps m P)
    (hf : ∀ x, P x → Keeps (f x) S) : Keeps (m >>= f) S := by
  intro tokens y rest htokens h
  obtain ⟨x, rest', hx, hy⟩ := exists_ok_of_stateT_bind h
  obtain ⟨hrest', hP⟩ := hm tokens x rest' htokens hx
  exact hf x hP rest' y rest hrest' hy

theorem Keeps.moves {m : Reader α} (h : Keeps m P) : Moves m :=
  fun tokens x rest htokens hm => ⟨(h tokens x rest htokens hm).1, trivial⟩

theorem keeps_pure {x : α} (h : Q x) : Keeps (pure x) Q := by
  rintro _ _ _ htokens ⟨⟩
  exact ⟨htokens, h⟩

theorem keeps_fail (fault : SyntaxFault) (offset : Nat) : Keeps (fail fault offset) Q := by
  rintro _ _ _ _ ⟨⟩

theorem keeps_fail_bind (fault : SyntaxFault) (offset : Nat) (f : α → Reader β) :
    Keeps (fail fault offset >>= f) S := by
  rintro _ _ _ _ ⟨⟩

theorem keeps_get : Keeps get Tokens.AreSound := by
  rintro _ _ _ htokens ⟨⟩
  exact ⟨htokens, htokens⟩

theorem Keeps.ite {c : Prop} {_ : Decidable c} {m m' : Reader α} (h : Keeps m Q)
    (h' : Keeps m' Q) : Keeps (if c then m else m') Q := by
  split
  · exact h
  · exact h'

theorem moves_offset : Moves offset := by
  refine keeps_get.bind fun tokens _ => ?_
  split <;> exact keeps_pure trivial

theorem keeps_peek : Keeps peek fun found => ∀ token ∈ found, token.IsSound := by
  refine keeps_get.bind fun tokens htokens => ?_
  split
  next => exact keeps_pure fun _ heq => Option.some.inj heq ▸ htokens.1
  next => exact keeps_pure nofun

theorem moves_continueAt {tokens : Tokens} (h : tokens.AreSound) :
    Moves (continueAt tokens) := by
  rw [continueAt.eq_def]
  split
  next => exact keeps_fail _ _
  next =>
    rintro _ _ _ _ ⟨⟩
    exact ⟨h, trivial⟩

theorem moves_advance : Moves advance := by
  refine keeps_get.bind fun tokens htokens => ?_
  split
  next => exact moves_continueAt htokens.2
  next => exact keeps_pure trivial

theorem keeps_unexpected : Keeps (unexpected : Reader α) Q := by
  refine keeps_peek.bind fun found _ => ?_
  split <;> exact moves_offset.bind fun _ _ => keeps_fail _ _

theorem moves_nextIs (token : Token) : Moves (nextIs token) :=
  keeps_peek.bind fun _ _ => keeps_pure trivial

theorem moves_eat (token : Token) : Moves (eat token) :=
  (moves_nextIs token).bind fun _ _ =>
    .ite (moves_advance.bind fun _ _ => keeps_pure trivial) (keeps_pure trivial)

theorem moves_expect (token : Token) : Moves (expect token) :=
  (moves_eat token).bind fun _ _ => .ite (keeps_pure trivial) keeps_unexpected

theorem keeps_ident : Keeps ident fun id => IsName id.name := by
  refine keeps_get.bind fun tokens htokens => ?_
  split
  next => exact (moves_continueAt htokens.2).bind fun _ _ => keeps_pure htokens.1
  next => exact keeps_unexpected

theorem moves_ident : Moves ident :=
  keeps_ident.moves

theorem moves_string : Moves string := by
  refine keeps_get.bind fun tokens htokens => ?_
  split
  next => exact (moves_continueAt htokens.2).bind fun _ _ => keeps_pure trivial
  next => exact keeps_unexpected

/-! ## §2 Lists -/

theorem keeps_tooDeep : Keeps (do fail .nestingTooDeep (← offset)) Q :=
  moves_offset.bind fun _ _ => keeps_fail _ _

theorem keeps_itemsFrom (close : Token) {item : Reader α} (hitem : Keeps item P) (fuel : Nat)
    (first : Bool) : Keeps (itemsFrom close item fuel first) fun xs => ∀ x ∈ xs, P x := by
  induction fuel generalizing first with
  | zero => exact keeps_tooDeep
  | succ fuel ih =>
    rw [itemsFrom]
    refine (moves_eat close).bind fun closed _ => .ite (keeps_pure nofun) ?_
    have hrest : Keeps (do let x ← item; let xs ← itemsFrom close item fuel false; return x :: xs)
        fun xs => ∀ x ∈ xs, P x :=
      hitem.bind fun x hx => (ih false).bind fun xs hxs =>
        keeps_pure (List.forall_mem_cons.mpr ⟨hx, hxs⟩)
    exact .ite hrest ((moves_expect _).bind fun _ _ => hrest)

theorem keeps_items (close : Token) {item : Reader α} (hitem : Keeps item P) :
    Keeps (items close item) fun xs => ∀ x ∈ xs, P x :=
  keeps_get.bind fun _ _ => keeps_itemsFrom close hitem _ true

theorem moves_items (close : Token) {item : Reader α} (hitem : Moves item) :
    Moves (items close item) :=
  (keeps_items close hitem).moves

theorem keeps_foldUntil (close : Token) {step : β → Reader β}
    (hstep : ∀ value, S value → Keeps (step value) S) (fuel : Nat) {value : β} (h : S value) :
    Keeps (foldUntil close step fuel value) S := by
  induction fuel generalizing value with
  | zero => exact keeps_tooDeep
  | succ fuel ih =>
    rw [foldUntil]
    exact (moves_eat close).bind fun _ _ => .ite (keeps_pure h)
      ((hstep value h).bind fun _ hvalue => ih hvalue)

theorem keeps_block {step : β → Reader β} (hstep : ∀ value, S value → Keeps (step value) S)
    {value : β} (h : S value) : Keeps (block value step) S :=
  keeps_get.bind fun _ _ => keeps_foldUntil _ hstep _ h

theorem moves_propParts (fuel : Nat) : Moves (propParts fuel) := by
  induction fuel with
  | zero => exact keeps_tooDeep
  | succ fuel ih =>
    rw [propParts]
    refine moves_offset.bind fun start _ => keeps_peek.bind fun found _ => ?_
    have hmore (part : PropPart) : Moves (do return part :: (← propParts fuel)) :=
      ih.bind fun _ _ => keeps_pure trivial
    split
    next => exact moves_advance.bind fun _ _ => hmore _
    next => exact moves_advance.bind fun _ _ => hmore _
    next => exact moves_advance.bind fun _ _ => hmore _
    next =>
      exact moves_advance.bind fun _ _ => moves_ident.bind fun _ _ =>
        (moves_expect _).bind fun _ _ => hmore _
    next => exact keeps_pure trivial

theorem moves_propValue : Moves propValue :=
  (moves_eat _).bind fun _ _ => .ite (keeps_get.bind fun _ _ => moves_propParts _)
    (keeps_pure trivial)

theorem moves_prop : Moves prop := by
  refine moves_offset.bind fun start _ => keeps_peek.bind fun found _ => ?_
  split
  next => exact moves_advance.bind fun _ _ => moves_propValue.bind fun _ _ => keeps_pure trivial
  next => exact moves_advance.bind fun _ _ => moves_propValue.bind fun _ _ => keeps_pure trivial
  next => exact keeps_unexpected

theorem moves_props : Moves props :=
  (moves_eat _).bind fun _ _ => .ite (moves_items _ moves_prop) (keeps_pure trivial)

theorem moves_params : Moves params :=
  (moves_eat _).bind fun _ _ => .ite (moves_items _ moves_ident) (keeps_pure trivial)

/-! ## §3 Expressions -/

theorem keeps_gap (fuel : Nat) : Keeps (gap fuel) fun gap => ∀ m ∈ gap, IsName m.id.name := by
  induction fuel with
  | zero => exact keeps_tooDeep
  | succ fuel ih =>
    rw [gap]
    refine moves_offset.bind fun start _ => keeps_peek.bind fun found _ => ?_
    have hmore (kind : MarkerKind) : Keeps (do
        advance
        let id ← ident
        return ⟨start, kind, id⟩ :: (← gap fuel)) fun gap => ∀ m ∈ gap, IsName m.id.name :=
      moves_advance.bind fun _ _ => keeps_ident.bind fun _ hid => ih.bind fun _ hrest =>
        keeps_pure (List.forall_mem_cons.mpr ⟨hid, hrest⟩)
    split
    next => exact hmore _
    next => exact hmore _
    next => exact keeps_pure nofun

theorem keeps_repeatsFrom (start fuel : Nat) {body : Expr} (h : body.IsReadable) :
    Keeps (repeatsFrom start fuel body) Expr.IsReadable := by
  induction fuel generalizing body with
  | zero => exact keeps_tooDeep
  | succ fuel ih =>
    rw [repeatsFrom]
    refine keeps_peek.bind fun found _ => ?_
    split
    next kind _ => exact moves_advance.bind fun _ _ => ih (.repeated start kind h)
    next => exact keeps_pure h

section

variable {expr : Reader Expr} (hexpr : Keeps expr Expr.IsReadable)
include hexpr

theorem keeps_ruleAfter (id : Ident) :
    Keeps (ruleAfter expr id) fun r => r.body.IsReadable :=
  moves_props.bind fun _ _ => moves_params.bind fun _ _ => (moves_expect _).bind fun _ _ =>
    hexpr.bind fun _ hbody => (moves_expect _).bind fun _ _ => keeps_pure hbody

theorem keeps_args : Keeps (args expr) fun args => ∀ a ∈ args, a.IsReadable :=
  (moves_eat _).bind fun _ _ => .ite (keeps_items _ hexpr) (keeps_pure nofun)

theorem keeps_specialization (start : Nat) (kind : SpecializeKind) :
    Keeps (specialization expr start kind) Expr.IsReadable := by
  refine moves_props.bind fun props _ => (moves_expect _).bind fun _ _ =>
    hexpr.bind fun token htoken =>
    (moves_eat _).bind fun _ _ => ?_
  have hrest : Keeps (do
      let content ← expr
      expect (.punct '>')
      return .specialize start kind props token content) Expr.IsReadable :=
    hexpr.bind fun _ hcontent => (moves_expect _).bind fun _ _ =>
      keeps_pure (.specialize _ _ _ htoken hcontent)
  exact .ite hrest (moves_offset.bind fun _ _ => keeps_fail_bind _ _ _)

theorem keeps_named : Keeps (named expr) Expr.IsReadable := by
  refine keeps_ident.bind fun id hid => ?_
  split
  next => exact keeps_pure (.any _)
  next hany =>
    refine keeps_peek.bind fun found _ => ?_
    have hrule : Keeps (do
        let rule ← ruleAfter expr id
        unless rule.params.isEmpty do fail .inlineParameters id.start
        return .inlineRule id.start id.name rule.props rule.body) Expr.IsReadable :=
      (keeps_ruleAfter hexpr id).bind fun _ hbody =>
        .ite (keeps_pure (.inlineRule _ _ hid hany hbody)) (keeps_fail_bind _ _ _)
    split
    next => exact hrule
    next => exact hrule
    next => exact (keeps_args hexpr).bind fun _ hargs => keeps_pure (.name _ hid hany hargs)

theorem keeps_primary : Keeps (primary expr) Expr.IsReadable := by
  refine moves_offset.bind fun start _ => keeps_peek.bind fun found hfound => ?_
  split
  next =>
    refine moves_advance.bind fun _ _ => (moves_eat _).bind fun _ _ =>
      .ite (keeps_pure (Expr.isReadable_empty _)) ?_
    exact hexpr.bind fun _ hinner => (moves_expect _).bind fun _ _ => keeps_pure hinner
  next => exact moves_advance.bind fun _ _ => keeps_pure (.literal ..)
  next => exact moves_advance.bind fun _ _ => keeps_pure (.set _ _ (hfound _ rfl))
  next => exact moves_advance.bind fun _ _ => keeps_specialization hexpr _ _
  next => exact moves_advance.bind fun _ _ => keeps_specialization hexpr _ _
  next =>
    split
    next => exact moves_advance.bind fun _ _ => keeps_pure (.charClass ..)
    next => exact keeps_fail _ _
  next => exact keeps_named hexpr
  next => exact keeps_unexpected

theorem keeps_suffixed (fuel : Nat) : Keeps (suffixed expr fuel) Expr.IsReadable :=
  moves_offset.bind fun _ _ => (keeps_primary hexpr).bind fun _ hbody =>
    keeps_repeatsFrom _ _ hbody

theorem keeps_elements (fuel : Nat) : Keeps (elements expr fuel) fun parts =>
    parts.2.length = parts.1.length + 1 ∧ (∀ gap ∈ parts.2, ∀ m ∈ gap, IsName m.id.name) ∧
      ∀ e ∈ parts.1, e.IsReadable := by
  induction fuel with
  | zero => exact keeps_tooDeep
  | succ fuel ih =>
    rw [elements]
    refine (keeps_gap _).bind fun gap hgap => keeps_peek.bind fun _ _ =>
      .ite (keeps_pure ⟨rfl, List.forall_mem_singleton.mpr hgap, nofun⟩) ?_
    refine (keeps_suffixed hexpr _).bind fun _ hfirst => ih.bind fun _ hrest => keeps_pure ?_
    obtain ⟨hlength, hnames, hrest⟩ := hrest
    exact ⟨congrArg (· + 1) hlength, List.forall_mem_cons.mpr ⟨hgap, hnames⟩,
      List.forall_mem_cons.mpr ⟨hfirst, hrest⟩⟩

theorem keeps_sequence (fuel : Nat) : Keeps (sequence expr fuel) Expr.IsReadable := by
  refine moves_offset.bind fun _ _ => (keeps_elements hexpr fuel).bind fun parts hparts => ?_
  obtain ⟨elements, gaps⟩ := parts
  obtain ⟨hlength, hnames, hall⟩ := hparts
  dsimp only at hlength hnames hall ⊢
  split
  next only =>
    split
    next => exact keeps_pure (hall only (List.mem_singleton_self only))
    next hmarked =>
      refine keeps_pure (.sequence _ hlength (fun _ hnone => hmarked ?_) hnames hall)
      simpa [List.flatten_eq_nil_iff] using hnone
  next hmany =>
    refine keeps_pure (.sequence _ hlength (fun hone => ?_) hnames hall)
    obtain ⟨only, honly⟩ := List.length_eq_one_iff.mp hone
    exact absurd honly (hmany only)

theorem keeps_alternatives (fuel : Nat) :
    Keeps (alternatives expr fuel) fun es => es ≠ [] ∧ ∀ e ∈ es, e.IsReadable := by
  induction fuel with
  | zero => exact keeps_tooDeep
  | succ fuel ih =>
    rw [alternatives]
    refine (keeps_sequence hexpr _).bind fun first hfirst =>
      (moves_eat _).bind fun _ _ => .ite ?_ ?_
    · exact ih.bind fun _ hrest =>
        keeps_pure ⟨List.cons_ne_nil _ _, List.forall_mem_cons.mpr ⟨hfirst, hrest.2⟩⟩
    · exact keeps_pure ⟨List.cons_ne_nil _ _, List.forall_mem_singleton.mpr hfirst⟩

theorem keeps_choice (fuel : Nat) : Keeps (choice expr fuel) Expr.IsReadable := by
  refine moves_offset.bind fun _ _ => (keeps_alternatives hexpr fuel).bind fun es hes => ?_
  split
  next only => exact keeps_pure (hes.2 only (List.mem_singleton_self only))
  next hmany =>
    refine keeps_pure (.choice _ ?_ hes.2)
    match es, hes.1 with
    | [only], _ => exact absurd rfl (hmany only)
    | _ :: _ :: _, _ => simp

end

theorem keeps_exprWithin (fuel : Nat) : Keeps (exprWithin fuel) Expr.IsReadable := by
  induction fuel with
  | zero => exact keeps_tooDeep
  | succ fuel ih => exact keeps_choice ih _

/-- What is read as an expression can be read. -/
theorem keeps_expr : Keeps expr Expr.IsReadable :=
  keeps_get.bind fun _ _ => keeps_exprWithin _

theorem keeps_rule : Keeps rule fun r => r.body.IsReadable :=
  moves_ident.bind fun _ _ => keeps_ruleAfter keeps_expr _

/-! ## §4 Declarations -/

theorem moves_precedence (start : Nat) : Moves (precedence start) := by
  refine (moves_expect _).bind fun _ _ => (moves_items _ ?_).bind fun _ _ => keeps_pure trivial
  refine moves_ident.bind fun _ _ => (moves_eat _).bind fun _ _ => .ite (keeps_pure trivial) ?_
  refine (moves_eat _).bind fun _ _ => .ite (keeps_pure trivial) ?_
  exact (moves_eat _).bind fun _ _ => .ite (keeps_pure trivial) (keeps_pure trivial)

theorem moves_tokenNames : Moves tokenNames := by
  refine (moves_expect _).bind fun _ _ => moves_items _ ?_
  refine moves_offset.bind fun _ _ => keeps_peek.bind fun _ _ => ?_
  split
  next => exact moves_advance.bind fun _ _ => keeps_pure trivial
  next =>
    exact moves_ident.bind fun _ _ => (keeps_args keeps_expr).bind fun _ _ => keeps_pure trivial
  next => exact keeps_unexpected

theorem keeps_tokensItem (decl : TokensDecl) (h : ∀ r ∈ decl.rules, r.body.IsReadable) :
    Keeps (tokensItem decl) fun decl => ∀ r ∈ decl.rules, r.body.IsReadable := by
  refine moves_offset.bind fun _ _ => keeps_peek.bind fun _ _ => ?_
  split
  next =>
    exact moves_advance.bind fun _ _ => moves_tokenNames.bind fun _ _ => keeps_pure h
  next =>
    refine moves_advance.bind fun _ _ => moves_tokenNames.bind fun _ _ => ?_
    split
    next => exact keeps_pure h
    next => exact keeps_fail _ _
  next => exact moves_advance.bind fun _ _ => moves_props.bind fun _ _ => keeps_pure h
  next =>
    exact keeps_rule.bind fun r hr => keeps_pure
      (List.forall_mem_append.mpr ⟨h, List.forall_mem_singleton.mpr hr⟩)

theorem keeps_tokensBlock (start : Nat) :
    Keeps (tokensBlock start) fun decl => ∀ r ∈ decl.rules, r.body.IsReadable :=
  (moves_expect _).bind fun _ _ => keeps_block keeps_tokensItem nofun

theorem moves_fromSource : Moves fromSource :=
  (moves_expect _).bind fun _ _ => moves_string

theorem moves_externalTokens : Moves externalTokens :=
  (moves_expect _).bind fun _ _ => moves_items _ (moves_ident.bind fun _ _ =>
    moves_props.bind fun _ _ => keeps_pure trivial)

end Reader

/-- The expressions of a scope are as they can be read. -/
structure ScopedSkip.IsReadable (s : ScopedSkip) : Prop where
  skip : s.expr.IsReadable
  tops : ∀ r ∈ s.topRules, r.body.IsReadable
  rules : ∀ r ∈ s.rules, r.body.IsReadable

/-- The expressions that become rules or tokens of a grammar are as they can be read. -/
structure GrammarDecl.IsReadable (g : GrammarDecl) : Prop where
  rules : ∀ r ∈ g.rules, r.body.IsReadable
  tops : ∀ r ∈ g.topRules, r.body.IsReadable
  tokens : ∀ r ∈ g.tokenRules, r.body.IsReadable
  specializers : ∀ s ∈ g.externalSpecializers, s.token.IsReadable
  mainSkip : ∀ e ∈ g.mainSkip, e.IsReadable
  scopes : ∀ s ∈ g.scopedSkips, s.IsReadable

namespace Reader

section

variable {g : GrammarDecl} (h : g.IsReadable)
include h

theorem keeps_external (start : Nat) :
    Keeps (external start g) GrammarDecl.IsReadable := by
  have hspecializer (kind : SpecializeKind) :
      Keeps (external.specializer start g kind) GrammarDecl.IsReadable :=
    (moves_expect _).bind fun _ _ => keeps_expr.bind fun _ he => (moves_expect _).bind fun _ _ =>
      moves_ident.bind fun _ _ => moves_fromSource.bind fun _ _ =>
        moves_externalTokens.bind fun _ _ => keeps_pure { h with
          specializers := List.forall_mem_append.mpr
            ⟨h.specializers, List.forall_mem_singleton.mpr he⟩ }
  refine moves_ident.bind fun kind _ => ?_
  split
  next =>
    exact moves_ident.bind fun _ _ => moves_fromSource.bind fun _ _ =>
      moves_externalTokens.bind fun _ _ => keeps_pure { h with }
  next =>
    have hrest (id externalId : Ident) : Keeps (do
        let source ← fromSource
        return { g with externalProps := g.externalProps ++ [⟨⟨start, id, source⟩, externalId⟩] })
        GrammarDecl.IsReadable :=
      moves_fromSource.bind fun _ _ => keeps_pure { h with }
    exact moves_ident.bind fun _ _ => (moves_eat _).bind fun _ _ =>
      .ite (moves_ident.bind fun _ _ => hrest _ _) (hrest _ _)
  next =>
    exact moves_ident.bind fun _ _ => moves_fromSource.bind fun _ _ => keeps_pure { h with }
  next => exact hspecializer _
  next => exact hspecializer _
  next => exact keeps_fail _ _

theorem keeps_skip (start : Nat) : Keeps (skip start g) GrammarDecl.IsReadable := by
  refine (moves_expect _).bind fun _ _ => keeps_expr.bind fun e he =>
    (moves_expect _).bind fun _ _ => (moves_eat _).bind fun _ _ => .ite ?_ ?_
  · refine Keeps.bind (P := ScopedSkip.IsReadable)
      (keeps_block (fun scope hscope => ?_) ⟨he, nofun, nofun⟩) fun scope hscope =>
        keeps_pure { h with
          scopes := List.forall_mem_append.mpr ⟨h.scopes, List.forall_mem_singleton.mpr hscope⟩ }
    exact (moves_eat _).bind fun _ _ => .ite
      (keeps_rule.bind fun _ hr => keeps_pure { hscope with
        tops := List.forall_mem_append.mpr ⟨hscope.tops, List.forall_mem_singleton.mpr hr⟩ })
      (keeps_rule.bind fun _ hr => keeps_pure { hscope with
        rules := List.forall_mem_append.mpr ⟨hscope.rules, List.forall_mem_singleton.mpr hr⟩ })
  · have hskip : ∀ e' ∈ some e, e'.IsReadable := by
      rintro _ ⟨⟩
      exact he
    exact .ite (keeps_fail_bind _ _ _) (keeps_pure { h with mainSkip := hskip })

theorem keeps_declaration : Keeps (declaration g) GrammarDecl.IsReadable := by
  refine moves_offset.bind fun _ _ => keeps_peek.bind fun _ _ => ?_
  split
  next =>
    exact moves_advance.bind fun _ _ => keeps_rule.bind fun _ hr => keeps_pure { h with
      tops := List.forall_mem_append.mpr ⟨h.tops, List.forall_mem_singleton.mpr hr⟩ }
  next =>
    exact moves_advance.bind fun _ _ => .ite (keeps_fail_bind _ _ _)
      ((keeps_tokensBlock _).bind fun _ hrules => keeps_pure { h with tokens := hrules })
  next =>
    exact moves_advance.bind fun _ _ => .ite (keeps_fail_bind _ _ _)
      (moves_ident.bind fun _ _ => moves_fromSource.bind fun _ _ => keeps_pure { h with })
  next => exact moves_advance.bind fun _ _ => keeps_external h _
  next =>
    exact moves_advance.bind fun _ _ => .ite (keeps_fail_bind _ _ _)
      ((moves_precedence _).bind fun _ _ => keeps_pure { h with })
  next =>
    exact moves_advance.bind fun _ _ => .ite (keeps_fail_bind _ _ _)
      ((moves_expect _).bind fun _ _ => (moves_items _ moves_ident).bind fun _ _ =>
        keeps_pure { h with })
  next => exact moves_advance.bind fun _ _ => keeps_pure { h with }
  next => exact moves_advance.bind fun _ _ => keeps_skip h _
  next =>
    exact keeps_rule.bind fun _ hr => keeps_pure { h with
      rules := List.forall_mem_append.mpr ⟨h.rules, List.forall_mem_singleton.mpr hr⟩ }

theorem keeps_declarations (fuel : Nat) :
    Keeps (declarations fuel g) GrammarDecl.IsReadable := by
  induction fuel generalizing g with
  | zero => exact keeps_tooDeep
  | succ fuel ih =>
    rw [declarations]
    refine keeps_peek.bind fun _ _ => ?_
    split
    next => exact keeps_pure h
    next => exact (keeps_declaration h).bind fun _ hg => ih hg

end

end Reader

/-- The expressions of a grammar that is read from a text are as they can be read. -/
theorem GrammarDecl.isReadable_parse {source : Source} {g : GrammarDecl}
    (h : GrammarDecl.parse source = .ok g) : g.IsReadable := by
  have hempty : GrammarDecl.IsReadable {} :=
    ⟨nofun, nofun, fun _ hr => (List.not_mem_nil hr).elim, nofun, nofun, nofun⟩
  have hgrammar : Reader.Keeps Reader.grammar GrammarDecl.IsReadable :=
    Reader.keeps_get.bind fun _ htokens => (Reader.moves_continueAt htokens).bind fun _ _ =>
      Reader.keeps_get.bind fun _ _ => Reader.keeps_declarations hempty _
  rw [GrammarDecl.parse] at h
  split at h
  next hread =>
    cases h
    exact (hgrammar _ _ _ (Lexer.areSound_tokens _) hread).2
  next => cases h

end GrammarCompiler
