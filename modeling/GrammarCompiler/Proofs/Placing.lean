/-
GrammarCompiler.Proofs.Placing — where things start.

Every part of a grammar carries the offset where it starts. Tokens are behind one
another, and what is read from them starts where a token does: between two characters
of the text, and not before the thing it is part of.

  §1 Plans      — what is asked of the places in something that is read.
  §2 Expressions  — the places in expressions and in what they consist of.
  §3 Declarations — the places in declarations and in grammars.
-/
import GrammarCompiler.Declaration.Basic
import GrammarCompiler.Declaration.Lexer
import Mathlib

namespace GrammarCompiler

open Text

/-! ## §1 Plans -/

/-- What is asked of places. A thing that starts at one place may hold what starts at
another, which then may hold itself. -/
structure Plan where
  Holds : Nat → Nat → Prop
  holds_self : ∀ {start place}, Holds start place → Holds place place
  holds_trans : ∀ {start place place'}, Holds start place → Holds place place' → Holds start place'
  /-- Whether it may be given up for its depth. -/
  deep : Prop

namespace Plan

/-- Nothing is asked. -/
def any : Plan where
  Holds _ _ := True
  holds_self _ := trivial
  holds_trans _ _ := trivial
  deep := True

/-- Things start between two characters of a text, and not before the thing that
holds them. -/
def ofText (text : String) : Plan where
  Holds start place :=
    start ≤ place ∧ place ≤ text.utf8ByteSize ∧ isBoundary text.toList place = true
  holds_self h := ⟨Nat.le_refl _, h.2⟩
  holds_trans h h' := ⟨h.1.trans h'.1, h'.2⟩
  deep := False

/-- What is allowed of an error in a thing. -/
def Allows (plan : Plan) (start : Nat) (e : SyntaxError) : Prop :=
  plan.Holds start e.offset ∧ (e.fault = .nestingTooDeep → plan.deep)

end Plan

/-- Each token may hold the next one. -/
def Tokens.ArePlaced (plan : Plan) : Nat → Tokens → Prop
  | lo, .cons start _ rest => plan.Holds lo start ∧ rest.ArePlaced plan start
  | lo, .done start => plan.Holds lo start
  | lo, .broken fault offset => plan.Allows lo ⟨fault, offset⟩

variable {plan : Plan} {lo start : Nat}

theorem Tokens.ArePlaced.of_holds {tokens : Tokens} (h : tokens.ArePlaced plan start)
    (hstart : plan.Holds lo start) : tokens.ArePlaced plan lo := by
  cases tokens with
  | cons place token rest => exact ⟨plan.holds_trans hstart h.1, h.2⟩
  | done place => exact plan.holds_trans hstart h
  | broken fault offset => exact ⟨plan.holds_trans hstart h.1, h.2⟩

theorem Tokens.arePlaced_any (tokens : Tokens) (lo : Nat) : tokens.ArePlaced .any lo := by
  induction tokens generalizing lo with
  | cons start token rest ih => exact ⟨trivial, ih start⟩
  | done start => exact trivial
  | broken fault offset => exact ⟨trivial, fun _ => trivial⟩

/-! ## §2 Expressions -/

/-- A property, and the pieces of its value in it. -/
structure NodeProp.IsPlaced (plan : Plan) (lo : Nat) (p : NodeProp) : Prop where
  start : plan.Holds lo p.start
  value : ∀ part ∈ p.value, plan.Holds p.start part.start

theorem NodeProp.isPlaced_any (p : NodeProp) (lo : Nat) : p.IsPlaced .any lo :=
  ⟨trivial, fun _ _ => trivial⟩

/-- A marker, and its name in it. -/
structure Marker.IsPlaced (plan : Plan) (lo : Nat) (m : Marker) : Prop where
  start : plan.Holds lo m.start
  id : plan.Holds m.start m.id.start

/-- An expression, and what is part of it. -/
inductive Expr.IsPlaced (plan : Plan) : Nat → Expr → Prop
  | name {lo start : Nat} {id : String} {args : List Expr} (hstart : plan.Holds lo start)
      (hargs : ∀ a ∈ args, IsPlaced plan start a) : IsPlaced plan lo (.name start id args)
  | specialize {lo start : Nat} {kind : SpecializeKind} {props : List NodeProp}
      {token content : Expr} (hstart : plan.Holds lo start)
      (hprops : ∀ p ∈ props, p.IsPlaced plan start) (htoken : IsPlaced plan start token)
      (hcontent : IsPlaced plan start content) :
      IsPlaced plan lo (.specialize start kind props token content)
  | inlineRule {lo start : Nat} {id : String} {props : List NodeProp} {body : Expr}
      (hstart : plan.Holds lo start) (hprops : ∀ p ∈ props, p.IsPlaced plan start)
      (hbody : IsPlaced plan start body) : IsPlaced plan lo (.inlineRule start id props body)
  | choice {lo start : Nat} {alternatives : List Expr} (hstart : plan.Holds lo start)
      (h : ∀ e ∈ alternatives, IsPlaced plan start e) :
      IsPlaced plan lo (.choice start alternatives)
  | sequence {lo start : Nat} {elements : List Expr} {markers : List (List Marker)}
      (hstart : plan.Holds lo start) (h : ∀ e ∈ elements, IsPlaced plan start e)
      (hmarkers : ∀ gap ∈ markers, ∀ m ∈ gap, m.IsPlaced plan start) :
      IsPlaced plan lo (.sequence start elements markers)
  | repeated {lo start : Nat} {body : Expr} {kind : RepeatKind} (hstart : plan.Holds lo start)
      (h : IsPlaced plan start body) : IsPlaced plan lo (.repeated start body kind)
  | literal {lo start : Nat} {value : String} (hstart : plan.Holds lo start) :
      IsPlaced plan lo (.literal start value)
  | set {lo start : Nat} {ranges : List CodeRange} {inverted : Bool}
      (hstart : plan.Holds lo start) : IsPlaced plan lo (.set start ranges inverted)
  | any {lo start : Nat} (hstart : plan.Holds lo start) : IsPlaced plan lo (.any start)
  | charClass {lo start : Nat} {cls : CharClass} (hstart : plan.Holds lo start) :
      IsPlaced plan lo (.charClass start cls)

theorem Expr.IsPlaced.of_holds {e : Expr} (h : e.IsPlaced plan start)
    (hstart : plan.Holds lo start) : e.IsPlaced plan lo := by
  cases h with
  | name h hargs => exact .name (plan.holds_trans hstart h) hargs
  | specialize h hprops htoken hcontent =>
    exact .specialize (plan.holds_trans hstart h) hprops htoken hcontent
  | inlineRule h hprops hbody => exact .inlineRule (plan.holds_trans hstart h) hprops hbody
  | choice h hall => exact .choice (plan.holds_trans hstart h) hall
  | sequence h hall hmarkers => exact .sequence (plan.holds_trans hstart h) hall hmarkers
  | repeated h hbody => exact .repeated (plan.holds_trans hstart h) hbody
  | literal h => exact .literal (plan.holds_trans hstart h)
  | set h => exact .set (plan.holds_trans hstart h)
  | any h => exact .any (plan.holds_trans hstart h)
  | charClass h => exact .charClass (plan.holds_trans hstart h)

theorem Expr.isPlaced_empty (h : plan.Holds lo start) : (Expr.empty start).IsPlaced plan lo :=
  .sequence h nofun (by simp)

theorem Expr.isPlaced_any (lo : Nat) : (e : Expr) → e.IsPlaced .any lo
  | .name _ _ _ => .name trivial fun e _ => isPlaced_any _ e
  | .specialize _ _ _ token content =>
    .specialize trivial (fun p _ => p.isPlaced_any _) (isPlaced_any _ token)
      (isPlaced_any _ content)
  | .inlineRule _ _ _ body =>
    .inlineRule trivial (fun p _ => p.isPlaced_any _) (isPlaced_any _ body)
  | .choice _ _ => .choice trivial fun e _ => isPlaced_any _ e
  | .sequence _ _ _ =>
    .sequence trivial (fun e _ => isPlaced_any _ e) fun _ _ _ _ => ⟨trivial, trivial⟩
  | .repeated _ body _ => .repeated trivial (isPlaced_any _ body)
  | .literal _ _ => .literal trivial
  | .set _ _ _ => .set trivial
  | .any _ => .any trivial
  | .charClass _ _ => .charClass trivial
termination_by e => sizeOf e

/-! ## §3 Declarations -/

/-- A rule, which starts with its name, and what is part of it. -/
structure RuleDecl.IsPlaced (plan : Plan) (lo : Nat) (r : RuleDecl) : Prop where
  id : plan.Holds lo r.id.start
  props : ∀ p ∈ r.props, p.IsPlaced plan r.id.start
  params : ∀ param ∈ r.params, plan.Holds r.id.start param.start
  body : r.body.IsPlaced plan r.id.start

theorem RuleDecl.IsPlaced.of_holds {r : RuleDecl} (h : r.IsPlaced plan start)
    (hstart : plan.Holds lo start) : r.IsPlaced plan lo :=
  { h with id := plan.holds_trans hstart h.id }

theorem RuleDecl.isPlaced_any (r : RuleDecl) (lo : Nat) : r.IsPlaced .any lo :=
  ⟨trivial, fun p _ => p.isPlaced_any _, fun _ _ => trivial, r.body.isPlaced_any _⟩

/-- Rules with a skip expression of their own. They have no start of their own. -/
structure ScopedSkip.IsPlaced (plan : Plan) (lo : Nat) (s : ScopedSkip) : Prop where
  expr : s.expr.IsPlaced plan lo
  topRules : ∀ r ∈ s.topRules, r.IsPlaced plan lo
  rules : ∀ r ∈ s.rules, r.IsPlaced plan lo

theorem ScopedSkip.isPlaced_any (s : ScopedSkip) (lo : Nat) : s.IsPlaced .any lo :=
  ⟨s.expr.isPlaced_any _, fun r _ => r.isPlaced_any _, fun r _ => r.isPlaced_any _⟩

/-- A precedence list, and the names in it. -/
structure PrecedenceDecl.IsPlaced (plan : Plan) (lo : Nat) (d : PrecedenceDecl) : Prop where
  start : plan.Holds lo d.start
  items : ∀ item ∈ d.items, plan.Holds d.start item.id.start

/-- An order of tokens, and the tokens in it. -/
structure TokenPrecedence.IsPlaced (plan : Plan) (lo : Nat) (d : TokenPrecedence) : Prop where
  start : plan.Holds lo d.start
  items : ∀ e ∈ d.items, e.IsPlaced plan d.start

/-- A conflict of tokens, and the two tokens. -/
structure TokenConflictDecl.IsPlaced (plan : Plan) (lo : Nat) (d : TokenConflictDecl) :
    Prop where
  start : plan.Holds lo d.start
  first : d.first.IsPlaced plan d.start
  second : d.second.IsPlaced plan d.start

/-- A literal among the tokens, and its properties. -/
structure LiteralDecl.IsPlaced (plan : Plan) (lo : Nat) (d : LiteralDecl) : Prop where
  start : plan.Holds lo d.start
  props : ∀ p ∈ d.props, p.IsPlaced plan d.start

/-- The block of token rules, and what is in it. -/
structure TokensDecl.IsPlaced (plan : Plan) (lo : Nat) (d : TokensDecl) : Prop where
  start : plan.Holds lo d.start
  rules : ∀ r ∈ d.rules, r.IsPlaced plan d.start
  precedences : ∀ p ∈ d.precedences, p.IsPlaced plan d.start
  conflicts : ∀ c ∈ d.conflicts, c.IsPlaced plan d.start
  literals : ∀ l ∈ d.literals, l.IsPlaced plan d.start

theorem TokensDecl.isPlaced_any (d : TokensDecl) (lo : Nat) : d.IsPlaced .any lo :=
  ⟨trivial, fun r _ => r.isPlaced_any _, fun _ _ => ⟨trivial, fun e _ => e.isPlaced_any _⟩,
    fun c _ => ⟨trivial, c.first.isPlaced_any _, c.second.isPlaced_any _⟩,
    fun _ _ => ⟨trivial, fun p _ => p.isPlaced_any _⟩⟩

/-- An imported name. -/
structure ExternalDecl.IsPlaced (plan : Plan) (lo : Nat) (d : ExternalDecl) : Prop where
  start : plan.Holds lo d.start
  id : plan.Holds d.start d.id.start

/-- A token of something imported. It starts with its name. -/
structure ExternalToken.IsPlaced (plan : Plan) (lo : Nat) (t : ExternalToken) : Prop where
  id : plan.Holds lo t.id.start
  props : ∀ p ∈ t.props, p.IsPlaced plan t.id.start

theorem ExternalToken.isPlaced_any (t : ExternalToken) (lo : Nat) : t.IsPlaced .any lo :=
  ⟨trivial, fun p _ => p.isPlaced_any _⟩

/-- An external tokenizer, and its tokens. -/
structure ExternalTokensDecl.IsPlaced (plan : Plan) (lo : Nat) (d : ExternalTokensDecl) :
    Prop where
  decl : d.toExternalDecl.IsPlaced plan lo
  tokens : ∀ t ∈ d.tokens, t.IsPlaced plan d.start

/-- An external specializer, the token it is for, and its tokens. -/
structure ExternalSpecializerDecl.IsPlaced (plan : Plan) (lo : Nat)
    (d : ExternalSpecializerDecl) : Prop where
  decl : d.toExternalDecl.IsPlaced plan lo
  token : d.token.IsPlaced plan d.start
  tokens : ∀ t ∈ d.tokens, t.IsPlaced plan d.start

/-- An external property with its two names. -/
structure ExternalPropDecl.IsPlaced (plan : Plan) (lo : Nat) (d : ExternalPropDecl) :
    Prop where
  decl : d.toExternalDecl.IsPlaced plan lo
  externalId : plan.Holds d.start d.externalId.start

/-- All that is in a grammar, which starts where its text does. -/
structure GrammarDecl.IsPlaced (plan : Plan) (g : GrammarDecl) : Prop where
  rules : ∀ r ∈ g.rules, r.IsPlaced plan 0
  topRules : ∀ r ∈ g.topRules, r.IsPlaced plan 0
  tokens : ∀ d ∈ g.tokens, d.IsPlaced plan 0
  context : ∀ d ∈ g.context, d.IsPlaced plan 0
  externalTokens : ∀ d ∈ g.externalTokens, d.IsPlaced plan 0
  externalSpecializers : ∀ d ∈ g.externalSpecializers, d.IsPlaced plan 0
  externalPropSources : ∀ d ∈ g.externalPropSources, d.IsPlaced plan 0
  externalProps : ∀ d ∈ g.externalProps, d.IsPlaced plan 0
  precedences : ∀ d ∈ g.precedences, d.IsPlaced plan 0
  mainSkip : ∀ e ∈ g.mainSkip, e.IsPlaced plan 0
  scopedSkips : ∀ s ∈ g.scopedSkips, s.IsPlaced plan 0
  dialects : ∀ ids ∈ g.dialects, ∀ id ∈ ids, plan.Holds 0 id.start

theorem GrammarDecl.isPlaced_any (g : GrammarDecl) : g.IsPlaced .any where
  rules r _ := r.isPlaced_any _
  topRules r _ := r.isPlaced_any _
  tokens d _ := d.isPlaced_any _
  context _ _ := ⟨trivial, trivial⟩
  externalTokens _ _ := ⟨⟨trivial, trivial⟩, fun t _ => t.isPlaced_any _⟩
  externalSpecializers d _ :=
    ⟨⟨trivial, trivial⟩, d.token.isPlaced_any _, fun t _ => t.isPlaced_any _⟩
  externalPropSources _ _ := ⟨trivial, trivial⟩
  externalProps _ _ := ⟨⟨trivial, trivial⟩, trivial⟩
  precedences _ _ := ⟨trivial, fun _ _ => trivial⟩
  mainSkip e _ := e.isPlaced_any _
  scopedSkips s _ := s.isPlaced_any _
  dialects _ _ _ _ := trivial

end GrammarCompiler
