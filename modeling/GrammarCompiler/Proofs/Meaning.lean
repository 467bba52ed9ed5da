/-
GrammarCompiler.Proofs.Meaning — what the declarations of a grammar mean.

Sequences, choices and repeats have their usual meaning, and a name stands for the
body of its rule with the arguments in place of the parameters. This gives an
equation for the language of every expression. What the declarations mean is the
least solution of these equations.

  §1 Places       — expressions apart from where they are written.
  §2 Declarations — the expressions that declarations lead to.
  §3 Equations    — the language of an expression, from those of its parts.
  §4 Solution     — the least solution, which does not depend on places.
  §5 Comparisons  — a check that expressions count as the same only if they are.
-/
import GrammarCompiler.Proofs.Stages
import Mathlib

namespace GrammarCompiler

/-! ## §1 Places -/

/-- A piece of a value apart from its place. -/
def PropPart.bare : PropPart → PropPart
  | text _ value => text 0 value
  | parameter _ name => parameter 0 name

/-- A property apart from its place. -/
def NodeProp.bare (p : NodeProp) : NodeProp :=
  { p with start := 0, value := p.value.map PropPart.bare }

/-- A marker apart from its place. -/
def Marker.bare (m : Marker) : Marker :=
  { m with start := 0, id := ⟨0, m.id.name⟩ }

namespace Expr

mutual

/-- An expression apart from the places where it and its parts are written. -/
def bare : Expr → Expr
  | name _ id args => name 0 id (bareAll args)
  | specialize _ kind props token content =>
    specialize 0 kind (props.map NodeProp.bare) token.bare content.bare
  | inlineRule _ id props body => inlineRule 0 id (props.map NodeProp.bare) body.bare
  | choice _ alternatives => choice 0 (bareAll alternatives)
  | sequence _ elements markers =>
    sequence 0 (bareAll elements) (markers.map fun gap => gap.map Marker.bare)
  | repeated _ body kind => repeated 0 body.bare kind
  | literal _ value => literal 0 value
  | set _ ranges inverted => set 0 ranges inverted
  | any _ => any 0
  | charClass _ cls => charClass 0 cls

/-- Expressions apart from places. -/
def bareAll : List Expr → List Expr
  | [] => []
  | e :: rest => e.bare :: bareAll rest

end

@[simp] theorem bareAll_eq (es : List Expr) : bareAll es = es.map bare := by
  induction es with
  | nil => rfl
  | cons e es ih => rw [bareAll, ih, List.map_cons]

end Expr

@[simp] theorem PropPart.bare_bare (p : PropPart) : p.bare.bare = p.bare := by
  cases p <;> rfl

@[simp] theorem NodeProp.bare_bare (p : NodeProp) : p.bare.bare = p.bare := by
  simp [NodeProp.bare]

@[simp] theorem NodeProp.shown_bare (p : NodeProp) : p.bare.shown = p.shown := by
  have hempty : p.bare.value.isEmpty = p.value.isEmpty := List.isEmpty_map
  have hshown : p.bare.value.map PropPart.shown = p.value.map PropPart.shown := by
    rw [NodeProp.bare, List.map_map]
    refine List.map_congr_left fun part _ => ?_
    cases part <;> rfl
  rw [NodeProp.shown, hempty, hshown]
  rfl

theorem showProps_bare (props : List NodeProp) :
    showProps (props.map NodeProp.bare) = showProps props := by
  simp [showProps, Function.comp_def]

@[simp] theorem Marker.bare_bare (m : Marker) : m.bare.bare = m.bare := rfl

@[simp] theorem Marker.shown_bare (m : Marker) : m.bare.shown = m.shown := rfl

namespace Expr

@[simp] theorem tightness_bare (e : Expr) : e.bare.tightness = e.tightness := by
  cases e <;> rfl

mutual

@[simp] theorem bare_bare : ∀ e : Expr, e.bare.bare = e.bare
  | name _ _ args => by simp [bare, map_bare_bare args]
  | specialize _ _ _ token content => by simp [bare, bare_bare token, bare_bare content]
  | inlineRule _ _ _ body => by simp [bare, bare_bare body]
  | choice _ es => by simp [bare, map_bare_bare es]
  | sequence _ es _ => by simp [bare, map_bare_bare es]
  | repeated _ body _ => by simp [bare, bare_bare body]
  | literal _ _ => rfl
  | set _ _ _ => rfl
  | any _ => rfl
  | charClass _ _ => rfl

theorem map_bare_bare : ∀ es : List Expr, es.map (bare ∘ bare) = es.map bare
  | [] => rfl
  | e :: es => by simp [bare_bare e, map_bare_bare es]

end

mutual

/-- Places do not show. -/
@[simp] theorem shown_bare : ∀ e : Expr, e.bare.shown = e.shown
  | name _ _ args => by simp [bare, shown, showAll_bare 0 args]
  | specialize _ _ props token content => by
    simp [bare, shown, showProps_bare, shown_bare token, shown_bare content]
  | inlineRule _ _ props body => by simp [bare, shown, showProps_bare, shown_bare body]
  | choice _ es => by simp [bare, shown, showAll_bare 1 es]
  | sequence _ es markers => by
    simp [bare, shown, showElements_bare es markers, Function.comp_def]
  | repeated _ body _ => by simp [bare, shown, shown_bare body]
  | literal _ _ => rfl
  | set _ _ _ => rfl
  | any _ => rfl
  | charClass _ _ => rfl

theorem showAll_bare (least : Nat) :
    ∀ es : List Expr, showAll least (es.map bare) = showAll least es
  | [] => rfl
  | e :: es => by simp [showAll, shown_bare e, showAll_bare least es]

theorem showElements_bare : ∀ (es : List Expr) (markers : List (List Marker)),
    showElements (es.map bare) (markers.map fun gap => gap.map Marker.bare) =
      showElements es markers
  | [], markers => by simp [showElements, Function.comp_def]
  | e :: es, markers => by
    cases markers with
    | nil => simpa [showElements, shown_bare e] using showElements_bare es []
    | cons gap markers =>
      simp [showElements, shown_bare e, showElements_bare es markers, Function.comp_def]

end

end Expr


namespace Substitute

/-- Two computations in sequence end alike when each of them does. -/
theorem map_bind_congr {α α' β β' : Type} {f : α → α'} {g : β → β'} {x x' : Except FaultAt α}
    {k k' : α → Except FaultAt β} (hx : x'.map f = x.map f)
    (hk : ∀ a' a, f a' = f a → (k' a').map g = (k a).map g) :
    (x' >>= k').map g = (x >>= k).map g := by
  cases x with
  | ok a =>
    cases x' with
    | ok a' => exact hk a' a (Except.ok.inj hx)
    | error _ => cases hx
  | error fault =>
    cases x' with
    | ok _ => cases hx
    | error _ =>
      cases hx
      rfl

variable (params : List Ident) (args : List Expr)

theorem argument?_bare (name : String) :
    argument? params (args.map Expr.bare) name = (argument? params args name).map Expr.bare := by
  rw [argument?, argument?]
  cases params.findIdx? fun p => p.name == name with
  | none => rfl
  | some i => exact List.getElem?_map

theorem plainText?_bare (e : Expr) : e.bare.plainText? = e.plainText? := by
  cases e with
  | name start id args => cases args <;> rfl
  | _ => rfl

theorem inPart_bare (p : PropPart) :
    inPart params (args.map Expr.bare) p = inPart params args p := by
  cases p with
  | text start value => rfl
  | parameter start name =>
    rw [inPart, inPart, argument?_bare]
    cases argument? params args name with
    | none => rfl
    | some arg => simp only [Option.map_some, plainText?_bare, Expr.shown_bare]

theorem inProps_bare (props : List NodeProp) :
    inProps params (args.map Expr.bare) props = inProps params args props := by
  have hparts : inPart params (args.map Expr.bare) = inPart params args :=
    funext (inPart_bare params args)
  rw [inProps, inProps, hparts]

theorem reference_bare (start : Nat) (name : String) {inner inner' : List Expr}
    (h : inner'.map Expr.bare = inner.map Expr.bare) :
    (reference params (args.map Expr.bare) start name inner').map Expr.bare =
      (reference params args start name inner).map Expr.bare := by
  have hname (id : String) : (Expr.name start id inner').bare = (Expr.name start id inner).bare := by
    rw [Expr.bare, Expr.bare, Expr.bareAll_eq, Expr.bareAll_eq, h]
  rw [reference.eq_def, reference.eq_def, argument?_bare]
  cases argument? params args name with
  | none => exact congrArg Except.ok (hname name)
  | some arg =>
    cases inner with
    | nil =>
      obtain rfl := List.map_eq_nil_iff.mp h
      exact congrArg Except.ok (Expr.bare_bare arg)
    | cons e rest =>
      cases inner' with
      | nil => cases h
      | cons e' rest' =>
        cases arg with
        | name start' id args' =>
          cases args' with
          | nil => exact congrArg Except.ok (hname id)
          | cons _ _ => rfl
        | _ => rfl

mutual

/-- Where arguments are written does not matter. -/
theorem inExpr_bare : ∀ e : Expr, (inExpr params (args.map Expr.bare) e).map Expr.bare =
    (inExpr params args e).map Expr.bare
  | .name start name inner =>
    map_bind_congr (inExprs_bare inner) fun _ _ h => reference_bare params args start name h
  | .specialize start kind props token content => by
    rw [inExpr, inExpr, inProps_bare]
    refine map_bind_congr (f := List.map NodeProp.bare) rfl fun _ _ hprops => ?_
    refine map_bind_congr (inExpr_bare token) fun _ _ htoken => ?_
    refine map_bind_congr (inExpr_bare content) fun _ _ hcontent => ?_
    exact congrArg Except.ok (by rw [Expr.bare, Expr.bare, hprops, htoken, hcontent])
  | .inlineRule start id props body => by
    rw [inExpr, inExpr, inProps_bare]
    refine map_bind_congr (f := List.map NodeProp.bare) rfl fun _ _ hprops => ?_
    refine map_bind_congr (inExpr_bare body) fun _ _ hbody => ?_
    exact congrArg Except.ok (by rw [Expr.bare, Expr.bare, hprops, hbody])
  | .choice start alternatives => by
    refine map_bind_congr (inExprs_bare alternatives) fun _ _ h => ?_
    exact congrArg Except.ok (by rw [Expr.bare, Expr.bare, Expr.bareAll_eq, Expr.bareAll_eq, h])
  | .sequence start elements markers => by
    refine map_bind_congr (inExprs_bare elements) fun _ _ h => ?_
    exact congrArg Except.ok (by rw [Expr.bare, Expr.bare, Expr.bareAll_eq, Expr.bareAll_eq, h])
  | .repeated start body kind => by
    refine map_bind_congr (inExpr_bare body) fun _ _ h => ?_
    exact congrArg Except.ok (by rw [Expr.bare, Expr.bare, h])
  | .literal _ _ => rfl
  | .set _ _ _ => rfl
  | .any _ => rfl
  | .charClass _ _ => rfl

theorem inExprs_bare : ∀ es : List Expr,
    (inExprs params (args.map Expr.bare) es).map (List.map Expr.bare) =
      (inExprs params args es).map (List.map Expr.bare)
  | [] => rfl
  | e :: es => by
    refine map_bind_congr (inExpr_bare e) fun _ _ h => ?_
    refine map_bind_congr (inExprs_bare es) fun _ _ hs => ?_
    exact congrArg Except.ok (by rw [List.map_cons, List.map_cons, h, hs])

end

end Substitute

/-- The body of a rule does not depend on where its arguments are written. -/
theorem RuleDecl.bodyWith_bare (rule : RuleDecl) (args : List Expr) :
    (rule.bodyWith (args.map Expr.bare)).map Expr.bare = (rule.bodyWith args).map Expr.bare := by
  rw [bodyWith, bodyWith, List.isEmpty_map]
  split
  · rfl
  · exact Substitute.inExpr_bare rule.params args rule.body

theorem Expr.literals?_bare (e : Expr) : e.bare.literals? = e.literals? := by
  have hmap (es : List Expr) : (es.map bare).mapM literal? = es.mapM literal? := by
    induction es with
    | nil => rfl
    | cons e es ih =>
      have hliteral : e.bare.literal? = e.literal? := by cases e <;> rfl
      rw [List.map_cons, List.mapM_cons, List.mapM_cons, hliteral, ih]
  cases e with
  | choice start es => rw [bare, bareAll_eq, literals?, literals?, hmap]
  | _ => rfl

theorem Draft.tokenFor?_bare (d : Draft) (name : String) (args : List Expr) :
    d.tokenFor? (.rule name (args.map Expr.bare)) = d.tokenFor? (.rule name args) := by
  have hsame (key : TokenKey) :
      key.same (.rule name (args.map Expr.bare)) = key.same (.rule name args) := by
    cases key <;> simp [TokenKey.same, Expr.allSame, Function.comp_def]
  simp only [Draft.tokenFor?, hsame]

/-! ## §2 Declarations -/

namespace GrammarDecl

/-- The rules that names can refer to. -/
def allRules (decl : GrammarDecl) : List RuleDecl :=
  decl.rules ++ decl.scopedSkips.flatMap ScopedSkip.rules

/-- The rule with a name. -/
def rule? (decl : GrammarDecl) (name : String) : Option RuleDecl :=
  decl.allRules.find? fun r => r.id.name == name

/-- The body of the rule that a name refers to, with arguments in place of parameters. -/
def bodyOf? (decl : GrammarDecl) (name : String) (args : List Expr) : Option Expr :=
  (decl.rule? name).bind fun rule => (rule.bodyWith args).toOption

theorem bodyOf?_bare (decl : GrammarDecl) (name : String) (args : List Expr) :
    (decl.bodyOf? name (args.map Expr.bare)).map Expr.bare =
      (decl.bodyOf? name args).map Expr.bare := by
  rw [bodyOf?, bodyOf?]
  cases decl.rule? name with
  | none => rfl
  | some rule =>
    have h := congrArg Except.toOption (rule.bodyWith_bare args)
    cases h₁ : rule.bodyWith (args.map Expr.bare) <;> cases h₂ : rule.bodyWith args <;>
      simp_all [Except.map, Except.toOption]

/-- The top rules in the order in which they are written. -/
def allTops (decl : GrammarDecl) : List RuleDecl :=
  (decl.topRules ++ decl.scopedSkips.flatMap ScopedSkip.topRules).mergeSort fun a b =>
    a.id.start ≤ b.id.start

/-- What is skipped somewhere. -/
def skipExprs (decl : GrammarDecl) : List Expr :=
  decl.mainSkip.toList ++ decl.scopedSkips.map ScopedSkip.expr

/-- The rules that are built even if nothing refers to them. -/
def exports (decl : GrammarDecl) : List RuleDecl :=
  decl.allRules.filter fun r => Build.isExported r && r.params.isEmpty

/-- The expressions that are worked through even if nothing refers to them. -/
def roots (decl : GrammarDecl) : List Expr :=
  decl.skipExprs ++ decl.allTops.map RuleDecl.body ++
    decl.externalSpecializers.map ExternalSpecializerDecl.token ++
      decl.exports.map RuleDecl.body

end GrammarDecl

/-- The expressions that an expression is put together from. -/
def Expr.parts : Expr → List Expr
  | choice _ es | sequence _ es _ => es
  | repeated _ e _ | inlineRule _ _ _ e | specialize _ _ _ e _ => [e]
  | _ => []

/-- The expressions that declarations lead to: those that are worked through in any case, their
parts, and the bodies of the rules that they refer to. -/
inductive GrammarDecl.Occurs (decl : GrammarDecl) : Expr → Prop where
  | root {e : Expr} (h : e ∈ decl.roots) : decl.Occurs e
  | part {e e' : Expr} (h : decl.Occurs e) (hpart : e' ∈ e.parts) : decl.Occurs e'
  | body {start : Nat} {name : String} {args : List Expr} {rule : RuleDecl} {e : Expr}
      (h : decl.Occurs (.name start name args)) (hrule : decl.rule? name = some rule)
      (he : rule.bodyWith args = .ok e) : decl.Occurs e

/-- The expressions that are compared with each other, so that those that are the same share a
symbol. -/
inductive GrammarDecl.Compared (decl : GrammarDecl) : Expr → Prop where
  | reference {start : Nat} {name : String} {args : List Expr}
      (h : decl.Occurs (.name start name args)) : decl.Compared (.name start name args)
  | repeated {start : Nat} {e : Expr} {kind : RepeatKind}
      (h : decl.Occurs (.repeated start e kind)) : decl.Compared e
  | skipped {e : Expr} (h : e ∈ decl.skipExprs) : decl.Compared e

/-- Expressions count as the same only if they are, apart from places. -/
def GrammarDecl.ComparesWell (decl : GrammarDecl) : Prop :=
  ∀ e e', decl.Compared e → decl.Compared e' → e.same e' = true → e.bare = e'.bare

/-! ## §3 Equations -/

namespace Blueprint

open Computability

/-- The token that a name refers to, if it is the name of a token. -/
def tokenOf? (b : Blueprint) (name : String) (args : List Expr) : Option Term :=
  (b.draft.tokenFor? (.rule name args)).or (Build.externalToken? b.draft name)

/-- The language of a repeated expression, from that of the expression. -/
def repetition (l : Language Term) : RepeatKind → Language Term
  | .optional => 1 + l
  | .star => l∗
  | .plus => l * l∗

/-- The right side of the equation for an expression: its language, if those of other expressions
are given by `L`. The terminals are the tokens that have been built. -/
def equation (b : Blueprint) (L : Expr → Language Term) : Expr → Language Term
  | .repeated _ e kind => repetition (L e) kind
  | .choice _ es => (es.map L).sum
  | .sequence _ es _ => (es.map L).prod
  | .inlineRule _ _ _ e => L e
  | .literal _ value => {w | ∃ t, b.draft.tokenFor? (.literal value) = some t ∧ w = [t]}
  | .name _ name args =>
    {w | (∃ t, b.tokenOf? name args = some t ∧ w = [t]) ∨
      (b.tokenOf? name args = none ∧ ∃ e, b.decl.bodyOf? name args = some e ∧ w ∈ L e)}
  | .specialize _ _ _ token content =>
    {w | ∃ base values, [base] ∈ L token ∧ content.literals? = some values ∧
      ∃ v ∈ values, ∃ s, b.draft.caseFor? base v = some s ∧ w = [s.term]}
  | .charClass _ cls => {w | cls = .eof ∧ w = [Term.eof]}
  | .set _ _ _ => 0
  | .any _ => 0

variable (b : Blueprint) {L : Expr → Language Term} {w : List Term}

theorem mem_equation_name {start : Nat} {name : String} {args : List Expr} :
    w ∈ b.equation L (.name start name args) ↔
      (∃ t, b.tokenOf? name args = some t ∧ w = [t]) ∨
        (b.tokenOf? name args = none ∧ ∃ e, b.decl.bodyOf? name args = some e ∧ w ∈ L e) :=
  Iff.rfl

theorem mem_equation_specialize {start : Nat} {kind : SpecializeKind} {props : List NodeProp}
    {token content : Expr} : w ∈ b.equation L (.specialize start kind props token content) ↔
      ∃ base values, [base] ∈ L token ∧ content.literals? = some values ∧
        ∃ v ∈ values, ∃ s, b.draft.caseFor? base v = some s ∧ w = [s.term] :=
  Iff.rfl

theorem equation_mono : Monotone b.equation := by
  intro L L' h e
  cases e with
  | repeated start e kind =>
    cases kind with
    | optional => exact add_le_add_right (h e) 1
    | star => exact kstar_mono (h e)
    | plus => exact mul_le_mul' (h e) (kstar_mono (h e))
  | choice start es => exact List.sum_le_sum fun e _ => h e
  | sequence start es markers => exact List.prod_le_prod' fun e _ => h e
  | inlineRule start id props e => exact h e
  | name start name args =>
    intro w hw
    rcases b.mem_equation_name.mp hw with htoken | ⟨hnone, e, he, hw⟩
    · exact b.mem_equation_name.mpr (.inl htoken)
    · exact b.mem_equation_name.mpr (.inr ⟨hnone, e, he, h e hw⟩)
  | specialize start kind props token content =>
    intro w hw
    obtain ⟨base, values, hbase, hrest⟩ := b.mem_equation_specialize.mp hw
    exact b.mem_equation_specialize.mpr ⟨base, values, h token hbase, hrest⟩
  | literal start value => exact le_rfl
  | set start ranges inverted => exact le_rfl
  | any start => exact le_rfl
  | charClass start cls => exact le_rfl

/-- If it makes no difference to the parts where they are written, it makes none to the whole. -/
theorem equation_bare (L : Expr → Language Term) (e : Expr) :
    b.equation (L ∘ Expr.bare) e.bare = b.equation (L ∘ Expr.bare) e := by
  have hmap (es : List Expr) : (es.map Expr.bare).map (L ∘ Expr.bare) = es.map (L ∘ Expr.bare) := by
    simp
  cases e with
  | repeated start e kind =>
    exact congrArg (repetition · kind) (congrArg L e.bare_bare)
  | choice start es =>
    rw [Expr.bare, Expr.bareAll_eq]
    exact congrArg List.sum (hmap es)
  | sequence start es markers =>
    rw [Expr.bare, Expr.bareAll_eq]
    exact congrArg List.prod (hmap es)
  | inlineRule start id props e => exact congrArg L e.bare_bare
  | name start name args =>
    have htoken : b.tokenOf? name (args.map Expr.bare) = b.tokenOf? name args := by
      rw [tokenOf?, Draft.tokenFor?_bare, tokenOf?]
    have hbody (w : List Term) : (∃ e, b.decl.bodyOf? name (args.map Expr.bare) = some e ∧
        w ∈ L e.bare) ↔ ∃ e, b.decl.bodyOf? name args = some e ∧ w ∈ L e.bare := by
      have h := b.decl.bodyOf?_bare name args
      cases h₁ : b.decl.bodyOf? name (args.map Expr.bare) <;> cases h₂ : b.decl.bodyOf? name args <;>
        simp_all
    ext w
    rw [Expr.bare, Expr.bareAll_eq, mem_equation_name, mem_equation_name, htoken]
    exact or_congr_right (and_congr_right fun _ => hbody w)
  | specialize start kind props token content =>
    ext w
    rw [Expr.bare, mem_equation_specialize, mem_equation_specialize, Expr.literals?_bare,
      Function.comp_apply, Function.comp_apply, token.bare_bare]
  | literal start value => rfl
  | set start ranges inverted => rfl
  | any start => rfl
  | charClass start cls => rfl

/-! ## §4 Solution -/

/-- The equations of all expressions. -/
def equations : (Expr → Language Term) →o (Expr → Language Term) :=
  ⟨b.equation, b.equation_mono⟩

/-- What expressions mean: the least solution of their equations. -/
def means : Expr → Language Term :=
  b.equations.lfp

theorem equation_means : b.equation b.means = b.means :=
  b.equations.map_lfp

theorem means_le (h : b.equation L ≤ L) :
    b.means ≤ L :=
  b.equations.lfp_le h

/-- What an expression means does not depend on where it is written. -/
theorem means_bare {e e' : Expr} (h : e'.bare = e.bare) :
    b.means e' = b.means e := by
  -- The words that every expression means that differs in places only.
  let L : Expr → Language Term := fun e₀ => {w | ∀ e, e.bare = e₀ → w ∈ b.means e}
  have hle : L ∘ Expr.bare ≤ b.means := fun e w hw => hw e rfl
  have hsolves : b.equation (L ∘ Expr.bare) ≤ L ∘ Expr.bare := by
    intro e w hw e' he'
    rw [← equation_bare, ← he', equation_bare] at hw
    rw [← b.equation_means]
    exact b.equation_mono hle e' hw
  have hall (e : Expr) {e' : Expr} (h : e'.bare = e.bare) : b.means e ≤ b.means e' :=
    fun w hw => b.means_le hsolves e hw e' h
  exact le_antisymm (hall e' h.symm) (hall e h)

end Blueprint

/-! ## §5 Comparisons -/

namespace Expr

mutual

/-- Whether two expressions are the same apart from places. -/
def alike : Expr → Expr → Bool
  | name _ id args, name _ id' args' => id == id' && allAlike args args'
  | specialize _ kind props token content, specialize _ kind' props' token' content' =>
    kind == kind' && props.map NodeProp.bare == props'.map NodeProp.bare &&
      alike token token' && alike content content'
  | inlineRule _ id props body, inlineRule _ id' props' body' =>
    id == id' && props.map NodeProp.bare == props'.map NodeProp.bare && alike body body'
  | choice _ es, choice _ es' => allAlike es es'
  | sequence _ es markers, sequence _ es' markers' =>
    allAlike es es' && markers.map (List.map Marker.bare) == markers'.map (List.map Marker.bare)
  | repeated _ body kind, repeated _ body' kind' => kind == kind' && alike body body'
  | literal _ value, literal _ value' => value == value'
  | set _ ranges inverted, set _ ranges' inverted' => ranges == ranges' && inverted == inverted'
  | any _, any _ => true
  | charClass _ cls, charClass _ cls' => cls == cls'
  | _, _ => false

/-- Whether the expressions in two lists are the same apart from places. -/
def allAlike : List Expr → List Expr → Bool
  | [], [] => true
  | e :: es, e' :: es' => alike e e' && allAlike es es'
  | _, _ => false

end

mutual

theorem bare_eq_of_alike : ∀ e e' : Expr, e.alike e' = true → e.bare = e'.bare
  | name _ id args, e', h => by
    cases e' <;> simp only [alike, Bool.false_eq_true, Bool.and_eq_true, beq_iff_eq] at h
    rw [bare, bare, h.1, bareAll_eq, bareAll_eq, map_bare_eq_of_allAlike _ _ h.2]
  | specialize _ kind props token content, e', h => by
    cases e' <;> simp only [alike, Bool.false_eq_true, Bool.and_eq_true, beq_iff_eq] at h
    rw [bare, bare, h.1.1.1, h.1.1.2, bare_eq_of_alike _ _ h.1.2, bare_eq_of_alike _ _ h.2]
  | inlineRule _ id props body, e', h => by
    cases e' <;> simp only [alike, Bool.false_eq_true, Bool.and_eq_true, beq_iff_eq] at h
    rw [bare, bare, h.1.1, h.1.2, bare_eq_of_alike _ _ h.2]
  | choice _ es, e', h => by
    cases e' <;> simp only [alike, Bool.false_eq_true] at h
    rw [bare, bare, bareAll_eq, bareAll_eq, map_bare_eq_of_allAlike _ _ h]
  | sequence _ es markers, e', h => by
    cases e' <;> simp only [alike, Bool.false_eq_true, Bool.and_eq_true, beq_iff_eq] at h
    rw [bare, bare, bareAll_eq, bareAll_eq, map_bare_eq_of_allAlike _ _ h.1]
    exact congrArg _ h.2
  | repeated _ body kind, e', h => by
    cases e' <;> simp only [alike, Bool.false_eq_true, Bool.and_eq_true, beq_iff_eq] at h
    rw [bare, bare, h.1, bare_eq_of_alike _ _ h.2]
  | literal _ value, e', h => by
    cases e' <;> simp only [alike, Bool.false_eq_true, beq_iff_eq] at h
    rw [bare, bare, h]
  | set _ ranges inverted, e', h => by
    cases e' <;> simp only [alike, Bool.false_eq_true, Bool.and_eq_true, beq_iff_eq] at h
    rw [bare, bare, h.1, h.2]
  | any _, e', h => by
    cases e' <;> simp only [alike, Bool.false_eq_true] at h
    rfl
  | charClass _ cls, e', h => by
    cases e' <;> simp only [alike, Bool.false_eq_true, beq_iff_eq] at h
    rw [bare, bare, h]

theorem map_bare_eq_of_allAlike :
    ∀ es es' : List Expr, allAlike es es' = true → es.map bare = es'.map bare
  | [], [], _ => rfl
  | e :: es, e' :: es', h => by
    rw [allAlike, Bool.and_eq_true] at h
    rw [List.map_cons, List.map_cons, bare_eq_of_alike _ _ h.1, map_bare_eq_of_allAlike _ _ h.2]

end

theorem parts_bare (e : Expr) : e.bare.parts = e.parts.map bare := by
  cases e <;> simp [bare, parts]

/-- What is compared when an expression is worked through. -/
def compared : Expr → List Expr
  | name start id args => [name start id args]
  | repeated _ body _ => [body]
  | _ => []

theorem compared_bare (e : Expr) : e.bare.compared = e.compared.map bare := by
  cases e <;> simp [bare, compared]

end Expr

namespace GrammarDecl

variable (decl : GrammarDecl)

/-- The body of the rule that an expression refers to, if it is a reference. -/
def bodies : Expr → List Expr
  | .name _ name args => (decl.bodyOf? name args).toList
  | _ => []

/-- What an expression leads to: its parts, and the body of the rule that it refers to. -/
def leadsTo (e : Expr) : List Expr :=
  e.parts ++ decl.bodies e

theorem leadsTo_bare (e : Expr) :
    (decl.leadsTo e.bare).map Expr.bare = (decl.leadsTo e).map Expr.bare := by
  have hbodies : (decl.bodies e.bare).map Expr.bare = (decl.bodies e).map Expr.bare := by
    cases e with
    | name start id args =>
      have h := congrArg Option.toList (decl.bodyOf?_bare id args)
      rw [Option.toList_map, Option.toList_map] at h
      rwa [Expr.bare, Expr.bareAll_eq, bodies, bodies]
    | _ => rfl
  have hparts : e.bare.parts.map Expr.bare = e.parts.map Expr.bare := by
    rw [e.parts_bare, List.map_map]
    exact List.map_congr_left fun e' _ => e'.bare_bare
  rw [leadsTo, List.map_append, hparts, hbodies, leadsTo, List.map_append]

/-- The expressions that declarations lead to in a number of steps, without those that are the
same. -/
def reached : (steps : Nat) → List Expr
  | 0 => decl.roots
  | steps + 1 =>
    let es := reached steps
    es ++ (es.flatMap decl.leadsTo).filter fun e => !es.any e.alike

/-- Whether a number of steps is enough, and the expressions that are come to count as the same only
if they are. -/
def checksComparisons (steps : Nat) : Bool :=
  let es := decl.reached steps
  let compared := decl.skipExprs ++ es.flatMap Expr.compared
  es.all (fun e => (decl.leadsTo e).all fun e' => es.any e'.alike) &&
    compared.all fun e => compared.all fun e' => !e.same e' || e.alike e'

variable {decl} {steps : Nat}

theorem roots_subset_reached (steps : Nat) : decl.roots ⊆ decl.reached steps := by
  induction steps with
  | zero => exact List.Subset.refl _
  | succ steps ih => exact fun e he => List.mem_append_left _ (ih he)

/-- What occurs is reached, if nothing else is reached in more steps. -/
theorem exists_reached_of_occurs (hclosed : ∀ e ∈ decl.reached steps, ∀ e' ∈ decl.leadsTo e,
    ∃ e'' ∈ decl.reached steps, e'.alike e'' = true) {e : Expr} (h : decl.Occurs e) :
    ∃ e' ∈ decl.reached steps, e'.bare = e.bare := by
  have hleads {e e' : Expr} (ih : ∃ e₁ ∈ decl.reached steps, e₁.bare = e.bare)
      (he' : e' ∈ decl.leadsTo e) : ∃ e₁ ∈ decl.reached steps, e₁.bare = e'.bare := by
    obtain ⟨e₁, he₁, hbare⟩ := ih
    have hmem := List.mem_map_of_mem (f := Expr.bare) he'
    rw [← decl.leadsTo_bare, ← hbare, decl.leadsTo_bare] at hmem
    obtain ⟨e₂, he₂, hbare₂⟩ := List.mem_map.mp hmem
    obtain ⟨e₃, he₃, halike⟩ := hclosed e₁ he₁ e₂ he₂
    exact ⟨e₃, he₃, (Expr.bare_eq_of_alike _ _ halike).symm.trans hbare₂⟩
  induction h with
  | root h => exact ⟨_, roots_subset_reached steps h, rfl⟩
  | part _ hpart ih => exact hleads ih (List.mem_append_left _ hpart)
  | @body start name args rule e _ hrule he ih =>
    refine hleads ih (List.mem_append_right _ ?_)
    rw [bodies, bodyOf?, hrule, Option.bind_some, he]
    exact List.mem_singleton_self e

/-- The check is right. -/
theorem comparesWell_of_checks (h : decl.checksComparisons steps = true) : decl.ComparesWell := by
  rw [checksComparisons, Bool.and_eq_true] at h
  have hclosed : ∀ e ∈ decl.reached steps, ∀ e' ∈ decl.leadsTo e,
      ∃ e'' ∈ decl.reached steps, e'.alike e'' = true := by
    simpa only [List.all_eq_true, List.any_eq_true] using h.1
  have hfound {e : Expr} (he : decl.Compared e) :
      ∃ e' ∈ decl.skipExprs ++ (decl.reached steps).flatMap Expr.compared, e'.bare = e.bare := by
    have hoccurs {e e' : Expr} (h : decl.Occurs e) (he' : e' ∈ e.compared) :
        ∃ e'' ∈ (decl.reached steps).flatMap Expr.compared, e''.bare = e'.bare := by
      obtain ⟨e₁, he₁, hbare⟩ := exists_reached_of_occurs hclosed h
      have hmem := List.mem_map_of_mem (f := Expr.bare) he'
      rw [← e.compared_bare, ← hbare, e₁.compared_bare] at hmem
      obtain ⟨e₂, he₂, hbare₂⟩ := List.mem_map.mp hmem
      exact ⟨e₂, List.mem_flatMap.mpr ⟨e₁, he₁, he₂⟩, hbare₂⟩
    cases he with
    | reference h =>
      obtain ⟨e', he', hbare⟩ := hoccurs h (List.mem_singleton_self _)
      exact ⟨e', List.mem_append_right _ he', hbare⟩
    | repeated h =>
      obtain ⟨e', he', hbare⟩ := hoccurs h (List.mem_singleton_self _)
      exact ⟨e', List.mem_append_right _ he', hbare⟩
    | skipped h => exact ⟨e, List.mem_append_left _ h, rfl⟩
  intro e e' he he' hsame
  obtain ⟨e₁, he₁, hbare₁⟩ := hfound he
  obtain ⟨e₂, he₂, hbare₂⟩ := hfound he'
  have hsame' : e₁.same e₂ = true := by
    rwa [Expr.same, ← e₁.shown_bare, ← e₂.shown_bare, hbare₁, hbare₂, e.shown_bare, e'.shown_bare,
      ← Expr.same]
  have hall := List.all_eq_true.mp (List.all_eq_true.mp h.2 e₁ he₁) e₂ he₂
  rw [hsame', Bool.not_true, Bool.false_or] at hall
  rw [← hbare₁, ← hbare₂]
  exact Expr.bare_eq_of_alike _ _ hall

end GrammarDecl

end GrammarCompiler
