/-
GrammarCompiler.Proofs.Instantiating — building with arguments in scope is building
with arguments put in their places.

An argument is built in the scope where it is written, each time that its parameter
is met. So a place where arguments are in scope stands for an expression in which
there are none: arguments take the place of parameters, after the same has been done
to them. What is built at the place lays this expression, as long as a reference only
leads back to an open one if it stands for the same.

  §1 Substituting — expressions that places stand for.
  §2 Fairness     — references that lead back to what they stand for.
  §3 Building     — building at a fair place lays what it stands for.
  §4 References   — the tokens of references.
-/
import GrammarCompiler.Proofs.Expanding
import GrammarCompiler.Proofs.Laying

namespace GrammarCompiler

open Substitute (inExpr inExprs inProps inPart argument?)

/-! ## §1 Substituting -/

namespace Substitute

theorem inPart_nil (part : PropPart) : inPart [] [] part = .ok part := by
  cases part <;> rfl

theorem inProps_nil (props : List NodeProp) : inProps [] [] props = .ok props := by
  have hparts (parts : List PropPart) : parts.mapM (inPart [] []) = .ok parts := by
    induction parts with
    | nil => rfl
    | cons part parts ih =>
      rw [List.mapM_cons, inPart_nil, ih]
      rfl
  rw [inProps]
  induction props with
  | nil => rfl
  | cons p props ih =>
    rw [List.mapM_cons, ih, hparts]
    rfl

mutual

/-- Nothing changes where there are no parameters. -/
theorem inExpr_nil : ∀ e : Expr, inExpr [] [] e = .ok e
  | .name start name args => by
    rw [inExpr, inExprs_nil args]
    rfl
  | .specialize start kind props token content => by
    rw [inExpr, inProps_nil, inExpr_nil token, inExpr_nil content]
    rfl
  | .inlineRule start id props body => by
    rw [inExpr, inProps_nil, inExpr_nil body]
    rfl
  | .choice start alternatives => by
    rw [inExpr, inExprs_nil alternatives]
    rfl
  | .sequence start elements markers => by
    rw [inExpr, inExprs_nil elements]
    rfl
  | .repeated start body kind => by
    rw [inExpr, inExpr_nil body]
    rfl
  | .literal .. | .set .. | .any _ | .charClass .. => by
    rw [inExpr]

theorem inExprs_nil : ∀ es : List Expr, inExprs [] [] es = .ok es
  | [] => by
    rw [inExprs]
  | e :: es => by
    rw [inExprs, inExpr_nil e, inExprs_nil es]
    rfl

end

/-- A name that is no parameter stays. -/
theorem reference_of_none {params : List Ident} {args : List Expr} {name : String}
    (h : argument? params args name = none) (start : Nat) (inner : List Expr) :
    reference params args start name inner = .ok (.name start name inner) := by
  unfold reference
  rw [h]

/-- An argument takes the place of its parameter. -/
theorem reference_of_some {params : List Ident} {args : List Expr} {name : String} {arg : Expr}
    (h : argument? params args name = some arg) (start : Nat) :
    reference params args start name [] = .ok arg := by
  unfold reference
  rw [h]

/-- Each of several expressions becomes another one. -/
theorem forall₂_of_inExprs {params : List Ident} {args es es' : List Expr}
    (h : inExprs params args es = .ok es') :
    List.Forall₂ (fun e e' => inExpr params args e = .ok e') es es' := by
  induction es generalizing es' with
  | nil =>
    rw [inExprs] at h
    cases h
    exact .nil
  | cons e es ih =>
    rw [inExprs] at h
    obtain ⟨e', he, h⟩ := exists_ok_of_bind h
    obtain ⟨rest, hrest, h⟩ := exists_ok_of_bind h
    cases h
    exact .cons he (ih hrest)

/-- Arguments take the place of parameters in expressions that can be read, if they can be read
themselves. -/
theorem isReadable_inExpr {params : List Ident} {args : List Expr} {e e' : Expr}
    (he : e.IsReadable) (hargs : ∀ a ∈ args, a.IsReadable) (h : inExpr params args e = .ok e') :
    e'.IsReadable := by
  have hall {es es' : List Expr} (hes : inExprs params args es = .ok es')
      (ih : ∀ e ∈ es, ∀ {e'}, inExpr params args e = .ok e' → e'.IsReadable) :
      es'.length = es.length ∧ ∀ e' ∈ es', e'.IsReadable := by
    have hforall := forall₂_of_inExprs hes
    refine ⟨hforall.length_eq.symm, fun e' he' => ?_⟩
    obtain ⟨e, he, h⟩ := exists_of_mem_forall₂ hforall.flip he'
    exact ih e he h
  induction he generalizing e' with
  | @name start id inner hid hany _ ih =>
    rw [inExpr] at h
    obtain ⟨inner', hinner, h⟩ := exists_ok_of_bind h
    obtain ⟨-, hinner'⟩ := hall hinner ih
    have harg {arg : Expr} (hfound : argument? params args id = some arg) : arg.IsReadable := by
      obtain ⟨i, -, hi⟩ := Option.bind_eq_some_iff.mp hfound
      exact hargs arg (List.mem_of_getElem? hi)
    unfold reference at h
    split at h
    next =>
      cases h
      exact .name start hid hany hinner'
    next hfound =>
      cases h
      exact harg hfound
    next hfound _ =>
      cases h
      cases harg hfound with
      | name _ hid hany _ => exact .name start hid hany hinner'
    next => cases h
  | specialize start kind props _ _ ihtoken ihcontent =>
    rw [inExpr] at h
    obtain ⟨props', -, h⟩ := exists_ok_of_bind h
    obtain ⟨token', htoken, h⟩ := exists_ok_of_bind h
    obtain ⟨content', hcontent, h⟩ := exists_ok_of_bind h
    cases h
    exact .specialize start kind props' (ihtoken htoken) (ihcontent hcontent)
  | inlineRule start props hid hany _ ih =>
    rw [inExpr] at h
    obtain ⟨props', -, h⟩ := exists_ok_of_bind h
    obtain ⟨body', hbody, h⟩ := exists_ok_of_bind h
    cases h
    exact .inlineRule start props' hid hany (ih hbody)
  | choice start hlength _ ih =>
    rw [inExpr] at h
    obtain ⟨alternatives', halternatives, h⟩ := exists_ok_of_bind h
    obtain ⟨hsame, hreadable⟩ := hall halternatives ih
    cases h
    exact .choice start (hsame ▸ hlength) hreadable
  | sequence start hlength hsingle hnames _ ih =>
    rw [inExpr] at h
    obtain ⟨elements', helements, h⟩ := exists_ok_of_bind h
    obtain ⟨hsame, hreadable⟩ := hall helements ih
    cases h
    exact .sequence start (hsame ▸ hlength) (hsame ▸ hsingle) hnames hreadable
  | repeated start kind _ ih =>
    rw [inExpr] at h
    obtain ⟨body', hbody, h⟩ := exists_ok_of_bind h
    cases h
    exact .repeated start kind (ih hbody)
  | literal start value =>
    rw [inExpr] at h
    cases h
    exact .literal start value
  | set start inverted hcanonical =>
    rw [inExpr] at h
    cases h
    exact .set start inverted hcanonical
  | any start =>
    rw [inExpr] at h
    cases h
    exact .any start
  | charClass start cls =>
    rw [inExpr] at h
    cases h
    exact .charClass start cls

end Substitute

theorem RuleDecl.isReadable_bodyWith {rule : RuleDecl} {args : List Expr} {body : Expr}
    (hrule : rule.body.IsReadable) (hargs : ∀ a ∈ args, a.IsReadable)
    (h : rule.bodyWith args = .ok body) : body.IsReadable := by
  rw [bodyWith] at h
  split at h
  next =>
    cases h
    exact hrule
  next => exact Substitute.isReadable_inExpr hrule hargs h

/-- The body of a rule is one with the arguments in place of the parameters, also
where there are none. -/
theorem RuleDecl.bodyWith_eq {rule : RuleDecl} {args : List Expr}
    (h : rule.params.length = args.length) :
    rule.bodyWith args = inExpr rule.params args rule.body := by
  rw [bodyWith]
  split
  next hargs =>
    obtain rfl := List.isEmpty_iff.mp hargs
    rw [List.length_eq_zero_iff.mp h, Substitute.inExpr_nil]
  next => rfl

namespace TokenBuild

open Nfa

/-- Arguments in scope, with their parameters and what they stand for: an argument is what it is
in its own scope. -/
inductive Closes : List Binding → List Ident → List Expr → Prop
  | nil : Closes [] [] []
  | cons {param : Ident} {expr closed : Expr} {outer scope : List Binding}
      {outerParams params : List Ident} {outerArgs args : List Expr}
      (houter : Closes outer outerParams outerArgs)
      (h : inExpr outerParams outerArgs expr = .ok closed) (others : Closes scope params args) :
      Closes (.mk param.name expr outer :: scope) (param :: params) (closed :: args)

/-- What expressions stand for where arguments are in scope. -/
def Stand (scope : List Binding) (es es' : List Expr) : Prop :=
  ∃ params args, Closes scope params args ∧ inExprs params args es = .ok es'

variable {rules : List RuleDecl} {scope : List Binding} {params : List Ident} {args : List Expr}
  {name : String} {e e' : Expr} {start : Nat}

theorem argument?_cons (param : Ident) (arg : Expr) (params : List Ident) (args : List Expr)
    (name : String) : argument? (param :: params) (arg :: args) name =
      if param.name == name then some arg else argument? params args name := by
  rw [argument?, List.findIdx?_cons]
  split
  · rfl
  · rw [argument?, Option.bind_map]
    rfl

/-- A name that no argument in scope is for is no parameter. -/
theorem Closes.argument?_eq_none (h : Closes scope params args)
    (hname : scope.find? (fun b => b.name == name) = none) : argument? params args name = none := by
  induction h with
  | nil => rfl
  | cons _ _ _ _ ih =>
    rw [List.find?_cons] at hname
    rw [argument?_cons]
    split at hname
    next => cases hname
    next hne => rw [if_neg (by simpa [Binding.name] using hne), ih hname]

/-- The argument that is found in scope stands for what takes the place of its parameter. -/
theorem Closes.exists_of_find? (h : Closes scope params args) {b : Binding}
    (hb : scope.find? (fun b => b.name == name) = some b) :
    ∃ outerParams outerArgs closed, Closes b.target.1 outerParams outerArgs ∧
      inExpr outerParams outerArgs b.target.2 = .ok closed ∧
        argument? params args name = some closed := by
  induction h with
  | nil => cases hb
  | @cons param _ _ _ _ _ _ _ _ houter hclosed _ _ ih =>
    rw [List.find?_cons] at hb
    rw [argument?_cons]
    split at hb
    next heq =>
      cases hb
      exact ⟨_, _, _, houter, hclosed, if_pos (by simpa [Binding.name] using heq)⟩
    next hne =>
      rw [if_neg (by simpa [Binding.name] using hne)]
      exact ih hb

/-- The arguments of a reference stand for themselves with arguments put in place. -/
theorem Closes.bound (h : Closes scope params args) {inner inner' : List Expr} {rule : RuleDecl}
    (hinner : inExprs params args inner = .ok inner')
    (harity : rule.params.length = inner.length) :
    Closes (bound rule inner scope) rule.params inner' := by
  have hall := Substitute.forall₂_of_inExprs hinner
  unfold TokenBuild.bound
  generalize rule.params = formal at harity
  clear hinner
  induction hall generalizing formal with
  | nil =>
    obtain rfl := List.length_eq_zero_iff.mp harity
    exact .nil
  | cons hfirst _ ih =>
    obtain ⟨param, formal, rfl⟩ := List.exists_cons_of_length_eq_add_one harity
    exact .cons h hfirst (ih formal (Nat.succ.inj harity))

/-- The expressions that an expression leads to where arguments take the place of parameters: its
parts, and the bodies of rules that it refers to. -/
inductive Meets (rules : List RuleDecl) : Expr → Expr → Prop
  | refl (e : Expr) : Meets rules e e
  | part {e part e' : Expr} (hpart : part ∈ parts e) (h : Meets rules part e') : Meets rules e e'
  | body {start : Nat} {name : String} {args : List Expr} {rule : RuleDecl} {body e' : Expr}
      (hr : rules.find? (fun r => r.id.name == name) = some rule)
      (hb : rule.bodyWith args = .ok body) (h : Meets rules body e') :
      Meets rules (.name start name args) e'

/-- Arguments can be put in place of parameters wherever a reference is met. -/
def HasMeaning (rules : List RuleDecl) (e : Expr) : Prop :=
  ∀ ⦃start name args rule⦄, Meets rules e (.name start name args) →
    rules.find? (fun r => r.id.name == name) = some rule → rule.params.length = args.length →
      ∃ body, rule.bodyWith args = .ok body

theorem HasMeaning.of_part (h : HasMeaning rules e) (he' : e' ∈ parts e) : HasMeaning rules e' :=
  fun _ _ _ _ hmeets => h (.part he' hmeets)

theorem HasMeaning.of_body {rule : RuleDecl} {body : Expr}
    (h : HasMeaning rules (.name start name args))
    (hr : rules.find? (fun r => r.id.name == name) = some rule)
    (hb : rule.bodyWith args = .ok body) : HasMeaning rules body :=
  fun _ _ _ _ hmeets => h (.body hr hb hmeets)

/-- An expression has a meaning if arguments can be put in place of the parameters of each rule,
whatever they are. -/
theorem hasMeaning_of_forall (h : ∀ rule ∈ rules, ∀ args, rule.params.length = args.length →
    ∃ body, rule.bodyWith args = .ok body) (e : Expr) : HasMeaning rules e :=
  fun _ _ _ _ _ hr harity => h _ (List.mem_of_find?_eq_some hr) _ harity

/-! ## §2 Fairness -/

/-- Where a reference that is met prints like one that is open, it has the same arguments, once
they are put in place of parameters. -/
def Place.IsFair (rules : List RuleDecl) (p : Place) : Prop :=
  ∀ ⦃opened scope start name args⦄, p.Leads rules ⟨opened, scope, .name start name args⟩ →
    ∀ r ∈ opened, (⟨opened, scope, .name start name args⟩ : Place).repeats r = true →
      ∀ ⦃args' openArgs⦄, Stand scope args args' → Stand r.scope r.args openArgs → openArgs = args'

theorem Place.IsFair.next {p q : Place} (h : p.IsFair rules) (hq : q ∈ p.nexts rules) :
    q.IsFair rules :=
  fun _ _ _ _ _ hmet => h (.head hq hmet)

theorem Place.IsClear.isFair {p : Place} (h : p.IsClear rules) : p.IsFair rules := by
  intro opened scope start name args hmet r hr hrepeats
  rw [h _ hmet r hr] at hrepeats
  cases hrepeats

/-- If rules have no parameters, there never are arguments in scope, and open references have none
either. -/
theorem Place.Leads.without_arguments (hparams : ∀ rule ∈ rules, rule.params = []) {p q : Place}
    (h : p.Leads rules q) (hscope : p.scope = []) (hopened : ∀ r ∈ p.opened, r.args = []) :
    q.scope = [] ∧ ∀ r ∈ q.opened, r.args = [] := by
  induction h with
  | refl => exact ⟨hscope, hopened⟩
  | @tail p q _ hq ih =>
    obtain ⟨opened, scope, e⟩ := p
    obtain ⟨rfl, hopened⟩ := ih
    cases e with
    | name start name args =>
      rw [Place.nexts] at hq
      dsimp only [List.find?_nil] at hq
      split at hq
      next rule hrule =>
        have hnone := hparams rule (List.mem_of_find?_eq_some hrule)
        split at hq
        next harity =>
          obtain rfl := List.mem_singleton.mp hq
          rw [hnone] at harity
          have hargs : args = [] := List.length_eq_zero_iff.mp harity.symm
          refine ⟨by simp [TokenBuild.bound, hnone], List.forall_mem_cons.mpr ⟨hargs, hopened⟩⟩
        next => cases hq
      next => cases hq
    | _ =>
      obtain ⟨part, -, rfl⟩ := List.mem_map.mp hq
      exact ⟨rfl, hopened⟩

theorem stand_nil {es' : List Expr} (h : Stand scope [] es') : es' = [] := by
  obtain ⟨_, _, _, h⟩ := h
  cases h
  rfl

theorem isFair_of_params_nil (hparams : ∀ rule ∈ rules, rule.params = []) (e : Expr) :
    (⟨[], [], e⟩ : Place).IsFair rules := by
  intro opened scope start name args hmet r hr hrepeats args' openArgs hargs hopen
  have hnone : r.args = [] := (hmet.without_arguments hparams rfl nofun).2 r hr
  simp only [Place.repeats, hnone, Expr.allSame, Bool.and_eq_true, beq_iff_eq, List.map_nil,
    List.nil_eq, List.map_eq_nil_iff] at hrepeats
  rw [hnone] at hopen
  rw [hrepeats.2] at hargs
  rw [stand_nil hopen, stand_nil hargs]

/-! ## §3 Building -/

/-- What builds an expression lays it. -/
def Builds (rules : List RuleDecl) (building : List OpenRule)
    (build : Nat → Nat → Action Unit) (e : Expr) : Prop :=
  ∀ ⦃s t : Nat⦄ ⦃p p' : Progress⦄, build s t p = .ok ((), p') → s < p.automaton.size →
    t < p.automaton.size → Lays rules building e s t p.automaton p'.automaton

section

variable {building : List OpenRule} {s t : Nat} {p p' : Progress}

section

variable {again : Expr → Nat → Nat → Action Unit} {es es' : List Expr}
  (hagain : List.Forall₂ (fun e e' => Builds rules building (again e) e') es es')
include hagain

theorem lays_choice (h : (es.forM fun e => again e s t) p = .ok ((), p'))
    (hs : s < p.automaton.size) (ht : t < p.automaton.size) :
    Lays rules building (.choice start es') s t p.automaton p'.automaton := by
  induction hagain generalizing p with
  | nil =>
    cases h
    exact .noChoice
  | cons hfirst _ ih =>
    obtain ⟨_, p₁, h₁, h⟩ := exists_ok_of_stateT_bind h
    have hlays := hfirst h₁ hs ht
    exact .choice hlays (ih h (hlays.lt_size hs) (hlays.lt_size ht))

theorem lays_chain (markers : List (List Marker)) (hne : es ≠ [])
    (h : chain again es s t p = .ok ((), p')) (hs : s < p.automaton.size)
    (ht : t < p.automaton.size) :
    Lays rules building (.sequence start es' markers) s t p.automaton p'.automaton := by
  induction hagain generalizing s p with
  | nil => exact absurd rfl hne
  | cons hfirst hrest ih =>
    cases hrest with
    | nil => exact .last (hfirst h hs ht)
    | cons =>
      obtain ⟨_, p₁, hnew, h⟩ := exists_ok_of_stateT_bind h
      obtain ⟨rfl, hp₁⟩ := newState_ok hnew
      obtain ⟨_, p₂, h₂, h⟩ := exists_ok_of_stateT_bind h
      have hsize : p₁.automaton.size = p.automaton.size + 1 := hp₁ ▸ size_addState _
      have hlays := hfirst h₂ (by omega) (by omega)
      have hlater := ih (List.cons_ne_nil _ _) h (hlays.lt_size (by omega))
        (hlays.lt_size (by omega))
      rw [hp₁] at hlays
      exact .cons hlays hlater

end

section

variable {build : Nat → Nat → Action Unit} {body : Expr}
  (hbuild : Builds rules building build body)
include hbuild

theorem lays_star (h : (do
      let loop ← newState
      change fun a => a.addEmpty s loop
      build loop loop
      change fun a => a.addEmpty loop t : Action Unit) p = .ok ((), p')) :
    Lays rules building (.repeated start body .star) s t p.automaton p'.automaton := by
  obtain ⟨_, p₁, hnew, h⟩ := exists_ok_of_stateT_bind h
  obtain ⟨rfl, hp₁⟩ := newState_ok hnew
  obtain ⟨_, p₂, hempty, h⟩ := exists_ok_of_stateT_bind h
  have hp₂ := change_ok hempty
  rw [hp₁] at hp₂
  obtain ⟨_, p₃, hbody, h⟩ := exists_ok_of_stateT_bind h
  have hsize : p₂.automaton.size = p.automaton.size + 1 := by simp [hp₂]
  have hlays := hbuild hbody (by omega) (by omega)
  rw [hp₂] at hlays
  rw [change_ok h]
  exact .star hlays

theorem lays_plus (h : (do
      let loop ← newState
      build s loop
      build loop loop
      change fun a => a.addEmpty loop t : Action Unit) p = .ok ((), p'))
    (hs : s < p.automaton.size) :
    Lays rules building (.repeated start body .plus) s t p.automaton p'.automaton := by
  obtain ⟨_, p₁, hnew, h⟩ := exists_ok_of_stateT_bind h
  obtain ⟨rfl, hp₁⟩ := newState_ok hnew
  obtain ⟨_, p₂, hfirst, h⟩ := exists_ok_of_stateT_bind h
  obtain ⟨_, p₃, hlater, h⟩ := exists_ok_of_stateT_bind h
  have hsize : p₁.automaton.size = p.automaton.size + 1 := hp₁ ▸ size_addState _
  have hlays := hbuild hfirst (by omega) (by omega)
  have hlays' := hbuild hlater (hlays.lt_size (by omega)) (hlays.lt_size (by omega))
  rw [hp₁] at hlays
  rw [change_ok h]
  exact .plus hlays hlays'

theorem lays_optional (h : (do
      change fun a => a.addEmpty s t
      build s t : Action Unit) p = .ok ((), p'))
    (hs : s < p.automaton.size) (ht : t < p.automaton.size) :
    Lays rules building (.repeated start body .optional) s t p.automaton p'.automaton := by
  obtain ⟨_, p₁, hempty, h⟩ := exists_ok_of_stateT_bind h
  have hp₁ := change_ok hempty
  have hsize : p₁.automaton.size = p.automaton.size := by simp [hp₁]
  have hlays := hbuild h (by omega) (by omega)
  rw [hp₁] at hlays
  exact .optional hlays

end

end

/-- The rules that are built, as they are open, and as they stand for others. -/
def Carries (opened : List Reference) (building building' : List OpenRule) : Prop :=
  ∀ r ∈ building, ∃ scope args', ⟨r.name, r.args, scope⟩ ∈ opened ∧ Stand scope r.args args' ∧
    ⟨r.name, args', r.entry, r.exit⟩ ∈ building'

theorem Carries.cons {opened : List Reference} {building building' : List OpenRule}
    (h : Carries opened building building') {args' : List Expr} (hargs : Stand scope args args')
    (entry exit : Nat) : Carries (⟨name, args, scope⟩ :: opened)
      (⟨name, args, entry, exit⟩ :: building) (⟨name, args', entry, exit⟩ :: building') := by
  refine List.forall_mem_cons.mpr ⟨⟨scope, args', by simp, hargs, by simp⟩, fun r hr => ?_⟩
  obtain ⟨scope', openArgs, hmem, hstand, hmem'⟩ := h r hr
  exact ⟨scope', openArgs, List.mem_cons_of_mem _ hmem, hstand, List.mem_cons_of_mem _ hmem'⟩

/-- Building the rule of a reference lays the reference, if building its body lays its body. -/
theorem lays_addRule {opened : List Reference} {building building' : List OpenRule}
    {again : List OpenRule → List Binding → Expr → Nat → Nat → Action Unit} {rule : RuleDecl}
    {args' : List Expr} (place : Nat)
    (hr : rules.find? (fun r => r.id.name == name) = some rule)
    (hopen : ∀ r ∈ opened, r.name = name → Expr.allSame r.args args = true →
      ∀ openArgs, Stand r.scope r.args openArgs → openArgs = args')
    (hcarries : Carries opened building building')
    (hagain : rule.params.length = args.length → ∃ body', rule.bodyWith args' = .ok body' ∧
      ∀ entry exit, Builds rules (⟨name, args', entry, exit⟩ :: building')
        (again (⟨name, args, entry, exit⟩ :: building) (bound rule args scope) rule.body) body') :
    Builds rules building' (addRule again building scope rule place args)
      (.name start name args') := by
  obtain rfl : rule.id.name = name := by simpa using List.find?_some hr
  intro s t p p' h hs ht
  rw [addRule] at h
  dsimp only at h
  split at h
  next => cases h
  next harity =>
    have harity : rule.params.length = args.length := by simpa using harity
    cases hfound : building.find? fun r => r.name == rule.id.name && Expr.allSame r.args args with
    | some r =>
      -- The open rule only prints like the reference, so what both stand for has to be compared.
      obtain ⟨hname, hsame⟩ : r.name = rule.id.name ∧ Expr.allSame r.args args = true := by
        simpa using List.find?_some hfound
      obtain ⟨scope', openArgs, hmem, hstand, hmem'⟩ :=
        hcarries r (List.mem_of_find?_eq_some hfound)
      obtain rfl := hopen _ hmem hname hsame openArgs hstand
      rw [hfound] at h
      dsimp only at h
      split at h
      next hexit =>
        subst hexit
        rw [change_ok h, ← hname]
        exact .back hmem'
      next => cases h
    | none =>
      rw [hfound] at h
      obtain ⟨_, p₁, hused, h⟩ := exists_ok_of_stateT_bind h
      cases hused
      obtain ⟨_, p₂, hnew, h⟩ := exists_ok_of_stateT_bind h
      obtain ⟨rfl, hp₂⟩ := newState_ok hnew
      obtain ⟨_, p₃, hempty, h⟩ := exists_ok_of_stateT_bind h
      have hp₃ := change_ok hempty
      rw [hp₂] at hp₃
      have hsize : p₃.automaton.size = p.automaton.size + 1 := by simp [hp₃]
      obtain ⟨body', hb, hbuild⟩ := hagain harity
      have hlays := hbuild _ _ h (by dsimp only; omega) (by omega)
      rw [hp₃] at hlays
      exact .enter hr hb hlays

section

variable {pool : List Expr} (hpool : IsPool rules pool) (hsets : ∀ e ∈ pool, e.IsCanonical)
include hpool hsets

/-- Building at a fair place lays what the place stands for. -/
theorem lays_addExpr (fuel : Nat) {depth : Nat} {opened : List Reference}
    {building building' : List OpenRule} (hfair : (⟨opened, scope, e⟩ : Place).IsFair rules)
    (hwritten : (⟨opened, scope, e⟩ : Place).IsWritten pool depth)
    (hscope : Closes scope params args) (he : inExpr params args e = .ok e')
    (hmeaning : HasMeaning rules e') (hcarries : Carries opened building building') :
    Builds rules building' (addExpr rules fuel building scope e) e' := by
  -- On the steps that are left: an argument is built in its own scope, which is no part of this one.
  induction fuel generalizing opened scope params args e e' depth building building' with
  | zero => rintro s t p p' ⟨⟩
  | succ fuel ih =>
    have hpart {part part' : Expr} (h : part ∈ parts e) (h' : part' ∈ parts e')
        (hpart : inExpr params args part = .ok part') :
        Builds rules building' (addExpr rules fuel building scope part) part' :=
      ih (hfair.next (mem_nexts_part h)) (hwritten.of_part hpool h) hscope hpart
        (hmeaning.of_part h') hcarries
    have hall {es es' : List Expr} (hes : inExprs params args es = .ok es')
        (hparts : es ⊆ parts e) (hparts' : es' ⊆ parts e') :
        List.Forall₂ (fun e e' => Builds rules building' (addExpr rules fuel building scope e) e')
          es es' := by
      have hforall := Substitute.forall₂_of_inExprs hes
      refine List.forall₂_iff_zip.mpr ⟨hforall.length_eq, fun hmem => ?_⟩
      obtain ⟨h, h'⟩ := List.of_mem_zip hmem
      exact hpart (hparts h) (hparts' h') (List.forall₂_zip hforall hmem)
    have hleaf (hleaf : isLeaf e = true) (heq : .ok e = Except.ok (ε := FaultAt) e') :
        Builds rules building' (addExpr rules (fuel + 1) building scope e) e' := by
      cases heq
      exact fun s t p p' h hs ht => lays_leaf hleaf (hsets e hwritten.expr) h hs ht
    intro s t p p' h hs ht
    cases e with
    | name start name inner =>
      rw [inExpr] at he
      obtain ⟨inner', hinner, he⟩ := exists_ok_of_bind he
      rw [addExpr] at h
      cases hfound : scope.find? fun b => b.name == name with
      | some b =>
        rw [hfound] at h
        obtain ⟨outerParams, outerArgs, closed, houter, hclosed, harg⟩ :=
          hscope.exists_of_find? hfound
        obtain ⟨param, expr, outer⟩ := b
        dsimp only at h
        split at h
        next hempty =>
          obtain rfl := List.isEmpty_iff.mp hempty
          cases hinner
          cases (Substitute.reference_of_some harg start).symm.trans he
          obtain ⟨depth, rfl, hwritten'⟩ := hwritten.of_argument hfound
          exact ih (hfair.next (mem_nexts_argument hfound)) hwritten' houter hclosed hmeaning
            hcarries h hs ht
        next => cases h
      | none =>
        rw [hfound] at h
        cases (Substitute.reference_of_none (hscope.argument?_eq_none hfound) start
          inner').symm.trans he
        dsimp only at h
        cases hr : rules.find? fun r => r.id.name == name with
        | some rule =>
          rw [hr] at h
          have hstand : Stand scope inner inner' := ⟨params, args, hscope, hinner⟩
          refine lays_addRule start hr (fun r hopen hname hsame openArgs hopenArgs => ?_)
            hcarries (fun harity => ?_) h hs ht
          · refine hfair .refl r hopen ?_ hstand hopenArgs
            simp [Place.repeats, hfound, hname, hsame]
          · have harity' : rule.params.length = inner'.length :=
              harity.trans (Substitute.forall₂_of_inExprs hinner).length_eq
            obtain ⟨body', hbody⟩ := hmeaning (.refl _) hr harity'
            refine ⟨body', hbody, fun entry exit => ?_⟩
            refine ih (hfair.next (mem_nexts_reference hfound hr harity))
              (hwritten.of_reference hpool (List.mem_of_find?_eq_some hr))
              (hscope.bound hinner harity) ((rule.bodyWith_eq harity').symm.trans hbody)
              (hmeaning.of_body hr hbody) (hcarries.cons hstand entry exit)
        | none =>
          rw [hr] at h
          cases h
    | charClass start cls =>
      rw [inExpr] at he
      exact hleaf rfl he h hs ht
    | set | literal | any =>
      rw [inExpr] at he
      exact hleaf rfl he h hs ht
    | specialize | inlineRule =>
      rw [addExpr] at h
      cases h
    | choice start alternatives =>
      rw [inExpr] at he
      obtain ⟨alternatives', halternatives, he⟩ := exists_ok_of_bind he
      cases he
      rw [addExpr] at h
      exact lays_choice (hall halternatives (fun _ h => h) fun _ h => h) h hs ht
    | sequence start elements markers =>
      rw [inExpr] at he
      obtain ⟨elements', helements, he⟩ := exists_ok_of_bind he
      cases he
      rw [addExpr] at h
      cases hmarkers : markers.flatten with
      | cons =>
        rw [hmarkers] at h
        cases h
      | nil =>
        rw [hmarkers] at h
        dsimp only at h
        split at h
        next hempty =>
          obtain rfl := List.isEmpty_iff.mp hempty
          cases helements
          rw [change_ok h]
          exact .nothing
        next hne =>
          exact lays_chain (hall helements (fun _ h => h) fun _ h => h) markers (by simpa using hne)
            h hs ht
    | repeated start body kind =>
      rw [inExpr] at he
      obtain ⟨body', hbody, he⟩ := exists_ok_of_bind he
      cases he
      have hbuild := hpart (List.mem_singleton_self body) (List.mem_singleton_self body') hbody
      cases kind with
      | star => exact lays_star hbuild h
      | plus => exact lays_plus hbuild h hs
      | optional => exact lays_optional hbuild h hs ht

end

/-! ## §4 References -/

/-- What stands in an expression as it can be read is so, too. -/
theorem isReadable_of_mem_nested (h : e.IsReadable) : ∀ part ∈ nested e, part.IsReadable := by
  have hall {es : List Expr} (ih : ∀ e ∈ es, ∀ part ∈ nested e, part.IsReadable) :
      ∀ part ∈ nestedAll es, part.IsReadable := by
    rw [nestedAll_eq]
    intro part hpart
    obtain ⟨e, he, hpart⟩ := List.mem_flatMap.mp hpart
    exact ih e he part hpart
  induction h with
  | name start hid hany h ih =>
    exact List.forall_mem_cons.mpr ⟨.name start hid hany h, hall ih⟩
  | choice start hlength h ih =>
    exact List.forall_mem_cons.mpr ⟨.choice start hlength h, hall ih⟩
  | sequence start hlength hsingle hnames h ih =>
    exact List.forall_mem_cons.mpr ⟨.sequence start hlength hsingle hnames h, hall ih⟩
  | repeated start kind h ih =>
    exact List.forall_mem_cons.mpr ⟨.repeated start kind h, ih⟩
  | specialize start kind props htoken hcontent =>
    exact List.forall_mem_singleton.mpr (.specialize start kind props htoken hcontent)
  | inlineRule start props hid hany h =>
    exact List.forall_mem_singleton.mpr (.inlineRule start props hid hany h)
  | literal start value => exact List.forall_mem_singleton.mpr (.literal start value)
  | set start inverted h => exact List.forall_mem_singleton.mpr (.set start inverted h)
  | any start => exact List.forall_mem_singleton.mpr (.any start)
  | charClass start cls => exact List.forall_mem_singleton.mpr (.charClass start cls)

/-- A reference that is read as it is written: it has a meaning, references that lead back do so
to what they stand for, and sets in its arguments are canonical. -/
structure IsRegular (rules : List RuleDecl) (name : String) (args : List Expr) : Prop where
  fair : (⟨[], [], .name 0 name args⟩ : Place).IsFair rules
  meaning : HasMeaning rules (.name 0 name args)
  sets : ∀ e ∈ nestedAll args, e.IsCanonical

/-- The sets that are met while a token is built are canonical, if those in its arguments are. -/
theorem isCanonical_of_mem_written (hsets : ∀ e ∈ nestedAll args, e.IsCanonical)
    (hbodies : ∀ rule ∈ rules, rule.body.IsReadable) (place : Nat) :
    ∀ e ∈ written rules (.name place name args), e.IsCanonical := by
  rw [written, nestedAll, nestedAll_eq (rules.map _)]
  refine List.forall_mem_append.mpr ⟨List.forall_mem_cons.mpr ⟨.name .., hsets⟩, fun e he => ?_⟩
  obtain ⟨body, hbody, he⟩ := List.mem_flatMap.mp he
  obtain ⟨rule, hrule, rfl⟩ := List.mem_map.mp hbody
  exact (isReadable_of_mem_nested (hbodies rule hrule) e he).isCanonical

/-- References without arguments are regular, if rules have no parameters. -/
theorem isRegular_of_params_nil (hparams : ∀ rule ∈ rules, rule.params = []) (hargs : args = []) :
    IsRegular rules name args where
  fair := isFair_of_params_nil hparams _
  meaning := hasMeaning_of_forall (fun rule hrule args harity => by
    rw [hparams rule hrule] at harity
    exact ⟨rule.body, by rw [List.length_eq_zero_iff.mp harity.symm]; rfl⟩) _
  sets := by
    subst hargs
    exact List.forall_mem_nil _

/-- Building the token of a regular reference lays the reference. -/
theorem lays_reference {rule : RuleDecl} {fuel : Nat} (place : Nat)
    (hbodies : ∀ rule ∈ rules, rule.body.IsReadable)
    (hr : rules.find? (fun r => r.id.name == name) = some rule)
    (hregular : rule.params.length = args.length → IsRegular rules name args) :
    Builds rules [] (addRule (addExpr rules fuel) [] [] rule place args) (.name 0 name args) := by
  have hcarries : Carries [] [] [] := List.forall_mem_nil _
  refine lays_addRule place hr (List.forall_mem_nil _) hcarries fun harity => ?_
  have hregular := hregular harity
  have hpool := isPool_written rules (.name 0 name args)
  have hargs := Substitute.inExprs_nil args
  have hstand : Stand [] args args := ⟨[], [], .nil, hargs⟩
  obtain ⟨body, hbody⟩ := hregular.meaning (.refl _) hr harity
  have hwritten : (⟨[], [], .name 0 name args⟩ : Place).IsWritten
      (written rules (.name 0 name args)) 0 := ⟨mem_nestedAll_of_mem List.mem_cons_self, rfl⟩
  refine ⟨body, hbody, fun entry exit => ?_⟩
  exact lays_addExpr hpool (isCanonical_of_mem_written hregular.sets hbodies 0) fuel
    (hregular.fair.next (mem_nexts_reference rfl hr harity))
    (hwritten.of_reference hpool (List.mem_of_find?_eq_some hr))
    (Closes.nil.bound hargs harity) ((rule.bodyWith_eq harity).symm.trans hbody)
    (hregular.meaning.of_body hr hbody) (hcarries.cons hstand entry exit)

end TokenBuild

end GrammarCompiler
