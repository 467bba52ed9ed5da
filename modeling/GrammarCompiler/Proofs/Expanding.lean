/-
GrammarCompiler.Proofs.Expanding — what is met while a token is built.

The body of a rule is built where a reference to it stands, and an argument where
the parameter stands that it is for. A place on the way is an expression with the
arguments in scope and the references that are open around it. If no reference that
is met prints like one that is open, building a token does not go on for ever: an
open reference stands in the text as it is written, so there are only so many, and
between two of them expressions and scopes get smaller.

  §1 Places  — what is met from a place on.
  §2 Written — all that is met stands in the rules or in the first reference.
  §3 Steps   — a number of steps that is enough from a place on.
  §4 Ends    — no reference leads back, and the steps are enough.
-/
import GrammarCompiler.Proofs.Lists
import GrammarCompiler.Tokenizer.Build
import Mathlib

namespace GrammarCompiler

namespace TokenBuild

/-! ## §1 Places -/

/-- A reference, with the arguments in scope where it is written. -/
structure Reference where
  name : String
  args : List Expr
  scope : List Binding

/-- An expression that is to be built, with the arguments in scope and the
references whose rules are being built around it. -/
structure Place where
  opened : List Reference
  scope : List Binding
  expr : Expr

/-- The expressions that an expression is built from in the same scope. -/
def parts : Expr → List Expr
  | .choice _ alternatives => alternatives
  | .sequence _ elements _ => elements
  | .repeated _ body _ => [body]
  | _ => []

/-- The expression that is referred to, and its scope. -/
def Binding.target : Binding → List Binding × Expr
  | .mk _ expr scope => (scope, expr)

namespace Place

/-- The places that come next. -/
def nexts (rules : List RuleDecl) (p : Place) : List Place :=
  match p.expr with
  | .name _ name args =>
    match p.scope.find? fun b => b.name == name with
    | some b => if args.isEmpty then [⟨p.opened, b.target.1, b.target.2⟩] else []
    | none =>
      match rules.find? fun r => r.id.name == name with
      | some rule =>
        if rule.params.length = args.length then
          [⟨⟨name, args, p.scope⟩ :: p.opened, bound rule args p.scope, rule.body⟩]
        else []
      | none => []
  | e => (parts e).map fun part => ⟨p.opened, p.scope, part⟩

/-- A place is met from another one on. -/
def Leads (rules : List RuleDecl) : Place → Place → Prop :=
  Relation.ReflTransGen fun p q => q ∈ p.nexts rules

/-- Whether there is a reference to a rule that prints like another one. -/
def repeats (p : Place) (r : Reference) : Bool :=
  match p.expr with
  | .name _ name args =>
    (p.scope.find? fun b => b.name == name).isNone && r.name == name && Expr.allSame r.args args
  | _ => false

/-- No reference that is met prints like one that is open. -/
def IsClear (rules : List RuleDecl) (p : Place) : Prop :=
  ∀ q, p.Leads rules q → ∀ r ∈ q.opened, q.repeats r = false

variable {rules : List RuleDecl} {p q : Place}

theorem IsClear.next (h : p.IsClear rules) (hq : q ∈ p.nexts rules) : q.IsClear rules :=
  fun q' hq' => h q' (.head hq hq')

theorem IsClear.repeats_eq (h : p.IsClear rules) : ∀ r ∈ p.opened, p.repeats r = false :=
  h p .refl

end Place

variable {rules : List RuleDecl} {pool : List Expr} {e part : Expr} {opened : List Reference}
  {scope : List Binding} {start : Nat} {name : String} {args : List Expr}

theorem mem_nexts_part (h : part ∈ parts e) :
    ⟨opened, scope, part⟩ ∈ (⟨opened, scope, e⟩ : Place).nexts rules := by
  cases e with
  | name => cases h
  | _ => exact List.mem_map_of_mem h

theorem mem_nexts_argument {b : Binding} (h : scope.find? (fun b => b.name == name) = some b) :
    ⟨opened, b.target.1, b.target.2⟩ ∈
      (⟨opened, scope, .name start name []⟩ : Place).nexts rules := by
  simp [Place.nexts, h]

theorem mem_nexts_reference {rule : RuleDecl}
    (hscope : scope.find? (fun b => b.name == name) = none)
    (hrule : rules.find? (fun r => r.id.name == name) = some rule)
    (harity : rule.params.length = args.length) :
    ⟨⟨name, args, scope⟩ :: opened, bound rule args scope, rule.body⟩ ∈
      (⟨opened, scope, .name start name args⟩ : Place).nexts rules := by
  simp [Place.nexts, hscope, hrule, harity]

/-! ## §2 Written -/

theorem nestedAll_eq (es : List Expr) : nestedAll es = es.flatMap nested := by
  induction es with
  | nil => rfl
  | cons e es ih => rw [nestedAll, ih, List.flatMap_cons]

theorem mem_nested_self (e : Expr) : e ∈ nested e := by
  cases e <;> simp [nested]

mutual

/-- What stands in an expression comes with all that stands in it. -/
theorem nested_sublist : ∀ (e : Expr) {part : Expr}, part ∈ nested e →
    (nested part).Sublist (nested e)
  | .name _ _ args, _, h => by
    rw [nested, List.mem_cons] at h
    obtain rfl | h := h
    · exact List.Sublist.refl _
    · exact (nestedAll_sublist args h).cons _
  | .choice _ alternatives, _, h => by
    rw [nested, List.mem_cons] at h
    obtain rfl | h := h
    · exact List.Sublist.refl _
    · exact (nestedAll_sublist alternatives h).cons _
  | .sequence _ elements _, _, h => by
    rw [nested, List.mem_cons] at h
    obtain rfl | h := h
    · exact List.Sublist.refl _
    · exact (nestedAll_sublist elements h).cons _
  | .repeated _ body _, _, h => by
    rw [nested, List.mem_cons] at h
    obtain rfl | h := h
    · exact List.Sublist.refl _
    · exact (nested_sublist body h).cons _
  | .specialize .., _, h | .inlineRule .., _, h | .literal .., _, h | .set .., _, h | .any _, _, h
  | .charClass .., _, h => by
    obtain rfl := List.mem_singleton.mp h
    exact List.Sublist.refl _

/-- What stands in one of several expressions comes with all that stands in it. -/
theorem nestedAll_sublist : ∀ (es : List Expr) {part : Expr}, part ∈ nestedAll es →
    (nested part).Sublist (nestedAll es)
  | e :: es, _, h => by
    rw [nestedAll, List.mem_append] at h
    rcases h with h | h
    · exact (nested_sublist e h).trans (List.sublist_append_left _ _)
    · exact (nestedAll_sublist es h).trans (List.sublist_append_right _ _)

end

theorem mem_nestedAll_of_mem {es : List Expr} (h : e ∈ es) : e ∈ nestedAll es := by
  rw [nestedAll_eq]
  exact List.mem_flatMap.mpr ⟨e, h, mem_nested_self e⟩

/-- The parts of an expression are smaller. -/
theorem nested_part (h : part ∈ parts e) :
    part ∈ nested e ∧ (nested part).length < (nested e).length := by
  have hall {es : List Expr} (h : part ∈ es) :
      part ∈ e :: nestedAll es ∧ (nested part).length < (e :: nestedAll es).length := by
    have hmem := mem_nestedAll_of_mem h
    exact ⟨List.mem_cons_of_mem _ hmem, Nat.lt_succ_of_le (nestedAll_sublist es hmem).length_le⟩
  cases e with
  | choice | sequence => exact hall h
  | repeated =>
    obtain rfl := List.mem_singleton.mp h
    simp [nested, mem_nested_self]
  | _ => cases h

/-- A list of expressions that has the bodies of the rules, and with each of its
expressions all that stands in it. -/
structure IsPool (rules : List RuleDecl) (pool : List Expr) : Prop where
  bodies : ∀ r ∈ rules, r.body ∈ pool
  sublist : ∀ e ∈ pool, (nested e).Sublist pool

theorem isPool_written (rules : List RuleDecl) (e : Expr) : IsPool rules (written rules e) where
  bodies _ hr := mem_nestedAll_of_mem (List.mem_cons_of_mem _ (List.mem_map_of_mem hr))
  sublist _ he := nestedAll_sublist _ he

/-- The arguments in scope stand in a pool, and so do those in their scopes, which
are nested up to a depth. -/
def IsScope (pool : List Expr) : (depth : Nat) → List Binding → Prop
  | 0, scope => scope = []
  | depth + 1, scope => ∀ b ∈ scope, b.target.2 ∈ pool ∧ IsScope pool depth b.target.1

theorem IsScope.succ {depth : Nat} (h : IsScope pool depth scope) :
    IsScope pool (depth + 1) scope := by
  induction depth generalizing scope with
  | zero =>
    obtain rfl : scope = [] := h
    exact nofun
  | succ depth ih => exact fun b hb => ⟨(h b hb).1, ih (h b hb).2⟩

/-- What is built at a place stands in a pool, and so do the arguments in scope. -/
structure Place.IsWritten (pool : List Expr) (depth : Nat) (p : Place) : Prop where
  expr : p.expr ∈ pool
  scope : IsScope pool depth p.scope

namespace Place.IsWritten

variable {depth : Nat}

theorem of_part (hpool : IsPool rules pool)
    (h : IsWritten pool depth ⟨opened, scope, e⟩) (hpart : part ∈ parts e) :
    IsWritten pool depth ⟨opened, scope, part⟩ where
  expr := (hpool.sublist _ h.expr).subset (nested_part hpart).1
  scope := h.scope

theorem of_argument (h : IsWritten pool depth ⟨opened, scope, e⟩) {b : Binding}
    (hb : scope.find? (fun b => b.name == name) = some b) :
    ∃ outer, depth = outer + 1 ∧ IsWritten pool outer ⟨opened, b.target.1, b.target.2⟩ := by
  have hmem := List.mem_of_find?_eq_some hb
  have hscope : IsScope pool depth scope := h.scope
  cases depth with
  | zero =>
    rw [hscope] at hmem
    cases hmem
  | succ outer => exact ⟨outer, rfl, (hscope b hmem).1, (hscope b hmem).2⟩

theorem of_reference (hpool : IsPool rules pool)
    (h : IsWritten pool depth ⟨opened, scope, .name start name args⟩) {rule : RuleDecl}
    (hrule : rule ∈ rules) :
    IsWritten pool (depth + 1)
      ⟨⟨name, args, scope⟩ :: opened, bound rule args scope, rule.body⟩ where
  expr := hpool.bodies rule hrule
  scope := by
    simp only [bound, IsScope, List.forall_mem_map]
    intro pair hpair
    have harg : pair.1 ∈ args := (List.of_mem_zip hpair).1
    refine ⟨(hpool.sublist _ h.expr).subset ?_, h.scope⟩
    exact List.mem_cons_of_mem _ (mem_nestedAll_of_mem harg)

end Place.IsWritten

/-! ## §3 Steps -/

/-- What references print alike by. -/
def Reference.key (r : Reference) : String × List String :=
  (r.name, r.args.map Expr.shown)

/-- The same of an expression, if it is a reference. -/
def exprKey : Expr → String × List String
  | .name _ name args => (name, args.map Expr.shown)
  | _ => ("", [])

/-- Open references are written in a pool, and no two of them print alike. -/
structure IsOpened (pool : List Expr) (opened : List Reference) : Prop where
  nodup : (opened.map Reference.key).Nodup
  written : ∀ r ∈ opened, r.key ∈ pool.map exprKey

theorem IsOpened.length_le (h : IsOpened pool opened) : opened.length ≤ pool.length := by
  have hsub : opened.map Reference.key ⊆ pool.map exprKey := by
    intro key hkey
    obtain ⟨r, hr, rfl⟩ := List.mem_map.mp hkey
    exact h.written r hr
  simpa using (h.nodup.subperm hsub).length_le

theorem IsOpened.cons (h : IsOpened pool opened) (hmem : .name start name args ∈ pool)
    (hscope : scope.find? (fun b => b.name == name) = none)
    (hnew : ∀ r ∈ opened, (⟨opened, scope, .name start name args⟩ : Place).repeats r = false) :
    IsOpened pool (⟨name, args, scope⟩ :: opened) where
  nodup := by
    refine List.nodup_cons.mpr ⟨fun hkey => ?_, h.nodup⟩
    obtain ⟨r, hr, heq⟩ := List.mem_map.mp hkey
    obtain ⟨hname, hargs⟩ := Prod.mk.inj heq
    have := hnew r hr
    simp [Place.repeats, hscope, Expr.allSame, hname, hargs] at this
  written := List.forall_mem_cons.mpr
    ⟨List.mem_map.mpr ⟨.name start name args, hmem, rfl⟩, h.written⟩

/-- A number of steps that is enough where `count` references are open. The next
reference leaves one less to open, an argument a scope that is less nested, and a
part of an expression less to build. -/
def steps (pool : List Expr) (count depth : Nat) (e : Expr) : Nat :=
  (pool.length - count) * ((pool.length + 2) * (pool.length + 1)) +
    depth * (pool.length + 1) + (nested e).length

theorem steps_part {count depth : Nat} (h : part ∈ parts e) :
    steps pool count depth part < steps pool count depth e :=
  Nat.add_lt_add_left (nested_part h).2 _

theorem steps_argument {count depth : Nat} (hpart : (nested part).length ≤ pool.length) :
    steps pool count depth part < steps pool count (depth + 1) e := by
  simp only [steps, Nat.succ_mul]
  omega

theorem steps_reference {count depth : Nat} (hcount : count + 1 ≤ pool.length)
    (hdepth : depth ≤ count) (hpart : (nested part).length ≤ pool.length) :
    steps pool (count + 1) (depth + 1) part < steps pool count depth e := by
  obtain ⟨left, hleft⟩ := Nat.exists_eq_add_of_le hcount
  have hless : pool.length - (count + 1) = left := by omega
  have hmore : pool.length - count = left + 1 := by omega
  have hscope : (depth + 1) * (pool.length + 1) ≤ pool.length * (pool.length + 1) :=
    Nat.mul_le_mul_right _ (by omega)
  simp only [steps, hless, hmore, Nat.succ_mul left, Nat.add_mul pool.length 2]
  omega

/-! ## §4 Ends -/

/-- An action does not fail for a recursion, nor for a lack of steps. -/
def Ends {α : Type} (m : Action α) : Prop :=
  ∀ ⦃p fault place⦄, m p = .error (fault, place) →
    (∀ names, fault ≠ .tokenRecursion names) ∧ fault ≠ .unfinished

namespace Ends

variable {α β : Type}

theorem pure (x : α) : Ends (Pure.pure x : Action α) := by
  rintro _ _ _ ⟨⟩

theorem bind {m : Action α} {f : α → Action β} (hm : Ends m) (hf : ∀ x, Ends (f x)) :
    Ends (m >>= f) := by
  intro p fault place h
  change (m p >>= fun (x, p₁) => f x p₁) = _ at h
  cases hp : m p with
  | error failure =>
    rw [hp] at h
    cases h
    exact hm hp
  | ok result =>
    rw [hp] at h
    exact hf result.1 h

theorem fail {fault : GrammarFault} (hfault : (∀ names, fault ≠ .tokenRecursion names) ∧
    fault ≠ .unfinished) (start : Nat) : Ends (TokenBuild.fail fault start : Action α) := by
  intro p fault' place h
  cases h
  exact hfault

theorem fail_bind {fault : GrammarFault} (hfault : (∀ names, fault ≠ .tokenRecursion names) ∧
    fault ≠ .unfinished) (start : Nat) (f : α → Action β) :
    Ends (TokenBuild.fail fault start >>= f) := by
  intro p fault' place h
  cases h
  exact hfault

theorem change (f : Nfa → Nfa) : Ends (TokenBuild.change f) := by
  rintro _ _ _ ⟨⟩

theorem newState : Ends TokenBuild.newState := by
  rintro _ _ _ ⟨⟩

theorem forM {l : List α} {f : α → Action PUnit} (hf : ∀ x ∈ l, Ends (f x)) :
    Ends (l.forM f) := by
  induction l with
  | nil => exact .pure _
  | cons x l ih =>
    obtain ⟨hx, hl⟩ := List.forall_mem_cons.mp hf
    exact hx.bind fun _ => ih hl

theorem chain {build : α → Nat → Nat → Action Unit} {l : List α}
    (hbuild : ∀ x ∈ l, ∀ s t, Ends (build x s t)) (s t : Nat) :
    Ends (TokenBuild.chain build l s t) := by
  induction l generalizing s with
  | nil => exact .pure _
  | cons x l ih =>
    obtain ⟨hx, hl⟩ := List.forall_mem_cons.mp hbuild
    cases l with
    | nil => exact hx s t
    | cons y l => exact newState.bind fun next => (hx s next).bind fun _ => ih hl next

end Ends

theorem ends_addLiteral (value : String) (s t : Nat) : Ends (addLiteral value s t) := by
  unfold addLiteral
  split
  · exact .change _
  · exact .chain (fun _ _ _ _ => .change _) s t

theorem ends_addRanges (ranges : List CodeRange) (s t : Nat) : Ends (addRanges ranges s t) :=
  .forM fun _ _ => .change _

/-- A reference that prints like no open one does not lead back. -/
theorem ends_addRule
    {again : List OpenRule → List Binding → Expr → Nat → Nat → Action Unit}
    {building : List OpenRule} {rule : RuleDecl} {s t : Nat}
    (hnew : ∀ r ∈ building, (r.name == rule.id.name && Expr.allSame r.args args) = false)
    (hagain : rule.params.length = args.length → ∀ entry,
      Ends (again (⟨rule.id.name, args, entry, t⟩ :: building) (bound rule args scope) rule.body
        entry t)) :
    Ends (addRule again building scope rule start args s t) := by
  have hnone : (building.find? fun r => r.name == rule.id.name && Expr.allSame r.args args) = none :=
    List.find?_eq_none.mpr fun r hr => by simp [hnew r hr]
  unfold addRule
  simp only [hnone]
  split
  next => exact .fail_bind (by simp) start _
  next harity =>
    have harity : rule.params.length = args.length := by simpa using harity
    exact Ends.bind (fun _ _ _ h => nomatch h) fun _ => Ends.newState.bind fun entry =>
      (Ends.change _).bind fun _ => hagain harity entry

/-- Building a place that is clear ends. -/
theorem ends_addExpr (hpool : IsPool rules pool) {fuel depth : Nat} {building : List OpenRule}
    (hclear : (⟨opened, scope, e⟩ : Place).IsClear rules)
    (hwritten : (⟨opened, scope, e⟩ : Place).IsWritten pool depth)
    (hopened : IsOpened pool opened) (hdepth : depth ≤ opened.length)
    (hbuilding : ∀ r ∈ building, ∃ o ∈ opened, o.name = r.name ∧ o.args = r.args)
    (hfuel : steps pool opened.length depth e < fuel) (s t : Nat) :
    Ends (addExpr rules fuel building scope e s t) := by
  induction fuel generalizing building opened scope e depth s t with
  | zero => exact absurd hfuel (Nat.not_lt_zero _)
  | succ fuel ih =>
    have hfuel : steps pool opened.length depth e ≤ fuel := Nat.le_of_lt_succ hfuel
    have hpart {part : Expr} (h : part ∈ parts e) (s t : Nat) :
        Ends (addExpr rules fuel building scope part s t) :=
      ih (hclear.next (mem_nexts_part h)) (hwritten.of_part hpool h) hopened hdepth hbuilding
        (Nat.lt_of_lt_of_le (steps_part h) hfuel) s t
    cases e with
    | name start name args =>
      rw [addExpr]
      cases hscope : scope.find? fun b => b.name == name with
      | some b =>
        obtain ⟨param, expr, scope'⟩ := b
        dsimp only
        split
        next hargs =>
          obtain rfl := List.isEmpty_iff.mp hargs
          obtain ⟨outer, rfl, hwritten'⟩ := hwritten.of_argument hscope
          refine ih (hclear.next (mem_nexts_argument hscope)) hwritten' hopened (by omega) hbuilding
            (Nat.lt_of_lt_of_le (steps_argument ?_) hfuel) s t
          exact (hpool.sublist _ hwritten'.expr).length_le
        next => exact .fail (by simp) start
      | none =>
        dsimp only
        split
        next rule hrule =>
          obtain rfl : rule.id.name = name := by simpa using List.find?_some hrule
          have hrepeats := hclear.repeats_eq
          have hopened' := hopened.cons hwritten.expr hscope hrepeats
          refine ends_addRule (fun r hr => ?_) fun harity entry => ?_
          · obtain ⟨o, ho, hname, hargs⟩ := hbuilding r hr
            simpa [Place.repeats, hscope, hname, hargs] using hrepeats o ho
          · have hwritten' := hwritten.of_reference hpool (List.mem_of_find?_eq_some hrule)
            refine ih (hclear.next (mem_nexts_reference hscope hrule harity)) hwritten' hopened'
              (Nat.succ_le_succ hdepth) (List.forall_mem_cons.mpr ⟨?_, fun r hr => ?_⟩)
              (Nat.lt_of_lt_of_le (steps_reference hopened'.length_le hdepth ?_) hfuel) entry t
            · exact ⟨_, List.mem_cons_self, rfl, rfl⟩
            · exact (hbuilding r hr).imp fun o ho => ⟨List.mem_cons_of_mem _ ho.1, ho.2⟩
            · exact (hpool.sublist _ hwritten'.expr).length_le
        next => exact .fail (by simp) start
    | charClass start cls =>
      rw [addExpr]
      split
      · exact .fail (by simp) start
      · exact ends_addRanges _ s t
    | choice start alternatives =>
      rw [addExpr]
      exact .forM fun part h => hpart h s t
    | sequence start elements markers =>
      rw [addExpr]
      split
      · exact .fail (by simp) _
      · split
        · exact .change _
        · exact .chain (fun part h s t => hpart h s t) s t
    | repeated start body kind =>
      have hbody := hpart (List.mem_singleton_self body)
      cases kind with
      | star =>
        rw [addExpr]
        exact Ends.newState.bind fun loop => (Ends.change _).bind fun _ =>
          (hbody loop loop).bind fun _ => .change _
      | plus =>
        rw [addExpr]
        exact Ends.newState.bind fun loop => (hbody s loop).bind fun _ =>
          (hbody loop loop).bind fun _ => .change _
      | optional =>
        rw [addExpr]
        exact (Ends.change _).bind fun _ => hbody s t
    | set start ranges inverted =>
      rw [addExpr]
      exact ends_addRanges _ s t
    | literal start value =>
      rw [addExpr]
      exact ends_addLiteral value s t
    | any start =>
      rw [addExpr]
      exact .change _
    | specialize start kind props token content =>
      rw [addExpr]
      exact .fail (by simp) start
    | inlineRule start id props body =>
      rw [addExpr]
      exact .fail (by simp) start

/-- Building the token of a reference ends. -/
theorem ends_reference {rule : RuleDecl}
    (hrule : rules.find? (fun r => r.id.name == name) = some rule)
    (hclear : (⟨[], [], .name start name args⟩ : Place).IsClear rules) (s t : Nat) :
    Ends (addRule (addExpr rules (fuelFor rules (.name start name args))) [] [] rule start args
      s t) := by
  obtain rfl : rule.id.name = name := by simpa using List.find?_some hrule
  let pool := written rules (.name start rule.id.name args)
  have hpool : IsPool rules pool := isPool_written rules _
  have hmem : .name start rule.id.name args ∈ pool := mem_nestedAll_of_mem List.mem_cons_self
  have hwritten : (⟨[], [], .name start rule.id.name args⟩ : Place).IsWritten pool 0 := ⟨hmem, rfl⟩
  have hopened : IsOpened pool [] := ⟨List.nodup_nil, nofun⟩
  refine ends_addRule nofun fun harity entry => ?_
  have hwritten' := hwritten.of_reference hpool (List.mem_of_find?_eq_some hrule)
  have hopened' := hopened.cons hmem rfl hclear.repeats_eq
  have hsteps : steps pool 1 1 rule.body < steps pool 0 0 (.name start rule.id.name args) :=
    steps_reference hopened'.length_le (Nat.le_refl 0) (hpool.sublist _ hwritten'.expr).length_le
  have hself : (nested (.name start rule.id.name args)).length ≤ pool.length :=
    (hpool.sublist _ hmem).length_le
  have hfuel : steps pool 0 0 (.name start rule.id.name args) ≤
      fuelFor rules (.name start rule.id.name args) := by
    simp only [steps, Nat.sub_zero, Nat.zero_mul, Nat.add_zero, fuelFor]
    change _ ≤ (pool.length + 2) * (pool.length + 2) * (pool.length + 2)
    nlinarith
  exact ends_addExpr hpool (hclear.next (mem_nexts_reference rfl hrule harity)) hwritten' hopened'
    (Nat.le_refl 1) (List.forall_mem_singleton.mpr ⟨_, List.mem_cons_self, rfl, rfl⟩)
    (Nat.lt_of_lt_of_le hsteps hfuel) entry t

end TokenBuild

end GrammarCompiler
