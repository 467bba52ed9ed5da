/-
GrammarCompiler.Tokenizer.Build — token rules as parts of the automaton.

An expression is built between two states. Rules are built again wherever they
are referred to. A rule that refers to itself is possible only at its end,
where the reference leads back to its beginning.

  §1 Scopes      — arguments, and the rules that are being built.
  §2 Expressions — building between two states.
  §3 Bounds      — how deeply references can be nested.
-/
import GrammarCompiler.Declaration.Basic
import GrammarCompiler.Declaration.Printer
import GrammarCompiler.Fault
import GrammarCompiler.Tokenizer.Nfa

namespace GrammarCompiler

open Text

namespace TokenBuild

/-! ## §1 Scopes -/

/-- An argument, with the arguments that were in scope where it was
written. -/
inductive Binding where
  | mk (name : String) (expr : Expr) (scope : List Binding)

/-- The name of the parameter. -/
def Binding.name : Binding → String
  | mk name _ _ => name

/-- The arguments of a reference in `scope`, for the parameters of its rule. -/
def bound (rule : RuleDecl) (args : List Expr) (scope : List Binding) : List Binding :=
  (args.zip rule.params).map fun (arg, param) => .mk param.name arg scope

/-- A rule that is being built between two states. -/
structure OpenRule where
  name : String
  args : List Expr
  entry : Nat
  exit : Nat

/-- The automaton so far, and the rules that were used. -/
structure Progress where
  automaton : Nfa
  used : List String

/-- An action that builds. -/
abbrev Action := StateT Progress (Except (GrammarFault × Option Nat))

/-- Changes the automaton. -/
def change (f : Nfa → Nfa) : Action Unit :=
  modify fun p => { p with automaton := f p.automaton }

/-- Adds a state. -/
def newState : Action Nat :=
  modifyGet fun p =>
    let (state, automaton) := p.automaton.addState
    (state, { p with automaton })

/-- Fails with a fault at a place in the text. -/
def fail (fault : GrammarFault) (start : Nat) : Action α :=
  throw (fault, some start)

/-- The names of the rules from the last one called `name` to the one being
built. -/
def chainFrom (name : String) (building : List OpenRule) : List String :=
  let inner := building.takeWhile fun r => r.name != name
  (inner.map OpenRule.name ++ [name]).reverse

/-! ## §2 Expressions -/

/-- Builds one thing after another, with new states in between. -/
def chain (build : α → Nat → Nat → Action Unit) : List α → (source target : Nat) → Action Unit
  | [], _, _ => pure ()
  | [last], source, target => build last source target
  | item :: rest, source, target => do
    let next ← newState
    build item source next
    chain build rest next target

/-- Builds a literal, one code unit after another. -/
def addLiteral (value : String) (source target : Nat) : Action Unit :=
  match units value.toList with
  | [] => change fun a => a.addEmpty source target
  | word => chain (fun unit source target => change fun a =>
      a.addEdge source unit (unit + 1) target) word source target

/-- Builds ways for the characters of some ranges. -/
def addRanges (ranges : List CodeRange) (source target : Nat) : Action Unit :=
  ranges.forM fun r => change fun a => a.addRange source target r.lo r.hi

/-- Builds a rule between two states. `again` builds its body. -/
def addRule (again : List OpenRule → List Binding → Expr → Nat → Nat → Action Unit)
    (building : List OpenRule) (scope : List Binding) (rule : RuleDecl) (start : Nat)
    (args : List Expr) (source target : Nat) : Action Unit := do
  let name := rule.id.name
  if rule.params.length != args.length then fail (.tokenArity name) start
  match building.find? fun r => r.name == name && Expr.allSame r.args args with
  | some r =>
    if r.exit = target then change fun a => a.addEmpty source r.entry
    else fail (.tokenRecursion (chainFrom name building)) start
  | none =>
    modify fun p => { p with used := name :: p.used }
    let entry ← newState
    change fun a => a.addEmpty source entry
    again (⟨name, args, entry, target⟩ :: building) (bound rule args scope) rule.body entry target

/-- Builds an expression between two states. -/
def addExpr (rules : List RuleDecl) :
    (fuel : Nat) → List OpenRule → List Binding → Expr → (source target : Nat) → Action Unit
  | 0, _, _, e, _, _ => fail .unfinished e.start
  | fuel + 1, building, scope, e, source, target =>
    let again := addExpr rules fuel building scope
    match e with
    | .name start name args =>
      match scope.find? fun b => b.name == name with
      | some (.mk _ expr outer) =>
        if args.isEmpty then addExpr rules fuel building outer expr source target
        else fail .argumentsForArgument start
      | none =>
        match rules.find? fun r => r.id.name == name with
        | some rule =>
          addRule (addExpr rules fuel) building scope rule start args source target
        | none => fail (.unknownToken name) start
    | .charClass start cls =>
      if cls = .eof then fail .eofInToken start else addRanges cls.ranges source target
    | .choice _ alternatives => alternatives.forM fun e => again e source target
    | .sequence _ elements markers =>
      match markers.flatten with
      | marker :: _ => fail .markerInToken marker.start
      | [] =>
        if elements.isEmpty then change fun a => a.addEmpty source target
        else chain again elements source target
    | .repeated _ body .star => do
      let loop ← newState
      change fun a => a.addEmpty source loop
      again body loop loop
      change fun a => a.addEmpty loop target
    | .repeated _ body .plus => do
      let loop ← newState
      again body source loop
      again body loop loop
      change fun a => a.addEmpty loop target
    | .repeated _ body .optional => do
      change fun a => a.addEmpty source target
      again body source target
    | .set _ ranges inverted =>
      addRanges (if inverted then CharSet.complement ranges else ranges) source target
    | .literal _ value => addLiteral value source target
    | .any _ => change fun a => a.addAny source target
    | .specialize start _ _ _ _ => fail (.notInToken e.shown) start
    | .inlineRule start _ _ _ => fail (.notInToken e.shown) start

/-! ## §3 Bounds -/

mutual

/-- An expression and all that stand in it. -/
def nested : Expr → List Expr
  | .name start id args => .name start id args :: nestedAll args
  | .choice start alternatives => .choice start alternatives :: nestedAll alternatives
  | .sequence start elements markers => .sequence start elements markers :: nestedAll elements
  | .repeated start body kind => .repeated start body kind :: nested body
  | e => [e]

/-- Some expressions and all that stand in them. -/
def nestedAll : List Expr → List Expr
  | [] => []
  | e :: rest => nested e ++ nestedAll rest

end

/-- All expressions that can be met where `e` is built: arguments stand in the
text as they are written. -/
def written (rules : List RuleDecl) (e : Expr) : List Expr :=
  nestedAll (e :: rules.map RuleDecl.body)

/-- A bound on nested references. A rule is never built inside itself with the
same arguments, so each reference that is written is entered once, and between
two of them an expression or an argument of an outer scope is taken apart. -/
def fuelFor (rules : List RuleDecl) (e : Expr) : Nat :=
  let count := (written rules e).length
  (count + 2) * (count + 2) * (count + 2)

end TokenBuild

end GrammarCompiler
