/-
GrammarCompiler.Draft.Substitute — arguments in place of parameters.

  §1 Properties  — parameters inside property values become text.
  §2 Expressions — parameters become the expressions given for them. A
                   parameter with arguments of its own must stand for a name.
-/
import GrammarCompiler.Draft.Node

namespace GrammarCompiler

namespace Substitute

/-- The argument for a parameter. -/
def argument? (params : List Ident) (args : List Expr) (name : String) : Option Expr :=
  (params.findIdx? fun p => p.name == name).bind fun i => args[i]?

/-! ## §1 Properties -/

/-- Puts text in place of a parameter. Other parameters stay. -/
def inPart (params : List Ident) (args : List Expr) : PropPart → Except FaultAt PropPart
  | .text start value => .ok (.text start value)
  | .parameter start name =>
    match argument? params args name with
    | none => .ok (.parameter start name)
    | some arg =>
      match arg.plainText? with
      | some text => .ok (.text start text)
      | none => .error (.propInterpolation arg.shown, some start)

/-- Puts text in place of parameters. -/
def inProps (params : List Ident) (args : List Expr) (props : List NodeProp) :
    Except FaultAt (List NodeProp) :=
  props.mapM fun p => do return { p with value := ← p.value.mapM (inPart params args) }

/-! ## §2 Expressions -/

/-- A reference whose arguments are done. -/
def reference (params : List Ident) (args : List Expr) (start : Nat) (name : String)
    (inner : List Expr) : Except FaultAt Expr :=
  match argument? params args name, inner with
  | none, _ => .ok (.name start name inner)
  | some arg, [] => .ok arg
  | some (.name _ name []), _ => .ok (.name start name inner)
  | some _, _ => .error (.argumentsForArgument, some start)

mutual

/-- Puts arguments in place of parameters. -/
def inExpr (params : List Ident) (args : List Expr) : Expr → Except FaultAt Expr
  | .name start name inner => do
    reference params args start name (← inExprs params args inner)
  | .specialize start kind props token content => do
    return .specialize start kind (← inProps params args props) (← inExpr params args token)
      (← inExpr params args content)
  | .inlineRule start id props body => do
    return .inlineRule start id (← inProps params args props) (← inExpr params args body)
  | .choice start alternatives => do
    return .choice start (← inExprs params args alternatives)
  | .sequence start elements markers => do
    return .sequence start (← inExprs params args elements) markers
  | .repeated start body kind => do
    return .repeated start (← inExpr params args body) kind
  | .literal start value => .ok (.literal start value)
  | .set start ranges inverted => .ok (.set start ranges inverted)
  | .any start => .ok (.any start)
  | .charClass start cls => .ok (.charClass start cls)

/-- Puts arguments in place of parameters in each expression. -/
def inExprs (params : List Ident) (args : List Expr) : List Expr → Except FaultAt (List Expr)
  | [] => .ok []
  | e :: rest => do return (← inExpr params args e) :: (← inExprs params args rest)

end

end Substitute

/-- The body of a rule with arguments in place of its parameters. -/
def RuleDecl.bodyWith (rule : RuleDecl) (args : List Expr) : Except FaultAt Expr :=
  if args.isEmpty then .ok rule.body else Substitute.inExpr rule.params args rule.body

end GrammarCompiler
