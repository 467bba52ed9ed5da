/-
GrammarCompiler.Declaration.Expr — the expressions that rules consist of.

Every node carries the byte offset where it starts, so that a fault found
later can be given a place. Offsets play no part in what an expression means:
two expressions count as the same when they print alike (see
`GrammarCompiler.Declaration.Printer`).
-/
import GrammarCompiler.CharSet

namespace GrammarCompiler

/-! ## §1 Leaves -/

/-- A name and the place where it is written. -/
structure Ident where
  start : Nat
  name : String
deriving DecidableEq, Repr, Inhabited

/-- A piece of a property value: plain text, or the name of a parameter whose
argument stands here. -/
inductive PropPart where
  | text (start : Nat) (value : String)
  | parameter (start : Nat) (name : String)
deriving DecidableEq, Repr

/-- The place of a piece of a value. -/
def PropPart.start : PropPart → Nat
  | text start _ => start
  | parameter start _ => start

/-- A property of a rule or a token. Built-in properties are written with an
at sign. -/
structure NodeProp where
  start : Nat
  builtin : Bool
  name : String
  value : List PropPart
deriving DecidableEq, Repr

/-- Markers allow an ambiguity or assign a precedence. -/
inductive MarkerKind where
  | ambiguity
  | precedence
deriving DecidableEq, Repr

/-- A marker in a gap of a sequence. -/
structure Marker where
  start : Nat
  kind : MarkerKind
  id : Ident
deriving DecidableEq, Repr

/-- How often an expression is repeated: at most once, any number of times,
or at least once. -/
inductive RepeatKind where
  | optional
  | star
  | plus
deriving DecidableEq, Repr

/-- Specialized tokens replace the token they are a case of, or come in
addition to it. -/
inductive SpecializeKind where
  | specialize
  | extend
deriving DecidableEq, Repr

/-- The word for a kind of specialization. -/
def SpecializeKind.name : SpecializeKind → String
  | specialize => "specialize"
  | extend => "extend"

/-! ## §2 Expressions -/

/-- An expression. The `markers` of a sequence are one list per gap, so there
is one more of them than of elements. -/
inductive Expr where
  | name (start : Nat) (id : String) (args : List Expr)
  | specialize (start : Nat) (kind : SpecializeKind) (props : List NodeProp)
      (token content : Expr)
  | inlineRule (start : Nat) (id : String) (props : List NodeProp) (body : Expr)
  | choice (start : Nat) (alternatives : List Expr)
  | sequence (start : Nat) (elements : List Expr) (markers : List (List Marker))
  | repeated (start : Nat) (body : Expr) (kind : RepeatKind)
  | literal (start : Nat) (value : String)
  | set (start : Nat) (ranges : List CodeRange) (inverted : Bool)
  | any (start : Nat)
  | charClass (start : Nat) (cls : CharClass)
deriving Repr, Inhabited

namespace Expr

/-- The place of an expression. -/
def start : Expr → Nat
  | name start _ _ => start
  | specialize start _ _ _ _ => start
  | inlineRule start _ _ _ => start
  | choice start _ => start
  | sequence start _ _ => start
  | repeated start _ _ => start
  | literal start _ => start
  | set start _ _ => start
  | any start => start
  | charClass start _ => start

/-- The sequence of no elements. -/
def empty (start : Nat) : Expr :=
  sequence start [] [[]]

/-- Whether an expression is a sequence of no elements and no markers. -/
def isEmpty : Expr → Bool
  | sequence _ elements markers => elements.isEmpty && markers.all (·.isEmpty)
  | _ => false

/-- The text of a literal. -/
def literal? : Expr → Option String
  | literal _ value => some value
  | _ => none

/-- How tightly an expression binds: choices, sequences, repeats, and the rest
in this order. -/
def tightness : Expr → Nat
  | choice _ _ => 1
  | sequence _ _ _ => 2
  | repeated _ _ _ => 3
  | _ => 4

end Expr

end GrammarCompiler
