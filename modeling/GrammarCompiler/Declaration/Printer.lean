/-
GrammarCompiler.Declaration.Printer — expressions as text.

`Expr.shown` writes an expression in the grammar language, with parentheses
only where a looser expression stands inside a tighter one. The text is used
in messages and in the names of instantiated rules, and it decides when two
expressions are the same (`Expr.same`).
-/
import GrammarCompiler.Declaration.Expr
import GrammarCompiler.Text.Quoted

namespace GrammarCompiler

open Text

/-! ## §1 Leaves -/

/-- A piece of a property value; parameters stand in braces. -/
def PropPart.shown : PropPart → String
  | text _ value => value
  | parameter _ name => "\x7b" ++ name ++ "\x7d"

/-- A property with its value, if it has one. -/
def NodeProp.shown (p : NodeProp) : String :=
  (if p.builtin then "@" else "") ++ p.name ++
    (if p.value.isEmpty then "" else "=" ++ String.join (p.value.map PropPart.shown))

/-- Properties in brackets. -/
def showProps (props : List NodeProp) : String :=
  if props.isEmpty then "" else "[" ++ ",".intercalate (props.map NodeProp.shown) ++ "]"

/-- A marker. -/
def Marker.shown (m : Marker) : String :=
  match m.kind with
  | .ambiguity => "~" ++ m.id.name
  | .precedence => "!" ++ m.id.name

/-- The sign of a repetition. -/
def RepeatKind.sign : RepeatKind → String
  | optional => "?"
  | star => "*"
  | plus => "+"

/-- A code point inside a set. The characters with a meaning there get a
backslash; what is not visible ASCII is written by its number. -/
def showSetChar (code : Nat) : String :=
  let c := Char.ofNat code
  if c = '\\' || c = ']' || c = '-' then String.ofList ['\\', c]
  else if 0x20 < code && code < 0x7f then String.singleton c
  else "\\u\x7b" ++ String.ofList (hex code) ++ "\x7d"

/-- A range inside a set. -/
def CodeRange.shown (r : CodeRange) : String :=
  showSetChar r.lo ++ (if r.lo + 1 < r.hi then "-" ++ showSetChar (r.hi - 1) else "")

/-! ## §2 Expressions -/

namespace Expr

mutual

/-- An expression in the grammar language. -/
def shown : Expr → String
  | name _ id args =>
    if args.isEmpty then id else id ++ "<" ++ ",".intercalate (showAll 0 args) ++ ">"
  | specialize _ kind props token content =>
    "@" ++ kind.name ++ showProps props ++ "<" ++ token.shown ++ ", " ++ content.shown ++ ">"
  | inlineRule _ id props body =>
    id ++ showProps props ++ " \x7b " ++ body.shown ++ " \x7d"
  | choice _ alternatives => " | ".intercalate (showAll 1 alternatives)
  | sequence _ elements markers =>
    if elements.isEmpty && markers.all (·.isEmpty) then "()"
    else " ".intercalate (showElements elements markers)
  | repeated _ body kind =>
    (if body.tightness < 4 then "(" ++ body.shown ++ ")" else body.shown) ++ kind.sign
  | literal _ value => quoted value
  | set _ ranges inverted =>
    (if inverted then "![" else "$[") ++ String.join (ranges.map CodeRange.shown) ++ "]"
  | any _ => "_"
  | charClass _ cls => "@" ++ cls.name

/-- Each expression, in parentheses if it binds less tightly than `least`. -/
def showAll (least : Nat) : List Expr → List String
  | [] => []
  | e :: rest =>
    (if e.tightness < least then "(" ++ e.shown ++ ")" else e.shown) :: showAll least rest

/-- The elements of a sequence with the markers before, between and after
them. -/
def showElements : List Expr → List (List Marker) → List String
  | [], markers => markers.flatten.map Marker.shown
  | e :: rest, markers =>
    (markers.head?.getD []).map Marker.shown ++
      (if e.tightness < 2 then "(" ++ e.shown ++ ")" else e.shown) ::
        showElements rest markers.tail

end

/-- Expressions are the same when they print alike. -/
def same (a b : Expr) : Bool :=
  a.shown == b.shown

/-- Lists of expressions are the same when they have the same length and
their elements are. -/
def allSame (as bs : List Expr) : Bool :=
  as.map Expr.shown == bs.map Expr.shown

end Expr

end GrammarCompiler
