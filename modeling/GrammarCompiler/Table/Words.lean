/-
GrammarCompiler.Table.Words — sequences that share one array.

Lists of numbers are appended to a single array. A list that already occurs
somewhere in the array is not stored again: its first occurrence is its
address. In the end every number has to fit 16 bits.
-/
import GrammarCompiler.Fault

namespace GrammarCompiler

/-- The numbers stored so far. -/
structure Words where
  data : List Nat := []
deriving DecidableEq, Repr

namespace Words

/-- The offset of the first place in `data` where `values` occurs. -/
def find? (values : List Nat) : List Nat → Option Nat
  | [] => if values.isEmpty then some 0 else none
  | word :: data =>
    if values.isPrefixOf (word :: data) then some 0 else (find? values data).map (· + 1)

/-- The address of a list of numbers, which is appended unless it already
occurs. The empty list is never looked for. -/
def store (w : Words) (values : List Nat) : Nat × Words :=
  match if values.isEmpty then none else find? values w.data with
  | some address => (address, w)
  | none => (w.data.length, ⟨w.data ++ values⟩)

/-- The stored numbers, if all of them fit 16 bits. -/
def finish (w : Words) : Except BuildError (List Nat) :=
  match w.data.find? (0xffff < ·) with
  | some value => .error (.capacity (.tableValue value))
  | none => .ok w.data

end Words

end GrammarCompiler
