/-
GrammarCompiler.Tokenizer.Walk — walks through a graph.

`walk` visits what can be reached from a node, depth first, every node once
and the ways out of a node in their order. Each node comes with the labels on
the way by which it was reached first.
-/
namespace GrammarCompiler

namespace Walk

/-- A node to visit, with the labels that lead there, the last one first. -/
structure Stop where
  node : Nat
  labels : List Nat
deriving Repr

/-- The labels on the way to a node, in order. -/
def Stop.path (s : Stop) : List Nat :=
  s.labels.reverse

/-- Visits the nodes of a stack and what can be reached from them. Each visit
takes a stop off the stack, and a node adds its ways out only once. -/
def visit (next : Nat → List (Nat × Nat)) :
    (fuel : Nat) → (seen : Array Bool) → (stack : List Stop) → List Stop
  | 0, _, _ => []
  | _, _, [] => []
  | fuel + 1, seen, stop :: stack =>
    if seen[stop.node]?.getD true then visit next fuel seen stack
    else
      let ways := (next stop.node).map fun (label, target) => ⟨target, label :: stop.labels⟩
      stop :: visit next fuel (seen.setIfInBounds stop.node true) (ways ++ stack)

end Walk

/-- The nodes below `size` that can be reached from `start`, each with the
labels on the way. `next` lists the ways out of a node, as labels and
targets; `ways` is the number of all of them together. -/
def walk (size ways : Nat) (next : Nat → List (Nat × Nat)) (start : Nat) : List Walk.Stop :=
  Walk.visit next (ways + 1) (Array.replicate size false) [⟨start, []⟩]

end GrammarCompiler
