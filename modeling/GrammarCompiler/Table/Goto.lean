/-
GrammarCompiler.Table.Goto — where symbols lead, as a table.

The table starts with the number of symbols it is about and the address of
the entry for each of them. An entry lists, for each target,

  twice the number of states that it is reached from, plus one for the last
  target; the target; the states.

Symbols without gotos all have the address 1. Entries share their places.
-/
import GrammarCompiler.Automaton.State
import GrammarCompiler.Table.Words

namespace GrammarCompiler

namespace GotoTable

/-- A goto of a state, by the number of the symbol. -/
structure Edge where
  symbol : Nat
  source : Nat
  target : Nat
deriving DecidableEq

/-- All gotos, in the order of the states. -/
def edges (g : Grammar) (states : Automaton) : List Edge :=
  states.toList.zipIdx.flatMap fun (s, source) =>
    s.gotos.map fun goto => ⟨g.id goto.term, source, goto.target⟩

/-- Different numbers in ascending order. -/
def ascending (ns : List Nat) : List Nat :=
  (ns.mergeSort fun a b => decide (a ≤ b)).foldr (fun n rest =>
    if rest.head? = some n then rest else n :: rest) []

/-- The entry for the gotos of one symbol. -/
def entry (edges : List Edge) : List Nat :=
  let targets := ascending (edges.map Edge.target)
  targets.zipIdx.flatMap fun (target, i) =>
    let sources := (edges.filter fun e => e.target == target).map Edge.source
    let last := if i + 1 = targets.length then 1 else 0
    (last + 2 * sources.length) :: target :: sources

/-- The entries of all symbols up to the last one with gotos. -/
def entries (edges : List Edge) : List (List Nat) :=
  let last := (edges.map Edge.symbol).foldl max 0
  (List.range (last + 1)).map fun symbol => entry (edges.filter fun e => e.symbol == symbol)

/-- Stores an entry. Returns its address, counted from the first entry, if
there is anything to store. -/
def storeEntry (state : List (Option Nat) × Words) (entry : List Nat) :
    List (Option Nat) × Words :=
  let (addresses, words) := state
  if entry.isEmpty then (addresses ++ [none], words)
  else
    let (address, words) := words.store entry
    (addresses ++ [some address], words)

end GotoTable

/-- The gotos of an automaton as a table. -/
def gotoTable (g : Grammar) (states : Automaton) : Except BuildError (List Nat) := do
  let entries := GotoTable.entries (GotoTable.edges g states)
  let (addresses, words) := entries.foldl GotoTable.storeEntry ([], {})
  let index := addresses.map fun address =>
    match address with
    | some a => a + (entries.length + 1)
    | none => 1
  if index.any (0xffff < ·) then throw (.capacity .gotoTable)
  return entries.length :: index ++ (← words.finish)

end GrammarCompiler
