/-
GrammarCompiler.Table.Lookup — reading tables the way a parser does.

  §1 Actions — the list of actions that begins at an address.
  §2 Gotos   — where a symbol leads from a state.
-/
import GrammarCompiler.Table.Code

namespace GrammarCompiler

/-! ## §1 Actions -/

/-- A list of actions: for each term the word that tells what to do, and the
word for all other terms, if there is one. -/
structure ActionList where
  entries : List (Nat × Nat)
  fallback : Option Nat
deriving DecidableEq, Repr

namespace ActionList

/-- A word from its halves. -/
def join (low high : Nat) : Nat :=
  low + high <<< 16

/-- What comes after the mark at the end of a list. -/
def readEnd? : List Nat → Option ActionList
  | kind :: low :: high :: _ =>
    if kind = Code.otherwise then some ⟨[], some (join low high)⟩
    else if kind = Code.done then some ⟨[], none⟩
    else none
  | kind :: _ => if kind = Code.done then some ⟨[], none⟩ else none
  | [] => none

/-- The list of actions at the beginning of some numbers. -/
def read? : List Nat → Option ActionList
  | [] => none
  | term :: words =>
    if term = Code.listEnd then readEnd? words
    else
      match words with
      | low :: high :: rest =>
        (read? rest).map fun list => { list with entries := (term, join low high) :: list.entries }
      | _ => none

/-- The list of actions at an address. -/
def at? (data : List Nat) (address : Nat) : Option ActionList :=
  read? (data.drop address)

end ActionList

/-! ## §2 Gotos -/

namespace GotoTable

/-- The target of the first group that lists a state, or else of the last
group. -/
def search (source : Nat) : List Nat → Option Nat
  | head :: target :: rest =>
    if head % 2 = 1 then some target
    else if (rest.take (head / 2)).contains source then some target
    else search source (rest.drop (head / 2))
  | _ => none
termination_by words => words.length

/-- Where a symbol leads from a state, by their numbers. -/
def lookup? (table : List Nat) (symbol source : Nat) : Option Nat := do
  let count ← table.head?
  if symbol < count then search source (table.drop (← table[symbol + 1]?)) else none

end GotoTable

end GrammarCompiler
