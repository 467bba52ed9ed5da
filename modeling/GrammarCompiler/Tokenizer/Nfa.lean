/-
GrammarCompiler.Tokenizer.Nfa — automata that read tokens, with choices.

The automaton reads 16-bit code units. Tokens are built into it piece by
piece: states, edges on ranges of code units, and empty edges.

  §1 Automata — states and edges.
  §2 Building — adding states and edges.
  §3 Characters — edges for ranges of code points, by way of surrogate pairs
                for those above the basic plane.
  §4 Words    — which words lead from a state to another.
  §5 Closures — where empty edges lead.
-/
import GrammarCompiler.Grammar.Term
import GrammarCompiler.Text.Units
import GrammarCompiler.Tokenizer.Walk

namespace GrammarCompiler

open Text

/-! ## §1 Automata -/

/-- An edge on the code units from `lo` up to, but not including, `hi`. -/
structure UnitEdge where
  lo : Nat
  hi : Nat
  target : Nat
deriving DecidableEq, Repr

/-- A state: the tokens that end there, and its edges. -/
structure NfaState where
  accepting : List Term := []
  edges : List UnitEdge := []
  empty : List Nat := []
deriving Repr, Inhabited

/-- An automaton with choices. -/
structure Nfa where
  states : Array NfaState
deriving Repr, Inhabited

namespace Nfa

/-- The number of states. -/
def size (a : Nfa) : Nat :=
  a.states.size

/-- A state. -/
def state (a : Nfa) (i : Nat) : NfaState :=
  a.states[i]?.getD {}

/-! ## §2 Building -/

/-- Adds a state. -/
def addState (a : Nfa) : Nat × Nfa :=
  (a.size, ⟨a.states.push {}⟩)

/-- Adds a state where a token ends. -/
def addAccepting (a : Nfa) (token : Term) : Nat × Nfa :=
  (a.size, ⟨a.states.push { accepting := [token] }⟩)

/-- Adds an edge. -/
def addEdge (a : Nfa) (source lo hi target : Nat) : Nfa :=
  ⟨a.states.modify source fun s => { s with edges := s.edges ++ [⟨lo, hi, target⟩] }⟩

/-- Adds an empty edge. -/
def addEmpty (a : Nfa) (source target : Nat) : Nfa :=
  ⟨a.states.modify source fun s => { s with empty := s.empty ++ [target] }⟩

/-! ## §3 Characters -/

/-- Adds a way for two code units in a row, each from a range. -/
def addPair (a : Nfa) (source target highLo highHi lowLo lowHi : Nat) : Nfa :=
  let (middle, a) := a.addState
  (a.addEdge source highLo highHi middle).addEdge middle lowLo lowHi target

/-- Adds edges for the code points of a range within the basic plane, without
the surrogates. -/
def addBasicRange (a : Nfa) (source target lo hi : Nat) : Nfa :=
  let a := if lo < 0xd800 then a.addEdge source lo (min hi 0xd800) target else a
  if 0xe000 < hi then a.addEdge source (max lo 0xe000) (min hi 0x10000) target else a

/-- Adds ways for the code points of a range above the basic plane: for the
first surrogates whose second ones are limited, and for those in between. -/
def addAstralRange (a : Nfa) (source target lo hi : Nat) : Nfa :=
  let (loHigh, loLow) := surrogates lo
  let (hiHigh, hiLow) := surrogates (hi - 1)
  if loHigh = hiHigh then
    a.addPair source target loHigh (loHigh + 1) loLow (hiLow + 1)
  else
    let cutsFirst := decide (0xdc00 < loLow)
    let cutsLast := decide (hiLow < 0xdfff)
    let a := if cutsFirst then
        a.addPair source target loHigh (loHigh + 1) loLow 0xe000
      else a
    let a := if cutsLast then
        a.addPair source target hiHigh (hiHigh + 1) 0xdc00 (hiLow + 1)
      else a
    let first := if cutsFirst then loHigh + 1 else loHigh
    let last := if cutsLast then hiHigh - 1 else hiHigh
    if first ≤ last then a.addPair source target first (last + 1) 0xdc00 0xe000 else a

/-- Adds ways for the code points from `lo` up to, but not including, `hi`. -/
def addRange (a : Nfa) (source target lo hi : Nat) : Nfa :=
  let a := if lo < 0x10000 then a.addBasicRange source target lo hi else a
  if hi ≤ 0x10000 then a else a.addAstralRange source target (max lo 0x10000) hi

/-- Adds ways for any character: one code unit, or a surrogate pair. -/
def addAny (a : Nfa) (source target : Nat) : Nfa :=
  let (middle, a) := a.addState
  let a := a.addEdge source 0 0xdc00 target
  let a := a.addEdge source 0xdc00 0x10000 target
  let a := a.addEdge source 0xd800 0xdc00 middle
  a.addEdge middle 0xdc00 0xe000 target

/-! ## §4 Words -/

/-- `a.Path source word target`: the code units `word` lead from one state to
the other. -/
inductive Path (a : Nfa) : Nat → List Nat → Nat → Prop where
  | done (s : Nat) : Path a s [] s
  | empty {s m t : Nat} {word : List Nat} (h : m ∈ (a.state s).empty)
      (rest : Path a m word t) : Path a s word t
  | edge {s t : Nat} {e : UnitEdge} {u : Nat} {word : List Nat} (h : e ∈ (a.state s).edges)
      (hlo : e.lo ≤ u) (hhi : u < e.hi) (rest : Path a e.target word t) :
      Path a s (u :: word) t

/-! ## §5 Closures -/

/-- Whether a state has edges or ends a token. Other states are of no further
interest once their empty edges have been followed. -/
def isRelevant (a : Nfa) (i : Nat) : Bool :=
  !(a.state i).edges.isEmpty || !(a.state i).accepting.isEmpty

/-- The number of empty edges. -/
def emptyCount (a : Nfa) : Nat :=
  a.states.foldl (fun count s => count + s.empty.length) 0

/-- The relevant states that empty edges lead to, in ascending order. -/
def closure (a : Nfa) (start : Nat) : List Nat :=
  let reached := walk a.size a.emptyCount (fun i => (a.state i).empty.map fun t => (0, t)) start
  ((reached.map Walk.Stop.node).filter a.isRelevant).mergeSort fun i j => decide (i ≤ j)

end Nfa

end GrammarCompiler
