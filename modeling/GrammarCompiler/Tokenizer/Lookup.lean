/-
GrammarCompiler.Tokenizer.Lookup — walking through the numbers of a tokenizer.

A record says which groups it is of interest to, which tokens end there, and
where code units lead. A walk for one group stops at a record that is of no
interest to the group, and where no edge fits.
-/
import GrammarCompiler.Tokenizer.Layout

namespace GrammarCompiler.Layout

/-- A record: its groups, the tokens that end there with their groups, and its
edges. -/
structure Record where
  groups : Nat
  tokens : List (Nat × Nat)
  edges : List UnitEdge
deriving DecidableEq, Repr

/-- The first `n` pairs of some numbers. -/
def readTokens? : (n : Nat) → List Nat → Option (List (Nat × Nat))
  | 0, _ => some []
  | n + 1, id :: groups :: rest => ((id, groups) :: ·) <$> readTokens? n rest
  | _ + 1, _ => none

/-- The first `n` edges of some numbers. An upper limit of zero is the one
above the last code unit. -/
def readEdges? : (n : Nat) → List Nat → Option (List UnitEdge)
  | 0, _ => some []
  | n + 1, lo :: hi :: target :: rest =>
    (⟨lo, if hi = 0 then 0x10000 else hi, target⟩ :: ·) <$> readEdges? n rest
  | _ + 1, _ => none

/-- The record at an address. -/
def record? (words : List Nat) (address : Nat) : Option Record :=
  match words.drop address with
  | groups :: tokensEnd :: edgeCount :: rest => do
    let tokens ← readTokens? ((tokensEnd - (address + 3)) / 2) rest
    let edges ← readEdges? edgeCount (words.drop tokensEnd)
    return ⟨groups, tokens, edges⟩
  | _ => none

/-- Where a code unit leads from the record at an address, for a group. -/
def follow? (words : List Nat) (group address unit : Nat) : Option Nat := do
  let r ← record? words address
  if r.groups.testBit group then
    (r.edges.find? fun e => e.lo ≤ unit && unit < e.hi).map UnitEdge.target
  else none

/-- Where code units lead from the record at an address, for a group. -/
def walkFrom? (words : List Nat) (group : Nat) : (address : Nat) → List Nat → Option Nat
  | address, [] => some address
  | address, unit :: rest => do walkFrom? words group (← follow? words group address unit) rest

end GrammarCompiler.Layout
