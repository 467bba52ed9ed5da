/-
GrammarCompiler.Tokenizer.Overlap — tokens that match the same text.

Two tokens overlap when both match a text, or when one matches a text and the
other goes on from there. If the token that goes on is longer for certain and
the two are wanted in the same place, the longer match can be preferred; then
the overlap is soft.
-/
import GrammarCompiler.Tokenizer.Dfa

namespace GrammarCompiler

/-- Two tokens that overlap. `soft` is zero if there is no telling which one
to prefer; otherwise it is positive when `first` is the longer match, and
negative when `second` is. The texts are an example. -/
structure Overlap where
  first : Term
  second : Term
  soft : Int
  text : String := ""
  longerText : Option String := none
deriving DecidableEq, Repr

namespace Overlap

/-- Whether an overlap is between two tokens, in either order. -/
def involves (o : Overlap) (a b : Term) : Bool :=
  (o.first == a && o.second == b) || (o.first == b && o.second == a)

/-- The text of a sequence of code units. -/
def textOf (units : List Nat) : String :=
  String.ofList (Text.ofUnits units)

/-- Adds an overlap, the token with the higher number first. Overlaps of the
same tokens that do not agree are not soft. -/
def add (ids : Term → Nat) (found : List Overlap) (a b : Term) (soft : Int)
    (text : List Nat) (longer : Option (List Nat)) : List Overlap :=
  let (a, b, soft) := if ids a < ids b then (b, a, -soft) else (a, b, soft)
  if found.any fun o => o.first == a && o.second == b then
    found.map fun o =>
      if o.first == a && o.second == b && o.soft != soft then { o with soft := 0 } else o
  else found ++ [⟨a, b, soft, textOf text, longer.map textOf⟩]

end Overlap

namespace Dfa

/-- The tokens that end in states on a circle: they can match texts of any
length. -/
def unboundedTokens (a : Dfa) : List Term :=
  let onCircle (i : Nat) :=
    (a.reachable i).any fun s => (a.state s.node).edges.any fun e => e.target == i
  (List.range a.size).foldl (fun found i =>
    let tokens := (a.state i).accepting
    if !tokens.isEmpty && onCircle i then
      tokens.foldl Term.addNew found
    else found) []

/-- Adds the overlaps between tokens that end in the same state. -/
def addSame (ids : Term → Nat) (text : List Nat) : List Term → List Overlap → List Overlap
  | [], found => found
  | token :: later, found =>
    addSame ids text later
      (later.foldl (fun found other => Overlap.add ids found token other 0 text none) found)

/-- Adds the overlaps between the tokens `here` that end after `text` and
those that end `there`, where `rest` leads from here. -/
def addLonger (ids : Term → Nat) (unbounded : List Term) (together : Term → Term → Bool)
    (text rest : List Nat) (here there : List Term) (found : List Overlap) : List Overlap :=
  there.foldl (fun found token =>
    here.foldl (fun found other =>
      if token == other then found
      else
        let soft : Int :=
          if here.contains token || unbounded.contains token || !together token other then 0
          else 1
        Overlap.add ids found token other soft text (some (text ++ rest))) found) found

/-- The tokens that overlap. `together` tells whether two tokens can be
wanted in the same place. -/
def overlaps (a : Dfa) (ids : Term → Nat) (together : Term → Term → Bool) : List Overlap :=
  let unbounded := a.unboundedTokens
  (a.reachable 0).foldl (fun found first =>
    let here := (a.state first.node).accepting
    if here.isEmpty then found
    else
      let text := first.path
      let found := addSame ids text here found
      (a.reachable first.node).foldl (fun found second =>
        let there := (a.state second.node).accepting
        if second.node = first.node || there.isEmpty then found
        else addLonger ids unbounded together text second.path here there found) found) []

end Dfa

end GrammarCompiler
