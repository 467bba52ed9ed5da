/-
GrammarCompiler.Automaton.Item — how far the reading of a rule has come.

  §1 Dotted rules — a rule and how many of its parts have been read.
  §2 Items        — a dotted rule with what can follow it.
  §3 Order        — how the items of a state are sorted and compared.
  §4 Trails       — what has been read on the way to an item, for messages.
-/
import GrammarCompiler.Grammar.Basic
import GrammarCompiler.Grammar.TermSet

namespace GrammarCompiler

/-! ## §1 Dotted rules -/

/-- A rule of which `dot` parts have been read. -/
structure Dotted where
  rule : Rule
  dot : Nat
deriving DecidableEq, Repr, Inhabited

namespace Dotted

/-- The part that is read next. -/
def next? (d : Dotted) : Option Term :=
  d.rule.parts[d.dot]?

/-- Whether all parts have been read. -/
def atEnd (d : Dotted) : Bool :=
  d.dot == d.rule.parts.length

/-- Whether two dotted rules are the same. -/
def same (a b : Dotted) : Bool :=
  a.dot == b.dot && a.rule.id == b.rule.id && a.rule == b.rule

/-- A dotted rule in text. -/
def shown (g : Grammar) (d : Dotted) : String :=
  let names (parts : List Term) := String.join (parts.map fun t => " " ++ g.name t)
  g.name d.rule.name ++ " ->" ++ names (d.rule.parts.take d.dot) ++ " ·" ++
    names (d.rule.parts.drop d.dot)

end Dotted

/-! ## §2 Items -/

/-- A dotted rule with the terminals that can follow the rule, the
ambiguities allowed at its end, and what may be skipped behind it. The
origins tell because of which items the rule was started, the nearest
first. -/
structure Item extends Dotted where
  ahead : TermSet
  ambigAhead : List String
  skipAhead : Term
  origins : List Dotted := []
deriving Repr, Inhabited

namespace Item

/-- The item after reading one more part. -/
def advance (i : Item) : Item :=
  { i with dot := i.dot + 1 }

/-- What may be skipped at an item. -/
def skip (i : Item) : Term :=
  if i.atEnd then i.skipAhead else i.rule.skip

/-- The marks of a gap. At the end of the rule, the ambiguities allowed there
count as well. -/
def marksAt (i : Item) (gap : Nat) : Marks :=
  let marks := i.rule.marksAt gap
  if gap = i.rule.parts.length then marks.join { ambiguities := i.ambigAhead } else marks

/-- The marks where the item is. -/
def marks (i : Item) : Marks :=
  i.marksAt i.dot

/-- The dotted rule of an item and those of its origins. -/
def chain (i : Item) : List Dotted :=
  i.toDotted :: i.origins

/-! ## §3 Order -/

/-- Whether two items agree in all but their origins. -/
def same (a b : Item) : Bool :=
  a.dot == b.dot && a.rule.id == b.rule.id && a.ahead == b.ahead &&
    a.skipAhead == b.skipAhead && a.ambigAhead == b.ambigAhead && a.rule == b.rule

/-- Compares items by the order in which their rules were created, then by
what else there is to tell them apart. -/
def compare (a b : Item) : Ordering :=
  (Ord.compare a.rule.id b.rule.id).then
    ((Ord.compare a.dot b.dot).then
      ((Ord.compare a.skipAhead b.skipAhead).then
        ((compareByLength Ord.compare a.ahead.toList b.ahead.toList).then
          (compareByLength Ord.compare a.ambigAhead b.ambigAhead))))

/-- Items in order. -/
def sort (items : List Item) : List Item :=
  items.mergeSort fun a b => a.compare b != .gt

/-- Whether two sorted lists hold the same items. -/
def sameAll : List Item → List Item → Bool
  | [], [] => true
  | a :: as, b :: bs => a.same b && sameAll as bs
  | _, _ => false

/-- Whether two sorted lists hold items for the same dotted rules. -/
def sameCores : List Item → List Item → Bool
  | [], [] => true
  | a :: as, b :: bs => a.toDotted.same b.toDotted && sameCores as bs
  | _, _ => false

/-- The items of `items` whose dotted rules are not among those of
`others`. -/
def notIn (others items : List Item) : List Item :=
  items.filter fun i => !others.any fun o => o.toDotted.same i.toDotted

/-! ## §4 Trails -/

/-- The last characters of a text, from the first space among them on. -/
def lastWords (text : String) (max : Nat) : String :=
  let chars := text.toList
  if chars.length ≤ max then text
  else
    let last := chars.drop (chars.length - max)
    match last.dropWhile (· != ' ') with
    | [] => String.ofList last
    | _ :: words => "… " ++ String.ofList words

/-- The parts that have been read on the way to an item, the last `max`
characters of them. -/
def trail (g : Grammar) (i : Item) (max : Nat) : String :=
  let parts := i.chain.reverse.flatMap fun d => d.rule.parts.take d.dot
  lastWords (" ".intercalate (parts.map g.name)) max

/-- The way from the origin `root` to an item, one dotted rule a line, if
there is anything between them. -/
def pathFrom (g : Grammar) (root : Dotted) (i : Item) : String :=
  let between := (i.origins.takeWhile fun d => !d.same root).reverse
  let line (indent : Nat) (text : String) :=
    "\n" ++ String.join (List.replicate (indent + 1) "  ") ++ text
  if between.isEmpty then ""
  else
    String.join (between.zipIdx.map fun (d, n) => line n ("via " ++ d.shown g)) ++
      line between.length (i.toDotted.shown g)

/-- Describes the nearest origin that two items share, if there is one. -/
def sharedOrigin (g : Grammar) (a b : Item) : String :=
  if a.toDotted.same b.toDotted then ""
  else
    match a.chain.find? fun d => b.chain.any d.same with
    | some root =>
      "\nShared origin: " ++ root.shown g ++ pathFrom g root a ++ pathFrom g root b
    | none => ""

end Item

end GrammarCompiler
