/-
GrammarCompiler.Automaton.Closure — the rules that can start at an item.

Where a symbol with rules is read next, its rules start, and with them the
rules of the symbols they begin with. Each rule is started once; the terminals
that can follow it are collected from everywhere it starts. When they become
more, the rules it begins with are looked at again.

  §1 Starting rules — for one symbol, on behalf of one item.
  §2 The closure    — until nothing is added. Every further look follows on
                      at least one new terminal for one rule, which bounds
                      the number of looks.
-/
import GrammarCompiler.Automaton.Item
import GrammarCompiler.Grammar.First

namespace GrammarCompiler

/-- The symbols whose rules were started, each with the items of its rules, and
the rules whose beginnings have to be looked at again, the last added
first. -/
structure Closing where
  started : List (Term × List Item)
  pending : List Rule
deriving Repr

namespace Closing

/-! ## §1 Starting rules -/

/-- What starts rules: the item, the symbol it reads next, and what can come
behind that symbol. -/
structure Request where
  item : Item
  name : Term
  ahead : TermSet
  ambiguities : List String
  skip : Term
deriving Repr

/-- What an item starts, if it reads a symbol with rules next. -/
def Request.ofItem? (g : Grammar) (table : FirstTable) (i : Item) : Option Request :=
  match i.next? with
  | none => none
  | some name =>
    if g.isTerminal name then none
    else some {
      item := i
      name
      ahead := table.termsAhead g i.rule i.dot i.ahead
      ambiguities := (i.marksAt (i.dot + 1)).ambiguities
      skip := if i.dot + 1 = i.rule.parts.length then i.skipAhead else i.rule.skip }

/-- Whether a rule begins with a symbol that has rules. -/
def beginsWithRules (g : Grammar) (r : Rule) : Bool :=
  match r.parts.head? with
  | some first => !g.isTerminal first
  | none => false

/-- The item for a rule that starts for the first time, before anything is
added to what can follow it: one that starts in the kernel, or a new one. -/
def newItem (kernel : List Item) (q : Request) (r : Rule) : Item :=
  (kernel.find? fun i => i.dot == 0 && i.rule == r).getD
    { rule := r, dot := 0, ahead := TermSet.empty, ambigAhead := [], skipAhead := q.skip,
      origins := q.item.chain }

/-- The items for the rules of the symbol that is read next. -/
def itemsFor (g : Grammar) (kernel : List Item) (q : Request) (c : Closing) : List Item :=
  (c.started.lookup q.name).getD ((g.rulesFor q.name).map (newItem kernel q))

/-- Adds to items what can follow their rules. Rules that begin with rules are
pending when there was anything new for them. -/
def grow (g : Grammar) (q : Request) : (items : List Item) → (pending : List Rule) →
    List Item × List Rule
  | [], pending => ([], pending)
  | item :: items, pending =>
    let (ahead, grown) := item.ahead.addAll q.ahead
    let again := grown && beginsWithRules g item.rule && !pending.contains item.rule
    let (rest, pending) := grow g q items (if again then item.rule :: pending else pending)
    let ambigAhead := unionNames item.ambigAhead q.ambiguities
    ({ item with ahead, ambigAhead } :: rest, pending)

/-- Puts the items of a symbol in the place of those it had, or at the end. -/
def put (name : Term) (items : List Item) : List (Term × List Item) → List (Term × List Item)
  | [] => [(name, items)]
  | entry :: rest =>
    if entry.1 == name then (name, items) :: rest else entry :: put name items rest

/-- Starts all rules for the symbol that an item reads next. What may be
skipped behind a rule must be the same wherever it starts. -/
def startAll (g : Grammar) (table : FirstTable) (kernel : List Item) (c : Closing)
    (i : Item) : Except BuildError Closing :=
  match Request.ofItem? g table i with
  | none => .ok c
  | some q =>
    let items := c.itemsFor g kernel q
    if items.any fun i => i.skipAhead != q.skip then
      .error (.grammar (.inconsistentSkip (q.item.trail g 60)) none)
    else
      let (items, pending) := grow g q items c.pending
      .ok ⟨put q.name items c.started, pending⟩

/-- The item of a rule that was started. -/
def itemOf? (c : Closing) (r : Rule) : Option Item :=
  (c.started.lookup r.name).bind fun items =>
    items.find? fun i => i.rule.id == r.id && i.rule == r

/-! ## §2 The closure -/

/-- Looks at pending rules until there are none. -/
def settle (g : Grammar) (table : FirstTable) (kernel : List Item) :
    (fuel : Nat) → Closing → Except BuildError Closing
  | 0, _ => .error (.grammar .unfinished none)
  | fuel + 1, c =>
    match c.pending with
    | [] => .ok c
    | r :: pending =>
      let c := { c with pending }
      match c.itemOf? r with
      | none => settle g table kernel fuel c
      | some item => do settle g table kernel fuel (← startAll g table kernel c item)

/-- The items of a closure: the kernel, where started rules take the place of
the items for the same rules, and the other started rules. -/
def items (kernel : List Item) (c : Closing) : List Item :=
  let started := c.started.flatMap Prod.snd
  let kept := kernel.filter fun i =>
    !(i.dot == 0 && started.any fun s => s.rule == i.rule)
  Item.sort (kept ++ started)

end Closing

/-- The kernel of a state with all rules that can start there. -/
def closure (g : Grammar) (table : FirstTable) (kernel : List Item) :
    Except BuildError (List Item) := do
  let fuel := g.rules.length * (g.terms.size + 1) + 1
  let c ← kernel.foldlM (Closing.startAll g table kernel) ⟨[], []⟩
  return (← Closing.settle g table kernel fuel c).items kernel

end GrammarCompiler
