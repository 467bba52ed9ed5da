/-
GrammarCompiler.Journal — what happens in a build.

A build keeps a journal: an event for every warning and for every stage, in
the order in which they happen. It is kept also when the build fails.

  §1 Events   — what can be noted, with its wording.
  §2 Journals — writing and reading.
-/
namespace GrammarCompiler

/-! ## §1 Events -/

/-- How important an event is. -/
inductive Level where
  | warn
  | debug
  | trace
deriving DecidableEq

/-- The name of a level. -/
def Level.name : Level → String
  | warn => "WARN"
  | debug => "DEBUG"
  | trace => "TRACE"

/-- Something that happened in a build. Warnings come with their place in the
text. -/
inductive Event where
  | warning (message : String)
  | flattened (rules terms : Nat)
  | inlining (rules pass : Nat)
  | simplified (before after : Nat)
  | firstSet (name set : String)
  | searched (states : Nat)
  | fullAutomaton (states : Nat)
  | tokenizer (states : Nat)
  | tokenGroups (count : Nat)
  | collapsePass (pass clusters : Nat)
  | collapsed (states : Nat)
  | state (text : String)
  | tables (states stateData goto tokenData : Nat)
deriving DecidableEq

namespace Event

/-- How important an event is. -/
def level : Event → Level
  | warning _ => .warn
  | inlining _ _ | firstSet _ _ | state _ => .trace
  | _ => .debug

/-- The wording of an event. -/
def message : Event → String
  | warning message => message
  | flattened rules terms => s!"Built {rules} rules over {terms} terms"
  | inlining rules pass => s!"Inlining {rules} rules (pass {pass})"
  | simplified before after => s!"Simplified {before} rules to {after}"
  | firstSet name set => s!"first({name}) = {set}"
  | searched states => s!"Full LR(1) automaton has {states} states"
  | fullAutomaton states => s!"Full automaton: {states} states"
  | tokenizer states => s!"Tokenizer has {states} states"
  | tokenGroups count => s!"{count} token groups"
  | collapsePass pass clusters => s!"Collapse pass {pass}: {clusters} groups"
  | collapsed states => s!"Collapsed automaton: {states} states"
  | state text => text
  | tables states stateData goto tokenData =>
    s!"Tables: {states} states, {stateData} state data, {goto} goto, {tokenData} token data"

/-- The message of a warning. -/
def warning? : Event → Option String
  | warning message => some message
  | _ => none

/-- An event as a line of a log. -/
def line (e : Event) : String :=
  e.level.name ++ " " ++ e.message

end Event

/-! ## §2 Journals -/

/-- The events of a build, in order. -/
structure Journal where
  events : Array Event := #[]

namespace Journal

/-- Notes an event. -/
def note (j : Journal) (e : Event) : Journal :=
  ⟨j.events.push e⟩

/-- The warnings. -/
def warnings (j : Journal) : List String :=
  j.events.toList.filterMap Event.warning?

/-- The log lines, with or without the warnings. -/
def log (j : Journal) (withWarnings : Bool) : List String :=
  (j.events.toList.filter fun e => withWarnings || e.warning?.isNone).map Event.line

end Journal

end GrammarCompiler
