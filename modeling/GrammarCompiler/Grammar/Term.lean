/-
GrammarCompiler.Grammar.Term — the symbols of a grammar.

A `Term` is a symbol's place in the order of creation, which also breaks ties
wherever symbols are sorted. What is known about it stands in a `TermTable`:

  §1 Terms       — symbols and what can be known about them.
  §2 Term tables — creating symbols and looking them up. The end of the
                   input and the error symbol are always there.
-/
import GrammarCompiler.NameMap

namespace GrammarCompiler

/-! ## §1 Terms -/

/-- A symbol, by its place in the order of creation. -/
structure Term where
  index : Nat
deriving DecidableEq, Repr, Inhabited, Ord

namespace Term

theorem eq_of_index_eq {t u : Term} (h : t.index = u.index) : t = u :=
  congrArg Term.mk h

/-- The end of the input. -/
def eof : Term := ⟨0⟩

/-- The symbol that stands for an error in syntax trees. -/
def error : Term := ⟨1⟩

/-- Whether a symbol was created before another, or is the same. -/
def le (a b : Term) : Bool :=
  a.index ≤ b.index

/-- Adds a symbol to the end of a list, unless it is there. -/
def addNew (found : List Term) (t : Term) : List Term :=
  if found.contains t then found else found ++ [t]

theorem mem_addNew {found : List Term} {t u : Term} : t ∈ addNew found u ↔ t ∈ found ∨ t = u := by
  unfold addNew
  split
  next hu =>
    have hu : u ∈ found := by simpa using hu
    constructor
    · exact .inl
    · rintro (h | rfl)
      · exact h
      · exact hu
  next => rw [List.mem_append, List.mem_singleton]

theorem mem_foldl_addNew {found symbols : List Term} {t : Term} :
    t ∈ symbols.foldl addNew found ↔ t ∈ found ∨ t ∈ symbols := by
  induction symbols generalizing found with
  | nil => simp
  | cons u symbols ih => rw [List.foldl_cons, ih, List.mem_cons, mem_addNew, or_assoc]

theorem nodup_foldl_addNew {found symbols : List Term} (h : found.Nodup) :
    (symbols.foldl addNew found).Nodup := by
  induction symbols generalizing found with
  | nil => exact h
  | cons u symbols ih =>
    apply ih
    unfold addNew
    split
    next => exact h
    next hu =>
      have hu : u ∉ found := by simpa using hu
      refine List.nodup_append.mpr ⟨h, by simp, ?_⟩
      rintro t ht _ hlast rfl
      exact hu (List.mem_singleton.mp hlast ▸ ht)

end Term

/-- The kinds of symbols. A repeat stands for one or more of something. -/
inductive TermKind where
  | terminal
  | nonterminal
  | top
  | repeating
deriving DecidableEq, Repr, Inhabited

/-- What is known about a symbol. A preserved symbol is kept even when
nothing uses it; an inlined one is replaced by its rules. -/
structure TermInfo where
  name : String
  kind : TermKind
  nodeName : Option String := none
  props : NameMap String := []
  preserved : Bool := false
  inlined : Bool := false
deriving DecidableEq, Repr, Inhabited

namespace TermInfo

/-- Whether the symbol shows up in syntax trees. -/
def isNode (t : TermInfo) : Bool :=
  t.kind == .top || t.nodeName.isSome || !t.props.isEmpty || t.kind == .repeating

/-- Whether the symbol has to stay apart from others with the same rules. -/
def isDistinct (t : TermInfo) : Bool :=
  t.kind != .nonterminal || t.preserved || t.inlined || t.nodeName.isSome

end TermInfo

/-! ## §2 Term tables -/

/-- The symbols created so far, and the top symbols among them. -/
structure TermTable where
  entries : Array TermInfo
  tops : List Term
deriving DecidableEq, Repr, Inhabited

namespace TermTable

/-- The table that holds the end of the input and the error symbol. -/
def initial : TermTable where
  entries := #[
    { name := "␄", kind := .terminal },
    { name := "⚠", kind := .nonterminal, nodeName := some "⚠", preserved := true }]
  tops := []

/-- The number of symbols. -/
def size (t : TermTable) : Nat :=
  t.entries.size

/-- All symbols in the order of creation. -/
def all (t : TermTable) : List Term :=
  (List.range t.size).map Term.mk

/-- What is known about a symbol. -/
def info (t : TermTable) (term : Term) : TermInfo :=
  t.entries[term.index]?.getD default

/-- The name of a symbol. -/
def name (t : TermTable) (term : Term) : String :=
  (t.info term).name

/-- Whether a symbol is a terminal. -/
def isTerminal (t : TermTable) (term : Term) : Bool :=
  (t.info term).kind == .terminal

/-- Whether a symbol is a top symbol. -/
def isTop (t : TermTable) (term : Term) : Bool :=
  (t.info term).kind == .top

/-- Whether a symbol is a repeat. -/
def isRepeat (t : TermTable) (term : Term) : Bool :=
  (t.info term).kind == .repeating

/-- Creates a symbol. -/
def add (t : TermTable) (info : TermInfo) : Term × TermTable :=
  let term : Term := ⟨t.size⟩
  (term,
    { entries := t.entries.push info
      tops := if info.kind == .top then t.tops ++ [term] else t.tops })

/-- Changes what is known about a symbol. -/
def modify (t : TermTable) (term : Term) (f : TermInfo → TermInfo) : TermTable :=
  { t with entries := t.entries.modify term.index f }

/-- Whether a symbol has a name. -/
def isTaken (t : TermTable) (name : String) : Bool :=
  t.entries.any fun info => info.name == name

/-- The `n`-th name derived from `base`: itself, then with numbers. -/
def variant (base : String) : Nat → String
  | 0 => base
  | n + 1 => s!"{base}-{n + 1}"

/-- The first name derived from `base` that no symbol has. One more name than
there are symbols is enough to choose from. -/
def freshName (t : TermTable) (base : String) : String :=
  let names := (List.range (t.size + 1)).map (variant base)
  (names.find? fun name => !t.isTaken name).getD base

end TermTable

end GrammarCompiler
