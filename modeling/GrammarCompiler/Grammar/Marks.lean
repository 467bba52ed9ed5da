/-
GrammarCompiler.Grammar.Marks — what markers say about a gap of a rule.

Each gap between the parts of a rule carries a precedence, the ambiguities
that are allowed there, and a level at which alternatives are cut off. Marks
that fall on the same gap are joined: the highest precedence and cut count,
and every ambiguity is allowed.

  §1 Comparison of lists — by length first.
  §2 Sorted names        — lists of names that are sorted, each name once.
  §3 Marks               — joining and comparing.
-/
namespace GrammarCompiler

/-! ## §1 Comparison of lists -/

/-- The first comparison that is not equal. -/
def firstDifference (compare : α → α → Ordering) : List α → List α → Ordering
  | a :: as, b :: bs => (compare a b).then (firstDifference compare as bs)
  | _, _ => .eq

/-- Compares lists by length, then element by element. -/
def compareByLength (compareItem : α → α → Ordering) (as bs : List α) : Ordering :=
  (compare as.length bs.length).then (firstDifference compareItem as bs)

/-! ## §2 Sorted names -/

/-- Adds a name to a sorted list, unless it is there. -/
def insertName (name : String) : List String → List String
  | [] => [name]
  | other :: rest =>
    if name = other then other :: rest
    else if name < other then name :: other :: rest
    else other :: insertName name rest

/-- The names of two sorted lists, sorted. -/
def unionNames (as bs : List String) : List String :=
  bs.foldl (fun names name => insertName name names) as

theorem mem_insertName {name other : String} {names : List String} :
    other ∈ insertName name names ↔ other = name ∨ other ∈ names := by
  induction names with
  | nil => exact List.mem_cons
  | cons first rest ih =>
    unfold insertName
    split
    next heq => exact ⟨.inr, fun h => h.elim (fun h => h.trans heq ▸ .head _) id⟩
    next =>
      split
      · exact List.mem_cons
      · rw [List.mem_cons, ih, List.mem_cons, or_left_comm]

theorem mem_unionNames {name : String} {as bs : List String} :
    name ∈ unionNames as bs ↔ name ∈ as ∨ name ∈ bs := by
  unfold unionNames
  induction bs generalizing as with
  | nil => exact ⟨.inl, fun h => h.elim id (nomatch ·)⟩
  | cons b bs ih => rw [List.foldl_cons, ih, mem_insertName, List.mem_cons, or_assoc, or_left_comm]

/-! ## §3 Marks -/

/-- What markers say about a gap. -/
structure Marks where
  precedence : Nat := 0
  ambiguities : List String := []
  cut : Nat := 0
deriving DecidableEq, Repr, Inhabited

namespace Marks

/-- No marks. -/
def none : Marks := {}

/-- The marks of both. -/
def join (a b : Marks) : Marks where
  precedence := max a.precedence b.precedence
  ambiguities := unionNames a.ambiguities b.ambiguities
  cut := max a.cut b.cut

/-- An order on marks: by precedence, by ambiguities, by cut. -/
def compare (a b : Marks) : Ordering :=
  (Ord.compare a.precedence b.precedence).then
    ((compareByLength Ord.compare a.ambiguities b.ambiguities).then
      (Ord.compare a.cut b.cut))

/-- The marks of several gaps that have become one. -/
def joinAll (marks : List Marks) : Marks :=
  marks.foldl join none

end Marks

end GrammarCompiler
