/-
GrammarCompiler.Proofs.Derivation — putting derivations together and taking
them apart.

  §1 Sequences — what is derived from one sequence of symbols after another.
  §2 Symbols   — what a single symbol can stand for.
-/
import GrammarCompiler.Grammar.Basic
import Mathlib

namespace GrammarCompiler

namespace Derives

variable {isTerminal : Term → Bool} {rules : List Rule}

/-! ## §1 Sequences -/

theorem append {xs ys u v : List Term} (h : Derives isTerminal rules xs u)
    (h' : Derives isTerminal rules ys v) : Derives isTerminal rules (xs ++ ys) (u ++ v) := by
  induction h with
  | nil => exact h'
  | terminal ht _ ih => exact .terminal ht ih
  | rule hr hn body _ _ ih =>
    rw [List.append_assoc]
    exact .rule hr hn body ih

/-- What two sequences stand for falls into what each of them stands for. -/
theorem exists_of_append {xs ys w : List Term} (h : Derives isTerminal rules (xs ++ ys) w) :
    ∃ u v, w = u ++ v ∧ Derives isTerminal rules xs u ∧ Derives isTerminal rules ys v := by
  induction xs generalizing w with
  | nil => exact ⟨[], w, rfl, .nil, h⟩
  | cons x xs ih =>
    cases h with
    | terminal ht rest =>
      obtain ⟨u, v, rfl, hu, hv⟩ := ih rest
      exact ⟨x :: u, v, rfl, .terminal ht hu, hv⟩
    | rule hr hn body after =>
      obtain ⟨u, v, rfl, hu, hv⟩ := ih after
      exact ⟨_ ++ u, v, (List.append_assoc _ _ _).symm, .rule hr hn body hu, hv⟩

/-- With more rules as much can be derived. -/
theorem mono {rules' : List Rule} (hsub : ∀ r ∈ rules, r ∈ rules') {parts word : List Term}
    (h : Derives isTerminal rules parts word) : Derives isTerminal rules' parts word := by
  induction h with
  | nil => exact .nil
  | terminal ht _ ih => exact .terminal ht ih
  | rule hr hn _ _ ihBody ihAfter => exact .rule (hsub _ hr) hn ihBody ihAfter

/-- A count that no rule changes is the same for what is derived. -/
theorem sum_eq {count : Term → Int} (hrules : ∀ r ∈ rules, (r.parts.map count).sum = count r.name)
    {parts word : List Term} (h : Derives isTerminal rules parts word) :
    (word.map count).sum = (parts.map count).sum := by
  induction h with
  | nil => rfl
  | terminal _ _ ih => rw [List.map_cons, List.sum_cons, List.map_cons, List.sum_cons, ih]
  | rule hr _ _ _ ihBody ihAfter =>
    rw [List.map_append, List.sum_append, ihBody, ihAfter, hrules _ hr, List.map_cons,
      List.sum_cons]

/-! ## §2 Symbols -/

theorem of_terminal {t : Term} (ht : isTerminal t = true) : Derives isTerminal rules [t] [t] :=
  .terminal ht .nil

theorem of_rule {r : Rule} (hr : r ∈ rules) (hn : isTerminal r.name = false) {word : List Term}
    (body : Derives isTerminal rules r.parts word) : Derives isTerminal rules [r.name] word := by
  have h := Derives.rule hr hn body .nil
  rwa [List.append_nil] at h

/-- A symbol that is no terminal stands for what one of its rules stands
for. -/
theorem exists_rule {t : Term} (ht : isTerminal t = false) {word : List Term}
    (h : Derives isTerminal rules [t] word) :
    ∃ r ∈ rules, r.name = t ∧ Derives isTerminal rules r.parts word := by
  cases h with
  | terminal ht' _ =>
    rw [ht] at ht'
    cases ht'
  | rule hr _ body after =>
    cases after
    rw [List.append_nil]
    exact ⟨_, hr, rfl, body⟩

end Derives

/-- A top symbol is no terminal. -/
theorem Grammar.isTerminal_eq_false_of_isTop (g : Grammar) {t : Term}
    (h : g.terms.isTop t = true) : g.isTerminal t = false := by
  have hkind : (g.terms.info t).kind = .top := by simpa [TermTable.isTop] using h
  rw [Grammar.isTerminal, TermTable.isTerminal, hkind]
  rfl

end GrammarCompiler
