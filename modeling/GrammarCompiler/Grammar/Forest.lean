/-
GrammarCompiler.Grammar.Forest — derivation trees, one beside another.

A `Forest` is what a derivation does, as data: for each symbol of a sequence
either the terminal itself, or a rule for the symbol with the forest of the
rule's parts. A derivation tree of a symbol is a forest of that symbol alone.
`derives_iff_exists_forest` says that forests are exactly what derivations
leave behind.
-/
import GrammarCompiler.Grammar.Basic

namespace GrammarCompiler

/-! ## §1 Forests -/

/-- Derivation trees for a sequence of symbols. -/
inductive Forest where
  | nil
  | terminal (t : Term) (after : Forest)
  | rule (r : Rule) (body after : Forest)
deriving DecidableEq, Repr

namespace Forest

/-- The symbols at the roots. -/
def symbols : Forest → List Term
  | nil => []
  | terminal t after => t :: after.symbols
  | rule r _ after => r.name :: after.symbols

/-- The terminals at the leaves. -/
def word : Forest → List Term
  | nil => []
  | terminal t after => t :: after.word
  | rule _ body after => body.word ++ after.word

/-- Whether every leaf is a terminal, and every other node one of the rules
with a forest of its parts. -/
def IsValid (isTerminal : Term → Bool) (rules : List Rule) : Forest → Prop
  | nil => True
  | terminal t after => isTerminal t = true ∧ after.IsValid isTerminal rules
  | rule r body after =>
    r ∈ rules ∧ isTerminal r.name = false ∧ body.symbols = r.parts ∧
      body.IsValid isTerminal rules ∧ after.IsValid isTerminal rules

section

variable {isTerminal : Term → Bool} {rules : List Rule} (t : Term) (r : Rule) (body after : Forest)

@[simp]
theorem symbols_nil : nil.symbols = [] :=
  rfl

@[simp]
theorem symbols_terminal : (terminal t after).symbols = t :: after.symbols :=
  rfl

@[simp]
theorem symbols_rule : (rule r body after).symbols = r.name :: after.symbols :=
  rfl

@[simp]
theorem word_nil : nil.word = [] :=
  rfl

@[simp]
theorem word_terminal : (terminal t after).word = t :: after.word :=
  rfl

@[simp]
theorem word_rule : (rule r body after).word = body.word ++ after.word :=
  rfl

@[simp]
theorem isValid_nil : nil.IsValid isTerminal rules :=
  trivial

@[simp]
theorem isValid_terminal : (terminal t after).IsValid isTerminal rules ↔
    isTerminal t = true ∧ after.IsValid isTerminal rules :=
  .rfl

@[simp]
theorem isValid_rule : (rule r body after).IsValid isTerminal rules ↔
    r ∈ rules ∧ isTerminal r.name = false ∧ body.symbols = r.parts ∧
      body.IsValid isTerminal rules ∧ after.IsValid isTerminal rules :=
  .rfl

end

/-! ## §2 Forests and derivations -/

/-- The roots of a valid forest can stand for its leaves. -/
theorem IsValid.derives {isTerminal : Term → Bool} {rules : List Rule} {f : Forest}
    (h : f.IsValid isTerminal rules) : Derives isTerminal rules f.symbols f.word := by
  induction f with
  | nil => exact .nil
  | terminal t after ih => exact .terminal h.1 (ih h.2)
  | rule r body after ihBody ihAfter =>
    obtain ⟨hr, hn, hs, hb, ha⟩ := h
    exact .rule hr hn (hs ▸ ihBody hb) (ihAfter ha)

/-- A derivation has a forest. -/
theorem exists_of_derives {isTerminal : Term → Bool} {rules : List Rule}
    {parts word : List Term} (h : Derives isTerminal rules parts word) :
    ∃ f : Forest, f.IsValid isTerminal rules ∧ f.symbols = parts ∧ f.word = word := by
  induction h with
  | nil => exact ⟨nil, trivial, rfl, rfl⟩
  | terminal ht _ ih =>
    obtain ⟨f, hf, rfl, rfl⟩ := ih
    exact ⟨terminal _ f, ⟨ht, hf⟩, rfl, rfl⟩
  | rule hr hn _ _ ihBody ihAfter =>
    obtain ⟨body, hb, hs, rfl⟩ := ihBody
    obtain ⟨after, ha, rfl, rfl⟩ := ihAfter
    exact ⟨rule _ body after, ⟨hr, hn, hs, hb, ha⟩, rfl, rfl⟩

/-- Symbols can stand for a word exactly if there is a forest with these
symbols as its roots and the word as its leaves. -/
theorem derives_iff_exists_forest {isTerminal : Term → Bool} {rules : List Rule}
    {parts word : List Term} :
    Derives isTerminal rules parts word ↔
      ∃ f : Forest, f.IsValid isTerminal rules ∧ f.symbols = parts ∧ f.word = word :=
  ⟨exists_of_derives, fun ⟨_, hf, hs, hw⟩ => hs ▸ hw ▸ hf.derives⟩

end Forest

end GrammarCompiler
