/-
GrammarCompiler.Tokenizer.Language — what token rules mean.

`Spells rules e word` says that the code units `word` are one of the texts
that the expression `e` describes. A reference describes what the body of its
rule does once arguments stand in place of parameters, so that rules which
refer to themselves have the least meaning that fits them.
-/
import GrammarCompiler.Draft.Substitute
import GrammarCompiler.Text.Units

namespace GrammarCompiler

open Text

/-- The texts that an expression describes, as code units. Any character is
one code unit or a surrogate pair. -/
inductive Spells (rules : List RuleDecl) : Expr → List Nat → Prop where
  | literal (start : Nat) (value : String) :
      Spells rules (.literal start value) (units value.toList)
  | charClass (start : Nat) {cls : CharClass} {c : Char}
      (h : CharSet.contains cls.ranges c.toNat = true) :
      Spells rules (.charClass start cls) (units [c])
  | set (start : Nat) {ranges : List CodeRange} {inverted : Bool} {c : Char}
      (h : CharSet.contains ranges c.toNat = !inverted) :
      Spells rules (.set start ranges inverted) (units [c])
  | anyUnit (start : Nat) {unit : Nat} (h : unit < 0x10000) : Spells rules (.any start) [unit]
  | anyPair (start : Nat) {high low : Nat} (hh : isHighSurrogate high = true)
      (hl : isLowSurrogate low = true) : Spells rules (.any start) [high, low]
  | choice (start : Nat) {alternatives : List Expr} {e : Expr} {word : List Nat}
      (he : e ∈ alternatives) (h : Spells rules e word) :
      Spells rules (.choice start alternatives) word
  | nil (start : Nat) (markers : List (List Marker)) :
      Spells rules (.sequence start [] markers) []
  | cons (start : Nat) (markers : List (List Marker)) {e : Expr} {elements : List Expr}
      {word rest : List Nat} (first : Spells rules e word)
      (later : Spells rules (.sequence start elements markers) rest) :
      Spells rules (.sequence start (e :: elements) markers) (word ++ rest)
  | never (start : Nat) (body : Expr) {kind : RepeatKind} (h : kind ≠ .plus) :
      Spells rules (.repeated start body kind) []
  | once (start : Nat) {body : Expr} (kind : RepeatKind) {word : List Nat}
      (h : Spells rules body word) : Spells rules (.repeated start body kind) word
  | again (start : Nat) {body : Expr} {kind : RepeatKind} {word rest : List Nat}
      (hk : kind ≠ .optional) (first : Spells rules body word)
      (later : Spells rules (.repeated start body kind) rest) :
      Spells rules (.repeated start body kind) (word ++ rest)
  | reference (start : Nat) {name : String} {args : List Expr} {rule : RuleDecl} {body : Expr}
      {word : List Nat} (hr : rules.find? (fun r => r.id.name == name) = some rule)
      (hb : rule.bodyWith args = .ok body) (h : Spells rules body word) :
      Spells rules (.name start name args) word

end GrammarCompiler
