/-
GrammarCompiler.Draft.Specialize — tokens that are cases of other tokens.

A specialization gives texts of a token a meaning of their own. All texts of
one specialization make the same token. A text that is specialized again must
be specialized in the same way, and then makes the same token as before.
-/
import GrammarCompiler.Draft.Token

namespace GrammarCompiler

/-- The texts that an expression lists: a literal, or a choice of literals. -/
def Expr.literals? : Expr → Option (List String)
  | .literal _ value => some [value]
  | .choice _ alternatives => alternatives.mapM Expr.literal?
  | _ => none

namespace Draft

/-- The cases of a token so far. -/
def casesOf (d : Draft) (base : Term) : List Specialization :=
  ((d.specializations.find? fun t => t.base == base).map SpecializationTable.cases).getD []

/-- Makes sure that there is a table for a token. -/
def withTable (d : Draft) (base : Term) : Draft :=
  if d.specializations.any fun t => t.base == base then d
  else { d with specializations := d.specializations ++ [⟨base, []⟩] }

/-- Adds a case to the table of a token. -/
def addCase (d : Draft) (base : Term) (s : Specialization) : Draft :=
  { d with
    specializations := d.specializations.map fun t =>
      if t.base == base then { t with cases := t.cases ++ [s] } else t }

end Draft

namespace Build

open Text

/-- A phrase that is a single terminal, if there is only that. -/
def singleTerminal? (terms : TermTable) : List Phrase → Option Term
  | [⟨[term], _⟩] => if terms.isTerminal term then some term else none
  | _ => none

/-- Why a text cannot be specialized as it is, when it was specialized
before. -/
def clash? (known : Specialization) (kind : SpecializeKind) (info : NodeInfo)
    (made : Option Term) (value base : String) : Option GrammarFault :=
  if known.kind != kind then
    some (.specializationKinds value base kind.name known.kind.name)
  else if known.dialect != info.dialect then some (.specializationDialects value base)
  else if known.nodeName != info.name then some (.specializationNames value base)
  else if made.any fun term => term != known.term then some (.specializationTokens value base)
  else none

/-- Specializes one text. `made` is the token that the texts before it
make. -/
def specializeValue (start : Nat) (kind : SpecializeKind) (info : NodeInfo) (base : Term)
    (made : Option Term) (value : String) : Build (Option Term) := do
  let d ← get
  let baseName := d.terms.name base
  match (d.casesOf base).find? fun s => s.value == value with
  | some known =>
    match clash? known kind info made value baseName with
    | some fault => raise fault (some start)
    | none => return some known.term
  | none =>
    let term ← match made with
      | some term => pure term
      | none => newTerminal s!"{baseName}/{quoted value}" info
    modify fun d => d.addCase base ⟨value, term, kind, info.dialect, info.name⟩
    setOrigin term (.specializes base)
    exportNode info term
    return some term

/-- Specializes texts of a token, which the phrases stand for. -/
def specializeToken (start : Nat) (kind : SpecializeKind) (info : NodeInfo)
    (token content : Expr) (phrases : List Phrase) : Build Term := do
  let some base := singleTerminal? (← get).terms phrases
    | raise (.specializedNotToken kind.name) (some token.start)
  let some values := content.literals?
    | raise (.specializationValues kind.name) (some content.start)
  modify fun d => d.withTable base
  match ← values.foldlM (specializeValue start kind info base) none with
  | some term => return term
  | none => raise (.specializationEmpty kind.name) (some content.start)

end Build

end GrammarCompiler
