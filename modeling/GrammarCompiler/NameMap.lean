/-
GrammarCompiler.NameMap — values by name, in the order of the names.

The list is kept sorted by name (code point by code point) and holds every
name once, so that going through it visits the names in order.
-/
namespace GrammarCompiler

/-- Values by name, sorted by name. -/
abbrev NameMap (α : Type) := List (String × α)

namespace NameMap

/-- The value of a name. -/
def get? (m : NameMap α) (name : String) : Option α :=
  m.lookup name

/-- Whether a name has a value. -/
def has (m : NameMap α) (name : String) : Bool :=
  m.any fun entry => entry.1 == name

/-- Gives a name a value, in place of the one it had. -/
def insert (name : String) (value : α) : NameMap α → NameMap α
  | [] => [(name, value)]
  | (other, old) :: rest =>
    if name = other then (name, value) :: rest
    else if name < other then (name, value) :: (other, old) :: rest
    else (other, old) :: insert name value rest

end NameMap

end GrammarCompiler
