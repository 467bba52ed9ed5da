/-
GrammarCompiler.Text.Units — text as 16-bit code units.

Tokenizers read code units, so that a code point of the basic plane is one
step and any other is a surrogate pair:

  §1 Writing — `surrogates`, `unitsOf` and `units`.
  §2 Reading — `ofUnits`, with the replacement character for a surrogate
               that stands alone.
-/
namespace GrammarCompiler.Text

/-! ## §1 Writing -/

/-- The surrogate pair of a code point above the basic plane. -/
def surrogates (code : Nat) : Nat × Nat :=
  (0xd800 + (code - 0x10000) / 0x400, 0xdc00 + (code - 0x10000) % 0x400)

/-- The code units of a code point. -/
def unitsOf (code : Nat) : List Nat :=
  if code < 0x10000 then [code] else [(surrogates code).1, (surrogates code).2]

/-- The code units of a text. -/
def units (text : List Char) : List Nat :=
  text.flatMap fun c => unitsOf c.toNat

/-! ## §2 Reading -/

/-- A code unit that starts a surrogate pair. -/
def isHighSurrogate (unit : Nat) : Bool :=
  0xd800 ≤ unit && unit < 0xdc00

/-- A code unit that ends a surrogate pair. -/
def isLowSurrogate (unit : Nat) : Bool :=
  0xdc00 ≤ unit && unit < 0xe000

/-- The character that stands for a surrogate without a partner. -/
def replacement : Char := Char.ofNat 0xfffd

/-- The text of a sequence of code units. -/
def ofUnits : List Nat → List Char
  | [] => []
  | [unit] =>
    [if isHighSurrogate unit || isLowSurrogate unit then replacement else Char.ofNat unit]
  | unit :: next :: rest =>
    if isHighSurrogate unit && isLowSurrogate next then
      Char.ofNat (0x10000 + (unit - 0xd800) * 0x400 + (next - 0xdc00)) :: ofUnits rest
    else if isHighSurrogate unit || isLowSurrogate unit then
      replacement :: ofUnits (next :: rest)
    else
      Char.ofNat unit :: ofUnits (next :: rest)

end GrammarCompiler.Text
