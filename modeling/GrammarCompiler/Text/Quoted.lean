/-
GrammarCompiler.Text.Quoted — double-quoted string literals.

Grammars and generated modules write strings between double quotes. Both
escape the quote, the backslash and control characters; modules also escape
the two line separators, which the older grammar of scripts does not allow
inside a literal. `quoteWith` takes the additional characters as a
parameter, `quoted` and `scriptQuoted` are its two uses.
-/
namespace GrammarCompiler.Text

/-! ## §1 Hexadecimal numbers -/

/-- A number in hexadecimal, without leading zeros. -/
def hex (n : Nat) : List Char :=
  Nat.toDigits 16 n

/-- A number in hexadecimal, with leading zeros up to four digits. -/
def hex4 (n : Nat) : List Char :=
  List.leftpad 4 '0' (hex n)

/-! ## §2 Quoting -/

/-- The written form of a character between quotes. Control characters and
the characters of `special` become a four-digit escape unless they have a
short one. -/
def escapeChar (special : Char → Bool) (c : Char) : List Char :=
  if c = '"' then ['\\', '"']
  else if c = '\\' then ['\\', '\\']
  else if c = '\n' then ['\\', 'n']
  else if c = '\r' then ['\\', 'r']
  else if c = '\t' then ['\\', 't']
  else if c.toNat < 0x20 || special c then '\\' :: 'u' :: hex4 c.toNat
  else [c]

/-- A text between double quotes, with escapes. -/
def quoteWith (special : Char → Bool) (text : String) : String :=
  String.ofList ('"' :: text.toList.flatMap (escapeChar special) ++ ['"'])

/-- A string literal of a grammar. -/
def quoted (text : String) : String :=
  quoteWith (fun _ => false) text

/-- A string literal of a generated module. -/
def scriptQuoted (text : String) : String :=
  quoteWith (fun c => c.toNat == 0x2028 || c.toNat == 0x2029) text

end GrammarCompiler.Text
