/-
GrammarCompiler.Printable — numbers as printable characters.

Tables are written into string literals. A number is a sequence of digits in
base 46, the most significant first; the last digit is raised by 46, which
marks the end of the number. Digits stand for the printable characters from
the space on, less the quote and the backslash, which would need escapes.
The largest 16-bit number is frequent enough to have a character of its own.

  §1 Writing — `encode` and `encodeArray`, which begins with the length.
  §2 Reading — `decodeArray`, in 32-bit arithmetic that wraps.
-/
import GrammarCompiler.Fault

namespace GrammarCompiler.Printable

/-- The base of the number system. -/
def base : Nat := 46

/-- The number with a character of its own. -/
def marker : Nat := 0xffff

/-- The character of `marker`. -/
def markerChar : Char := '~'

/-! ## §1 Writing -/

/-- The character of a digit below twice the base. -/
def digitChar (digit : Nat) : Char :=
  if digit + 32 < 34 then Char.ofNat (digit + 32)
  else if digit + 33 < 92 then Char.ofNat (digit + 33)
  else Char.ofNat (digit + 34)

/-- The digits before the last one. -/
def leadingDigits (n : Nat) : List Char :=
  if n = 0 then [] else leadingDigits (n / base) ++ [digitChar (n % base)]
termination_by n
decreasing_by exact Nat.div_lt_self (by omega) (by decide)

/-- The characters of a number. -/
def digits (n : Nat) : List Char :=
  if n = marker then [markerChar]
  else leadingDigits (n / base) ++ [digitChar (n % base + base)]

/-- The characters of a number that is at most `max`. -/
def encode (value max : Nat) : Except BuildError (List Char) :=
  if max < value then .error (.capacity (.encodedNumber value)) else .ok (digits value)

/-- The characters of each number in turn. -/
def encodeAll (max : Nat) : List Nat → Except BuildError (List Char)
  | [] => .ok []
  | value :: values => do
    let first ← encode value max
    let rest ← encodeAll max values
    return first ++ rest

/-- A string literal that holds the length of a list and then its numbers. The
length is a 32-bit number that `max` does not limit. -/
def encodeArray (values : List Nat) (max : Nat) : Except BuildError String := do
  let body ← encodeAll max values
  return String.ofList ('"' :: digits (values.length % UInt32.size) ++ body ++ ['"'])

/-! ## §2 Reading -/

/-- The digit of a byte. -/
def byteDigit (byte : UInt8) : UInt32 :=
  let code := byte.toUInt32
  let code := if 92 ≤ code then code - 1 else code
  let code := if 34 ≤ code then code - 1 else code
  code - 32

/-- Reads numbers to the end of the bytes. `value` is what the number under
way has come to, and `inside` tells whether there is one. `none` when the
bytes end inside a number. -/
def decodeFrom (value : UInt32) (inside : Bool) : List UInt8 → Option (List UInt32)
  | [] => if inside then none else some []
  | byte :: bytes =>
    if byte = 126 then (decodeFrom 0 false bytes).map (0xffff :: ·)
    else
      let digit := byteDigit byte
      if 46 ≤ digit then (decodeFrom 0 false bytes).map ((value + (digit - 46)) :: ·)
      else decodeFrom ((value + digit) * 46) true bytes

/-- The numbers of an encoded array, without the length that precedes
them. -/
def decodeArray (text : String) : Option (List UInt32) :=
  (decodeFrom 0 false text.toUTF8.data.toList).map (List.drop 1)

end GrammarCompiler.Printable
