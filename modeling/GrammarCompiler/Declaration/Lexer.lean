/-
GrammarCompiler.Declaration.Lexer — grammar texts as tokens.

  §1 Tokens  — tokens, and the sequence of them that a text consists of. A
               text that stops being a sequence of tokens ends it with the
               fault, which counts only if a parser gets that far.
  §2 Blanks  — white space and comments.
  §3 Escapes — the characters written with a backslash.
  §4 Strings and character sets.
  §5 The lexer — one token, then all of them. Every token takes at least one
               character, so the length of the text bounds their number.
-/
import GrammarCompiler.CharSet
import GrammarCompiler.Fault
import GrammarCompiler.Text.Letters

namespace GrammarCompiler

open Text

/-! ## §1 Tokens -/

/-- A token of the grammar language. -/
inductive Token where
  | name (text : String)
  | atName (name : String)
  | string (value : String)
  | set (ranges : List CodeRange) (inverted : Bool)
  | punct (c : Char)
deriving DecidableEq, Repr

/-- What messages call a token. -/
def Token.describe : Token → String
  | name text => s!"'{text}'"
  | atName text => s!"'@{text}'"
  | string value => quoted value
  | set _ _ => "character set"
  | punct c => s!"'{c}'"

/-- The tokens of a text, each with the offset where it starts. -/
inductive Tokens where
  | cons (start : Nat) (token : Token) (rest : Tokens)
  | done (start : Nat)
  | broken (fault : SyntaxFault) (offset : Nat)
deriving Repr

/-- The number of tokens. -/
def Tokens.length : Tokens → Nat
  | cons _ _ rest => rest.length + 1
  | done _ => 0
  | broken _ _ => 0

/-- A syntax fault and the offset it is found at. -/
structure SyntaxError where
  fault : SyntaxFault
  offset : Nat
deriving DecidableEq, Repr

namespace Lexer

/-- The unread text and its offset. -/
structure Cursor where
  rest : List Char
  offset : Nat
deriving Repr

/-- The number of bytes that characters take. -/
def byteSize : List Char → Nat
  | [] => 0
  | c :: rest => c.utf8Size + byteSize rest

/-! ## §2 Blanks -/

/-- What the lexer is inside of when it looks for a token: nothing, a comment
up to the end of the line, or a comment that started at an offset and ends
with a mark. -/
inductive Blank where
  | space
  | line
  | block (start : Nat)

/-- Skips white space and comments. -/
def skipBlank : Blank → List Char → Nat → Except SyntaxError Cursor
  | .space, '/' :: '/' :: text, offset => skipBlank .line text (offset + 2)
  | .space, '/' :: '*' :: text, offset => skipBlank (.block offset) text (offset + 2)
  | .space, c :: text, offset =>
    if isBlank c then skipBlank .space text (offset + c.utf8Size)
    else .ok ⟨c :: text, offset⟩
  | .line, c :: text, offset =>
    skipBlank (if c = '\n' then .space else .line) text (offset + c.utf8Size)
  | .block _, '*' :: '/' :: text, offset => skipBlank .space text (offset + 2)
  | .block start, c :: text, offset => skipBlank (.block start) text (offset + c.utf8Size)
  | .block start, [], _ => .error ⟨.unterminatedComment, start⟩
  | _, [], offset => .ok ⟨[], offset⟩

/-! ## §3 Escapes -/

/-- The value of a hexadecimal digit. -/
def hexValue? (c : Char) : Option Nat :=
  if '0' ≤ c && c ≤ '9' then some (c.toNat - 48)
  else if 'a' ≤ c && c ≤ 'f' then some (c.toNat - 87)
  else if 'A' ≤ c && c ≤ 'F' then some (c.toNat - 55)
  else none

/-- Reads `count` hexadecimal digits of an escape that starts at `start`. -/
def readHex (start : Nat) : (count value : Nat) → Cursor → Except SyntaxError (Nat × Cursor)
  | 0, value, cursor => .ok (value, cursor)
  | count + 1, value, ⟨c :: text, offset⟩ =>
    match hexValue? c with
    | some digit => readHex start count (value * 16 + digit) ⟨text, offset + 1⟩
    | none => .error ⟨.invalidEscape, start⟩
  | _, _, ⟨[], _⟩ => .error ⟨.invalidEscape, start⟩

/-- Reads up to six hexadecimal digits and the closing brace. -/
def readBraced (start : Nat) (value digits : Nat) :
    List Char → Nat → Except SyntaxError (Nat × Cursor)
  | [], _ => .error ⟨.invalidUnicodeEscape, start⟩
  | c :: text, offset =>
    if c = '}' && 0 < digits then
      if 0x10ffff < value then .error ⟨.invalidUnicodeEscape, start⟩
      else .ok (value, ⟨text, offset + 1⟩)
    else
      match hexValue? c with
      | some digit =>
        if digits < 6 then readBraced start (value * 16 + digit) (digits + 1) text (offset + 1)
        else .error ⟨.invalidUnicodeEscape, start⟩
      | none => .error ⟨.invalidUnicodeEscape, start⟩

/-- Reads what follows the backslash of an escape that starts at `start`. A
character without a meaning of its own stands for itself. -/
def readEscape (start : Nat) : List Char → Except SyntaxError (Nat × Cursor)
  | [] => .error ⟨.unterminatedEscape, start⟩
  | 'u' :: '{' :: text => readBraced start 0 0 text (start + 3)
  | c :: text =>
    let after : Cursor := ⟨text, start + 1 + c.utf8Size⟩
    match c with
    | 'n' => .ok (10, after)
    | 'r' => .ok (13, after)
    | 't' => .ok (9, after)
    | 'b' => .ok (8, after)
    | 'f' => .ok (12, after)
    | 'v' => .ok (11, after)
    | '0' => .ok (0, after)
    | 'x' => readHex start 2 0 after
    | 'u' => readHex start 4 0 after
    | _ => .ok (c.toNat, after)

/-! ## §4 Strings and character sets -/

/-- Reads a string that starts at `start`, up to the closing quote. Code
points that are no characters cannot be part of a string. -/
def readString (quote : Char) (start : Nat) :
    (fuel : Nat) → Cursor → Except SyntaxError (List Char × Cursor)
  | 0, _ => .error ⟨.unterminatedString, start⟩
  | _ + 1, ⟨[], _⟩ => .error ⟨.unterminatedString, start⟩
  | fuel + 1, ⟨c :: text, offset⟩ =>
    if c = '\n' then .error ⟨.unterminatedString, start⟩
    else if c = quote then .ok ([], ⟨text, offset + 1⟩)
    else if c = '\\' then do
      let (code, after) ← readEscape offset text
      if code.isValidChar then
        let (value, rest) ← readString quote start fuel after
        return (Char.ofNat code :: value, rest)
      else throw ⟨.invalidStringCharacter, start⟩
    else do
      let (value, rest) ← readString quote start fuel ⟨text, offset + c.utf8Size⟩
      return (c :: value, rest)

/-- Reads a code point of a set that starts at `start`. -/
def readSetChar (start : Nat) : Cursor → Except SyntaxError (Nat × Cursor)
  | ⟨[], _⟩ => .error ⟨.unterminatedSet, start⟩
  | ⟨c :: text, offset⟩ =>
    if c = '\\' then readEscape offset text
    else .ok (c.toNat, ⟨text, offset + c.utf8Size⟩)

/-- Reads the upper end of a range from `low`, if there is one: a dash that
the end of the set does not follow. -/
def readRangeEnd (start low : Nat) : Cursor → Except SyntaxError (CodeRange × Cursor)
  | ⟨'-' :: ']' :: text, offset⟩ => .ok (⟨low, low + 1⟩, ⟨'-' :: ']' :: text, offset⟩)
  | ⟨'-' :: text, offset⟩ => do
    let (high, after) ← readSetChar start ⟨text, offset + 1⟩
    if high < low then throw ⟨.invalidRange, start⟩
    else return (⟨low, high + 1⟩, after)
  | cursor => .ok (⟨low, low + 1⟩, cursor)

/-- Reads the ranges of a set that starts at `start`, up to the bracket. -/
def readSet (start : Nat) : (fuel : Nat) → Cursor → Except SyntaxError (List CodeRange × Cursor)
  | 0, _ => .error ⟨.unterminatedSet, start⟩
  | _ + 1, ⟨']' :: text, offset⟩ => .ok ([], ⟨text, offset + 1⟩)
  | fuel + 1, cursor => do
    let (low, after) ← readSetChar start cursor
    let (range, after) ← readRangeEnd start low after
    let (ranges, rest) ← readSet start fuel after
    return (range :: ranges, rest)

/-! ## §5 The lexer -/

/-- Reads the characters of a name. -/
def readName (cursor : Cursor) : String × Cursor :=
  let name := cursor.rest.takeWhile isNameChar
  (String.ofList name, ⟨cursor.rest.dropWhile isNameChar, cursor.offset + byteSize name⟩)

/-- The characters that are tokens by themselves. -/
def punctuation : List Char :=
  ['{', '}', '(', ')', '[', ']', '<', '>', '|', '*', '+', '?', '!', '~', ',', '=', '.', ':']

/-- Whether a character starts a string and ends it. -/
def isQuote (c : Char) : Bool :=
  c.toNat == 0x22 || c.toNat == 0x27

/-- Reads the token at a cursor that is not at a blank. -/
def readToken : Cursor → Except SyntaxError (Option Token × Cursor)
  | ⟨[], offset⟩ => .ok (none, ⟨[], offset⟩)
  | ⟨c :: text, offset⟩ =>
    if c = '@' then
      match readName ⟨text, offset + 1⟩ with
      | ("", _) => .error ⟨.missingNameAfterAt, offset⟩
      | (name, rest) => .ok (some (.atName name), rest)
    else if (c = '$' || c = '!') && text.head? = some '[' then do
      let (ranges, rest) ← readSet offset (text.length + 1) ⟨text.tail, offset + 2⟩
      return (some (.set (CharSet.normalize ranges) (c = '!')), rest)
    else if isQuote c then do
      let (value, rest) ← readString c offset (text.length + 1) ⟨text, offset + 1⟩
      return (some (.string (String.ofList value)), rest)
    else if isNameChar c then
      let (name, rest) := readName ⟨c :: text, offset⟩
      .ok (some (.name name), rest)
    else if punctuation.contains c then
      .ok (some (.punct c), ⟨text, offset + 1⟩)
    else .error ⟨.unexpectedCharacter c, offset⟩

/-- The tokens from a cursor on. -/
def tokensFrom : (fuel : Nat) → Cursor → Tokens
  | 0, cursor => .broken .nestingTooDeep cursor.offset
  | fuel + 1, cursor =>
    match skipBlank .space cursor.rest cursor.offset with
    | .error e => .broken e.fault e.offset
    | .ok cursor =>
      match readToken cursor with
      | .error e => .broken e.fault e.offset
      | .ok (none, _) => .done cursor.offset
      | .ok (some token, rest) => .cons cursor.offset token (tokensFrom fuel rest)

/-- The tokens of a text. -/
def tokens (text : String) : Tokens :=
  tokensFrom (text.length + 1) ⟨text.toList, 0⟩

end Lexer

end GrammarCompiler
