/-
GrammarCompiler.Tokenizer.Origin — where tokens come from.

Not every token is read by the main tokenizer. Some are produced by external
tokenizers, and some are cases of other tokens, which may come from anywhere
themselves.
-/
import GrammarCompiler.Grammar.Term

namespace GrammarCompiler

/-- Where a token comes from that the main tokenizer does not read: an external
tokenizer, by its place in the list of declarations, or another token that it
specializes. -/
inductive TokenOrigin where
  | external (tokenizer : Nat)
  | specializes (base : Term)
deriving DecidableEq

/-- The tokens that the main tokenizer does not read, with their origins. The
first entry for a token counts. -/
abbrev TokenOrigins := List (Term × TokenOrigin)

namespace TokenOrigins

/-- Where a token comes from, if not from the main tokenizer. -/
def get? (origins : TokenOrigins) (t : Term) : Option TokenOrigin :=
  origins.lookup t

/-- What the main tokenizer reads for a token: specialized tokens are read as
the token they are cases of, external ones not at all. -/
def mainToken? (origins : TokenOrigins) (t : Term) : Option Term :=
  match origins.get? t with
  | some (.specializes base) => some base
  | some (.external _) => none
  | none => some t

/-- The external tokenizer that a token comes from in the end, following at
most `fuel` specializations. -/
def tokenizerFrom? (origins : TokenOrigins) : (fuel : Nat) → Term → Option Nat
  | 0, _ => none
  | fuel + 1, t =>
    match origins.get? t with
    | some (.specializes base) => tokenizerFrom? origins fuel base
    | some (.external tokenizer) => some tokenizer
    | none => none

/-- The external tokenizer that a token comes from in the end. No chain of
specializations without a circle is longer than the list. Tokens can be cases of
one another in a circle, where two blocks of external cases name each other's
tokens. Then there is no end, and the answer is none; a loop that follows the
origins for as long as there are any would not stop there. -/
def tokenizer? (origins : TokenOrigins) (t : Term) : Option Nat :=
  tokenizerFrom? origins (origins.length + 1) t

end TokenOrigins

end GrammarCompiler
