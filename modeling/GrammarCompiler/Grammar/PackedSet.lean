/-
GrammarCompiler.Grammar.PackedSet — sets of symbols in words of 64 bits.

A set has room for so many symbols, and one bit for each of them: the bit of a
symbol is bit `index % 64` of word `index / 64`. Where a `TermSet` grows as its
number does, these words are there from the beginning. The last one can have
more bits than there is room for, and a symbol whose word is missing has no
answer.

  §1 Words   — bits of a word.
  §2 Sets    — adding symbols, and asking for them.
  §3 Listing — the symbols of a set, one after another. A cursor looks at what
               is left of a word at once, and goes on to the next word when
               that is zero.
-/
import GrammarCompiler.Grammar.Term

namespace GrammarCompiler

namespace PackedSet

/-! ## §1 Words -/

/-- The word with one bit. -/
def bitMask (i : Nat) : UInt64 :=
  1 <<< i.toUInt64

/-- How many bits below the lowest one are zero. -/
def trailingZeros (word : UInt64) : Nat :=
  word.toBitVec.ctz.toNat

end PackedSet

/-! ## §2 Sets -/

/-- A set of symbols that has room for `capacity` of them. -/
structure PackedSet where
  capacity : Nat
  words : Array UInt64
  size_words : words.size = (capacity + 63) / 64
deriving Repr

namespace PackedSet

/-- Sets are the same when they have the same room and the same words. -/
instance : BEq PackedSet where
  beq s s' := s.capacity == s'.capacity && s.words == s'.words

/-- The empty set. -/
def new (capacity : Nat) : PackedSet where
  capacity
  words := Array.replicate ((capacity + 63) / 64) 0
  size_words := Array.size_replicate

/-- A set with one more symbol, and whether that was new. -/
def add? (s : PackedSet) (t : Term) : Option (PackedSet × Bool) :=
  if h : t.index / 64 < s.words.size then
    let word := s.words[t.index / 64]
    let mask := bitMask (t.index % 64)
    let words := s.words.set (t.index / 64) (word ||| mask)
    some ({ s with words, size_words := (Array.size_set h).trans s.size_words }, word &&& mask == 0)
  else none

/-- Whether a set holds a symbol. -/
def contains? (s : PackedSet) (t : Term) : Option Bool :=
  s.words[t.index / 64]?.map fun word => (word >>> (t.index % 64).toUInt64) &&& 1 == 1

/-- A set with the symbols of another one, and whether any of them was new. -/
def addAll (s other : PackedSet) : PackedSet × Bool :=
  let words := s.words.mapIdx fun i word => word ||| other.words.getD i 0
  ({ s with words, size_words := Array.size_mapIdx.trans s.size_words }, words != s.words)

/-- Whether a set holds no symbol. -/
def isEmpty (s : PackedSet) : Bool :=
  s.words.all fun word => word == 0

/-- There is a word for each symbol that there is room for. -/
theorem word_lt (s : PackedSet) {i : Nat} (h : i < s.capacity) : i / 64 < s.words.size := by
  rw [s.size_words]
  omega

/-! ## §3 Listing -/

/-- A set that is being listed, and the place from which on it is still to be
looked at. -/
structure Cursor where
  set : PackedSet
  place : Nat
deriving Repr

/-- The next symbol of a set, and what is to be looked at behind it. -/
def Cursor.next (c : Cursor) : Option (Term × Cursor) :=
  if h : c.place < c.set.capacity then
    have := c.set.word_lt h
    let rest := c.set.words[c.place / 64] >>> (c.place % 64).toUInt64
    if rest == 0 then Cursor.next { c with place := (c.place / 64 + 1) * 64 }
    else
      let found := c.place + trailingZeros rest
      some (⟨found⟩, { c with place := found + 1 })
  else none
termination_by c.set.capacity - c.place

/-- The cursor in front of all symbols. -/
def elems (s : PackedSet) : Cursor :=
  ⟨s, 0⟩

/-- A cursor gives the symbols of a list, one after another, and then none. -/
inductive Cursor.Yields : Cursor → List Term → Prop where
  | stop {c : Cursor} (h : c.next = none) : Yields c []
  | step {c c' : Cursor} {t : Term} {symbols : List Term} (h : c.next = some (t, c'))
      (rest : Yields c' symbols) : Yields c (t :: symbols)

end PackedSet

end GrammarCompiler
