/-
GrammarCompiler.Proofs.Scanning — the character sets of a grammar text.

Sets are normalized when they are read: their ranges hold code points, stand in
order and do not overlap. That is what the complement of a set relies on.

  §1 Canonical sets — what `normalize` makes of ranges, and complements.
  §2 Code points    — no escape stands for more than the last code point.
  §3 Tokens         — the sets among the tokens of a text are canonical, and its
                      names consist of the characters of names.
-/
import GrammarCompiler.Declaration.Lexer
import GrammarCompiler.Proofs.Closure
import GrammarCompiler.Proofs.Normalizing
import Mathlib

namespace GrammarCompiler

open Text

namespace CharSet

/-! ## §1 Canonical sets -/

/-- A range that holds code points, at least one. -/
def IsProper (r : CodeRange) : Prop :=
  r.lo < r.hi ∧ r.hi ≤ codePoints

/-- Ranges in order that neither overlap nor touch. -/
structure IsCanonical (ranges : List CodeRange) : Prop where
  proper : ∀ r ∈ ranges, IsProper r
  apart : ranges.Pairwise fun r r' => r.hi < r'.lo

/-- Canonical lists are the normal lists of code points. -/
theorem isCanonical_iff {ranges : List CodeRange} :
    IsCanonical ranges ↔ IsNormal ranges ∧ AreWithin ranges := by
  constructor
  · rintro ⟨hproper, hapart⟩
    exact ⟨⟨fun r hr => (hproper r hr).1, hapart⟩, fun r hr => (hproper r hr).2⟩
  · rintro ⟨⟨hwide, hapart⟩, hwithin⟩
    exact ⟨fun r hr => ⟨hwide r hr, hwithin r hr⟩, hapart⟩

theorem isCanonical_normalize {ranges : List CodeRange} (h : ∀ r ∈ ranges, IsProper r) :
    IsCanonical (normalize ranges) :=
  isCanonical_iff.mpr ⟨isNormal_normalize fun r hr => (h r hr).1,
    areWithin_normalize fun r hr => (h r hr).2⟩

/-- The complement of a canonical list. -/
theorem isCanonical_complement {ranges : List CodeRange} (h : IsCanonical ranges) :
    IsCanonical (complement ranges) := by
  obtain ⟨hnormal, hwithin⟩ := isCanonical_iff.mp h
  exact isCanonical_iff.mpr ⟨isNormal_complement hnormal, areWithin_complement hnormal hwithin⟩

theorem contains_complement {ranges : List CodeRange} (h : IsCanonical ranges) {code : Nat}
    (hcode : code < codePoints) :
    contains (complement ranges) code = true ↔ contains ranges code = false := by
  obtain ⟨hnormal, hwithin⟩ := isCanonical_iff.mp h
  rw [contains_complement_iff hnormal hwithin, Bool.not_eq_true]
  exact and_iff_right hcode

end CharSet

namespace Lexer

open CharSet

/-! ## §2 Code points -/

theorem hexValue?_lt {c : Char} {digit : Nat} (h : hexValue? c = some digit) : digit < 16 := by
  have hle (a b : Char) : a ≤ b ↔ a.toNat ≤ b.toNat := Iff.rfl
  simp only [hexValue?, Bool.and_eq_true, decide_eq_true_eq, hle] at h
  split at h
  next hrange =>
    cases h
    have : c.toNat ≤ 57 := hrange.2
    omega
  next =>
    split at h
    next hrange =>
      cases h
      have : c.toNat ≤ 102 := hrange.2
      omega
    next =>
      split at h
      next hrange =>
        cases h
        have : c.toNat ≤ 70 := hrange.2
        omega
      next => cases h

theorem readHex_lt {start count value code : Nat} {cursor rest : Cursor}
    (h : readHex start count value cursor = .ok (code, rest)) :
    code < (value + 1) * 16 ^ count := by
  induction count generalizing value cursor with
  | zero =>
    cases h
    omega
  | succ count ih =>
    rcases cursor with ⟨_ | ⟨c, text⟩, offset⟩
    · cases h
    · rw [readHex] at h
      split at h
      next digit hdigit =>
        have := hexValue?_lt hdigit
        have hle : value * 16 + digit + 1 ≤ (value + 1) * 16 := by omega
        calc code < (value * 16 + digit + 1) * 16 ^ count := ih h
          _ ≤ (value + 1) * 16 * 16 ^ count := Nat.mul_le_mul_right _ hle
          _ = (value + 1) * 16 ^ (count + 1) := by ring
      next => cases h

theorem readBraced_lt {start value digits code offset : Nat} {text : List Char} {rest : Cursor}
    (h : readBraced start value digits text offset = .ok (code, rest)) : code < codePoints := by
  induction text generalizing value digits offset with
  | nil => cases h
  | cons c text ih =>
    rw [readBraced] at h
    split at h
    next =>
      split at h
      next => cases h
      next hle =>
        cases h
        simp only [codePoints]
        omega
    next =>
      split at h
      next =>
        split at h
        next => exact ih h
        next => cases h
      next => cases h

theorem toNat_lt (c : Char) : c.toNat < codePoints := by
  have hvalid : c.toNat.isValidChar := c.valid
  simp only [Nat.isValidChar, codePoints] at hvalid ⊢
  omega

theorem readEscape_lt {start code : Nat} {text : List Char} {rest : Cursor}
    (h : readEscape start text = .ok (code, rest)) : code < codePoints := by
  rw [readEscape.eq_def] at h
  split at h
  next => cases h
  next => exact readBraced_lt h
  next c text _ =>
    dsimp only at h
    split at h
    case h_8 =>
      have := readHex_lt h
      simp only [codePoints]
      omega
    case h_9 =>
      have := readHex_lt h
      simp only [codePoints]
      omega
    case h_10 =>
      cases h
      exact toNat_lt c
    all_goals
      cases h
      decide

theorem readSetChar_lt {start code : Nat} {cursor rest : Cursor}
    (h : readSetChar start cursor = .ok (code, rest)) : code < codePoints := by
  rcases cursor with ⟨_ | ⟨c, text⟩, offset⟩
  · cases h
  · rw [readSetChar] at h
    split at h
    · exact readEscape_lt h
    · cases h
      exact toNat_lt c

/-! ## §3 Tokens -/

theorem isProper_readRangeEnd {start low : Nat} {cursor rest : Cursor} {r : CodeRange}
    (h : readRangeEnd start low cursor = .ok (r, rest)) (hlow : low < codePoints) :
    IsProper r := by
  have hsingle : IsProper ⟨low, low + 1⟩ := ⟨Nat.lt_succ_self _, hlow⟩
  rw [readRangeEnd.eq_def] at h
  split at h
  next =>
    cases h
    exact hsingle
  next =>
    obtain ⟨⟨high, after⟩, hhigh, h⟩ := exists_ok_of_bind h
    dsimp only at h
    split at h
    next => cases h
    next hle =>
      cases h
      exact ⟨by simp only; omega, readSetChar_lt hhigh⟩
  next =>
    cases h
    exact hsingle

theorem isProper_readSet {start fuel : Nat} {cursor rest : Cursor} {ranges : List CodeRange}
    (h : readSet start fuel cursor = .ok (ranges, rest)) : ∀ r ∈ ranges, IsProper r := by
  induction fuel generalizing cursor ranges rest with
  | zero => cases h
  | succ fuel ih =>
    rw [readSet.eq_def] at h
    split at h
    next heq => cases heq
    next =>
      cases h
      exact nofun
    next hfuel _ =>
      cases hfuel
      obtain ⟨⟨low, after⟩, hlow, h⟩ := exists_ok_of_bind h
      obtain ⟨⟨r, after'⟩, hr, h⟩ := exists_ok_of_bind h
      obtain ⟨⟨others, rest'⟩, hothers, h⟩ := exists_ok_of_bind h
      cases h
      exact List.forall_mem_cons.mpr ⟨isProper_readRangeEnd hr (readSetChar_lt hlow), ih hothers⟩

end Lexer

/-- The names of the grammar language. -/
def IsName (text : String) : Prop :=
  text ≠ "" ∧ ∀ c ∈ text.toList, isNameChar c = true

/-- A token as it can be read: sets are canonical, and names consist of the characters of names. -/
def Token.IsSound : Token → Prop
  | .set ranges _ => CharSet.IsCanonical ranges
  | .name text => IsName text
  | _ => True

/-- Tokens as they can be read. -/
def Tokens.AreSound : Tokens → Prop
  | .cons _ token rest => token.IsSound ∧ rest.AreSound
  | _ => True

namespace Lexer

theorem isName_readName {c : Char} (hc : isNameChar c = true) (text : List Char) (offset : Nat) :
    IsName (readName ⟨c :: text, offset⟩).1 := by
  refine ⟨fun hempty => ?_, fun d hd => ?_⟩
  · have hnil : (c :: text).takeWhile isNameChar = [] := String.ofList_eq_empty_iff.mp hempty
    rw [List.takeWhile_cons_of_pos hc] at hnil
    cases hnil
  · rw [readName, String.toList_ofList] at hd
    exact List.mem_takeWhile_imp hd

theorem isSound_readToken {cursor rest : Cursor} {token : Token}
    (h : readToken cursor = .ok (some token, rest)) : token.IsSound := by
  rcases cursor with ⟨_ | ⟨c, text⟩, offset⟩
  · cases h
  · rw [readToken] at h
    split at h
    next =>
      split at h
      next => cases h
      next => cases h; trivial
    next =>
      split at h
      next =>
        obtain ⟨⟨ranges, rest'⟩, hranges, h⟩ := exists_ok_of_bind h
        cases h
        exact CharSet.isCanonical_normalize (isProper_readSet hranges)
      next =>
        split at h
        next =>
          obtain ⟨_, _, h⟩ := exists_ok_of_bind h
          cases h
          trivial
        next =>
          split at h
          next hname =>
            cases h
            exact isName_readName hname text offset
          next =>
            split at h
            next => cases h; trivial
            next => cases h

theorem areSound_tokensFrom (fuel : Nat) (cursor : Cursor) :
    (tokensFrom fuel cursor).AreSound := by
  induction fuel generalizing cursor with
  | zero => trivial
  | succ fuel ih =>
    rw [tokensFrom]
    split
    next => trivial
    next =>
      split
      next => trivial
      next => trivial
      next htoken => exact ⟨isSound_readToken htoken, ih _⟩

/-- The tokens of a text are sound. -/
theorem areSound_tokens (text : String) : (tokens text).AreSound :=
  areSound_tokensFrom _ _

end Lexer

end GrammarCompiler
