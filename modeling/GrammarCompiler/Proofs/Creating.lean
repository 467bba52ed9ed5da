/-
GrammarCompiler.Proofs.Creating — how tables of symbols come about.

Symbols are created one after another, and later only little of what is known about
them changes. The end of the input and the error symbol stay what they are in every
table that comes about in this way (`IsMade.holdsReserved`).

  §1 Symbols — creating symbols and changing what is known about them.
  §2 Tables  — those that creating symbols leads to, and the two symbols that they
               always hold.
-/
import GrammarCompiler.Grammar.Term
import Mathlib.Data.List.Basic

namespace GrammarCompiler

namespace TermTable

/-! ## §1 Symbols -/

variable {terms : TermTable} {t : Term}

theorem isTerminal_of_size_le (h : terms.size ≤ t.index) : terms.isTerminal t = true := by
  rw [isTerminal, info, Array.getElem?_eq_none h]
  rfl

theorem lt_size_of_isTerminal (h : terms.isTerminal t = false) : t.index < terms.size := by
  by_contra hle
  rw [isTerminal_of_size_le (Nat.le_of_not_lt hle)] at h
  cases h

theorem size_add (terms : TermTable) (info : TermInfo) :
    (terms.add info).2.size = terms.size + 1 :=
  Array.size_push info

theorem info_add_of_lt (info : TermInfo) (h : t.index < terms.size) :
    (terms.add info).2.info t = terms.info t := by
  have hget : (terms.entries.push info)[t.index]? = terms.entries[t.index]? := by
    rw [Array.getElem?_push]
    exact if_neg (Nat.ne_of_lt h)
  rw [TermTable.info, TermTable.info, ← hget]
  rfl

theorem info_add_self (terms : TermTable) (info : TermInfo) :
    (terms.add info).2.info ⟨terms.size⟩ = info := by
  have hget : (terms.entries.push info)[terms.entries.size]? = some info :=
    Array.getElem?_push_size
  simp only [TermTable.info, add, TermTable.size, hget, Option.getD_some]

theorem size_modify (terms : TermTable) (t : Term) (f : TermInfo → TermInfo) :
    (terms.modify t f).size = terms.size :=
  Array.size_modify

theorem info_modify_of_ne {other : Term} (h : other ≠ t) (f : TermInfo → TermInfo) :
    (terms.modify t f).info other = terms.info other := by
  have hne : t.index ≠ other.index := fun heq => h (by cases t; cases other; simp_all)
  rw [info, modify, Array.getElem?_modify, if_neg hne]
  rfl

/-- What a change leaves alone stays the same for every symbol. -/
theorem apply_info_modify {p : TermInfo → α} {f : TermInfo → TermInfo}
    (hf : ∀ i, p (f i) = p i) (other : Term) :
    p ((terms.modify t f).info other) = p (terms.info other) := by
  by_cases heq : other = t
  · subst heq
    rw [info, modify, Array.getElem?_modify, if_pos rfl, info]
    cases terms.entries[other.index]? with
    | none => rfl
    | some i => exact hf i
  · rw [info_modify_of_ne heq]

theorem isTerminal_modify {f : TermInfo → TermInfo} (hkind : ∀ i, (f i).kind = i.kind)
    (other : Term) : (terms.modify t f).isTerminal other = terms.isTerminal other := by
  rw [isTerminal, isTerminal, apply_info_modify hkind]

theorem isTop_modify {f : TermInfo → TermInfo} (hkind : ∀ i, (f i).kind = i.kind)
    (other : Term) : (terms.modify t f).isTop other = terms.isTop other := by
  rw [isTop, isTop, apply_info_modify hkind]

/-! ## §2 Tables -/

/-- The tables that creating symbols leads to. Later a symbol can be preserved or marked for
inlining, and it can get other props unless it is the end of the input. -/
inductive IsMade : TermTable → Prop where
  | initial : IsMade initial
  | add {terms : TermTable} (h : IsMade terms) (info : TermInfo) : IsMade (terms.add info).2
  | preserve {terms : TermTable} (h : IsMade terms) (t : Term) :
      IsMade (terms.modify t fun i => { i with preserved := true })
  | inline {terms : TermTable} (h : IsMade terms) (t : Term) :
      IsMade (terms.modify t fun i => { i with inlined := true })
  | prop {terms : TermTable} (h : IsMade terms) {t : Term} (ht : t ≠ .eof)
      (f : NameMap String → NameMap String) :
      IsMade (terms.modify t fun i => { i with props := f i.props })

theorem IsMade.addAll {terms : TermTable} (h : IsMade terms) (infos : List TermInfo) :
    IsMade (infos.foldl (fun terms info => (terms.add info).2) terms) := by
  induction infos generalizing terms with
  | nil => exact h
  | cons info infos ih => exact ih (h.add info)

/-- What is known about the end of the input and the error symbol. -/
structure HoldsReserved (terms : TermTable) : Prop where
  error_lt : Term.error.index < terms.size
  isTerminal_eof : terms.isTerminal .eof = true
  isNode_eof : (terms.info .eof).isNode = false
  preserved_error : (terms.info .error).preserved = true
  isRepeat_error : terms.isRepeat .error = false
  isSome_nodeName_error : (terms.info .error).nodeName.isSome = true

theorem HoldsReserved.eof_lt (h : terms.HoldsReserved) : Term.eof.index < terms.size :=
  Nat.zero_lt_of_lt h.error_lt

theorem isNode_of_isRepeat (h : terms.isRepeat t = true) : (terms.info t).isNode = true :=
  Bool.or_eq_true_iff.mpr (.inr h)

theorem HoldsReserved.ne_eof_of_isNode (h : terms.HoldsReserved)
    (ht : (terms.info t).isNode = true) : t ≠ .eof := by
  rintro rfl
  rw [h.isNode_eof] at ht
  cases ht

theorem HoldsReserved.of_info {terms' : TermTable} (h : terms.HoldsReserved)
    (hsize : terms.size ≤ terms'.size) (heof : terms'.info .eof = terms.info .eof)
    (herror : terms'.info .error = terms.info .error) : terms'.HoldsReserved where
  error_lt := Nat.lt_of_lt_of_le h.error_lt hsize
  isTerminal_eof := by rw [isTerminal, heof]; exact h.isTerminal_eof
  isNode_eof := by rw [heof]; exact h.isNode_eof
  preserved_error := by rw [herror]; exact h.preserved_error
  isRepeat_error := by rw [isRepeat, herror]; exact h.isRepeat_error
  isSome_nodeName_error := herror ▸ h.isSome_nodeName_error

theorem HoldsReserved.modify {f : TermInfo → TermInfo} (h : terms.HoldsReserved)
    (hkind : ∀ i, (f i).kind = i.kind) (hname : ∀ i, (f i).nodeName = i.nodeName)
    (hpreserved : ∀ i, i.preserved → (f i).preserved)
    (hnode : t = .eof → ∀ i, (f i).isNode = i.isNode) : (terms.modify t f).HoldsReserved where
  error_lt := (size_modify terms t f).symm ▸ h.error_lt
  isTerminal_eof := (isTerminal_modify hkind .eof).trans h.isTerminal_eof
  isNode_eof := by
    by_cases heq : t = .eof
    · exact (apply_info_modify (hnode heq) .eof).trans h.isNode_eof
    · exact (info_modify_of_ne (Ne.symm heq) f).symm ▸ h.isNode_eof
  preserved_error := by
    have hold := h.preserved_error
    rw [info] at hold ⊢
    rw [TermTable.modify, Array.getElem?_modify]
    split
    · obtain ⟨i, hi⟩ : ∃ i, terms.entries[Term.error.index]? = some i :=
        ⟨_, Array.getElem?_eq_getElem h.error_lt⟩
      rw [hi] at hold ⊢
      exact hpreserved i hold
    · exact hold
  isRepeat_error := by
    rw [isRepeat, apply_info_modify hkind]
    exact h.isRepeat_error
  isSome_nodeName_error :=
    (congrArg Option.isSome (apply_info_modify hname .error)).trans h.isSome_nodeName_error

/-- The end of the input stays a terminal, and the error symbol a preserved one. -/
theorem IsMade.holdsReserved (h : terms.IsMade) : terms.HoldsReserved := by
  induction h with
  | initial => constructor <;> decide
  | add _ info ih =>
    exact ih.of_info (size_add _ info ▸ Nat.le_succ _) (info_add_of_lt info ih.eof_lt)
      (info_add_of_lt info ih.error_lt)
  | preserve _ t ih =>
    exact ih.modify (fun _ => rfl) (fun _ => rfl) (fun _ _ => rfl) fun _ _ => rfl
  | inline _ t ih =>
    exact ih.modify (fun _ => rfl) (fun _ => rfl) (fun _ h => h) fun _ _ => rfl
  | prop _ ht f ih =>
    exact ih.modify (fun _ => rfl) (fun _ => rfl) (fun _ h => h) fun heq => absurd heq ht

end TermTable

end GrammarCompiler
