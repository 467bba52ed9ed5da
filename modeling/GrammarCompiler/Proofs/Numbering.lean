/-
GrammarCompiler.Proofs.Numbering — the numbers of symbols.

  §1 Order   — which symbols are numbered, each one once.
  §2 Numbers — different symbols have different numbers, below the limit.
-/
import GrammarCompiler.Grammar.Numbering
import GrammarCompiler.Proofs.Lists

namespace GrammarCompiler

namespace Numbering

variable {terms : TermTable} {rules : List Rule} {n : Numbering} {t u : Term}

/-! ## §1 Order -/

/-- Symbols that occur in rules are numbered. -/
theorem mem_live_of_mem_usedIn (ht : t ∈ usedIn rules) (hsize : t.index < terms.size) :
    t ∈ live terms rules := by
  have hused : (usage terms rules)[t.index]? = some true := by
    have hfold : usage terms rules = ((usedIn rules).map fun t => (t.index, true)).foldl
        (fun used p => used.setIfInBounds p.1 p.2) (Array.replicate terms.size false) := by
      rw [usage, List.foldl_map]
    rw [hfold]
    exact getElem?_foldl_set (by simpa using hsize) (by simp)
      (.inr ⟨_, List.mem_map_of_mem ht, rfl⟩)
  rw [live, List.mem_filter]
  exact ⟨List.mem_map.mpr ⟨t.index, List.mem_range.mpr hsize, rfl⟩, by simp [hused]⟩

theorem nodup_live (terms : TermTable) (rules : List Rule) : (live terms rules).Nodup := by
  refine List.Nodup.filter _ ((List.nodup_map_iff fun i j h => ?_).mpr List.nodup_range)
  exact congrArg Term.index h

theorem mem_order_of_mem_live (h : ofRules terms rules = .ok n) (ht : t ∈ live terms rules) :
    t ∈ n.order := by
  rw [ofRules] at h
  split at h
  next => cases h
  next =>
    cases h
    by_cases herror : t = .error <;> by_cases heof : t = .eof <;>
      cases hrepeat : terms.isRepeat t <;> cases hnode : (terms.info t).isNode <;>
        simp [herror, heof, ht, hrepeat, hnode]

theorem nodup_order (h : ofRules terms rules = .ok n) : n.order.Nodup := by
  have hlive := nodup_live terms rules
  have hne : Term.error ≠ .eof := by decide
  rw [ofRules] at h
  split at h
  next => cases h
  next =>
    cases h
    simp only [List.cons_append, List.nodup_cons, List.nodup_append, List.mem_append,
      List.mem_cons, List.mem_filter]
    refine ⟨by simp [hne], ⟨(((hlive.filter _).filter _).filter _), ((hlive.filter _).filter _),
      ?_⟩, ⟨by simp, ((hlive.filter _).filter _).filter _⟩, ?_⟩
    · rintro t ⟨⟨_, hrepeat⟩, _⟩ u ⟨_, hrepeat'⟩ rfl
      simp [hrepeat'] at hrepeat
    · rintro t (⟨⟨⟨_, hnew⟩, hrepeat⟩, hnode⟩ | ⟨⟨_, hnew⟩, hrepeat⟩) u
        (rfl | ⟨⟨_, hrepeat'⟩, hnode'⟩) rfl
      · simp at hnew
      · simp [hnode] at hnode'
      · simp at hnew
      · simp [hrepeat] at hrepeat'

theorem length_order_lt (h : ofRules terms rules = .ok n) : n.order.length < 0xfffe := by
  rw [ofRules] at h
  split at h
  next => cases h
  next hlt =>
    cases h
    exact Nat.lt_of_not_le hlt

theorem ids_eq (h : ofRules terms rules = .ok n) : n.ids =
    (n.order.zipIdx.map fun p => (p.1.index, some p.2)).foldl
      (fun ids p => ids.setIfInBounds p.1 p.2) (Array.replicate terms.size none) := by
  rw [List.foldl_map]
  rw [ofRules] at h
  split at h
  next => cases h
  next =>
    cases h
    rfl

/-! ## §2 Numbers -/

/-- The number of a symbol is its place in the order. -/
theorem id?_eq (h : ofRules terms rules = .ok n) {id : Nat} (hid : n.order[id]? = some t)
    (hsize : t.index < terms.size) : n.id? t = some id := by
  have hmem : (t, id) ∈ n.order.zipIdx := List.mem_zipIdx_iff_getElem?.mpr hid
  have hids : n.ids[t.index]? = some (some id) := by
    rw [ids_eq h]
    refine getElem?_foldl_set (by simpa using hsize) (fun p hp hkey => ?_)
      (.inr ⟨_, List.mem_map_of_mem hmem, rfl⟩)
    obtain ⟨⟨u, id'⟩, hmem', rfl⟩ := List.mem_map.mp hp
    have hu : n.order[id']? = some t := by
      rw [List.mem_zipIdx_iff_getElem?.mp hmem']
      exact congrArg some (Term.eq_of_index_eq hkey)
    have hsame := (List.getElem?_inj (List.getElem?_eq_some_iff.mp hid).1 (nodup_order h)).mp
      (hid.trans hu.symm)
    rw [hsame]
  rw [id?, hids]
  rfl

/-- A number is the place of its symbol in the order. -/
theorem order_of_id? (h : ofRules terms rules = .ok n) {id : Nat} (hid : n.id? t = some id) :
    n.order[id]? = some t := by
  have hids : n.ids[t.index]? = some (some id) := by simpa [id?, Option.join_eq_some_iff] using hid
  rw [ids_eq h] at hids
  rcases mem_of_getElem?_foldl_set hids with hnone | hmem
  · simp [Array.getElem?_replicate] at hnone
  · obtain ⟨⟨u, id'⟩, hmem, heq⟩ := List.mem_map.mp hmem
    obtain ⟨hindex, hid'⟩ := Prod.mk.inj heq
    rw [← Option.some.inj hid', List.mem_zipIdx_iff_getElem?.mp hmem]
    exact congrArg some (Term.eq_of_index_eq hindex)

theorem id_lt (h : ofRules terms rules = .ok n) (t : Term) : n.id t < 0xfffe := by
  rw [id]
  cases hid : n.id? t with
  | none => simp
  | some id =>
    have := (List.getElem?_eq_some_iff.mp (order_of_id? h hid)).1
    have := length_order_lt h
    simp only [Option.getD_some]
    omega

/-- Different symbols that get a number have different numbers. -/
theorem id_inj_of_live (h : ofRules terms rules = .ok n) (ht : t ∈ live terms rules)
    (hu : u ∈ live terms rules) (htsize : t.index < terms.size) (husize : u.index < terms.size)
    (heq : n.id t = n.id u) : t = u := by
  obtain ⟨i, hi⟩ := List.mem_iff_getElem?.mp (mem_order_of_mem_live h ht)
  obtain ⟨j, hj⟩ := List.mem_iff_getElem?.mp (mem_order_of_mem_live h hu)
  rw [id, id, id?_eq h hi htsize, id?_eq h hj husize] at heq
  obtain rfl : i = j := heq
  exact Option.some.inj (hi.symm.trans hj)

/-- Different symbols that occur in rules have different numbers. -/
theorem id_inj (h : ofRules terms rules = .ok n) (ht : t ∈ usedIn rules) (hu : u ∈ usedIn rules)
    (htsize : t.index < terms.size) (husize : u.index < terms.size) (heq : n.id t = n.id u) :
    t = u :=
  id_inj_of_live h (mem_live_of_mem_usedIn ht htsize) (mem_live_of_mem_usedIn hu husize) htsize
    husize heq

theorem mem_live_of_isTerminal (ht : terms.isTerminal t = true) (hsize : t.index < terms.size) :
    t ∈ live terms rules := by
  rw [live, List.mem_filter]
  exact ⟨List.mem_map.mpr ⟨t.index, List.mem_range.mpr hsize, rfl⟩, by simp [ht]⟩

/-- Every terminal has a number. -/
theorem id?_eq_of_isTerminal (h : ofRules terms rules = .ok n) (ht : terms.isTerminal t = true)
    (hsize : t.index < terms.size) : n.id? t = some (n.id t) := by
  obtain ⟨i, hi⟩ :=
    List.mem_iff_getElem?.mp (mem_order_of_mem_live h (mem_live_of_isTerminal ht hsize))
  rw [id, id?_eq h hi hsize]
  rfl

/-- Different terminals have different numbers. -/
theorem id_inj_of_isTerminal (h : ofRules terms rules = .ok n)
    (ht : terms.isTerminal t = true) (hu : terms.isTerminal u = true)
    (htsize : t.index < terms.size) (husize : u.index < terms.size) (heq : n.id t = n.id u) :
    t = u :=
  id_inj_of_live h (mem_live_of_isTerminal ht htsize) (mem_live_of_isTerminal hu husize) htsize
    husize heq

/-- There is no number above the largest one. -/
theorem id_le_maxTerm (h : ofRules terms rules = .ok n) (t : Term) : n.id t ≤ n.maxTerm := by
  rw [id, maxTerm]
  cases hid : n.id? t with
  | none => exact Nat.zero_le _
  | some id =>
    have := (List.getElem?_eq_some_iff.mp (order_of_id? h hid)).1
    simp only [Option.getD_some]
    omega

end Numbering

end GrammarCompiler
