/-
GrammarCompiler.Proofs.Lookahead — the first table is complete.

A round over the rules only ever adds to the table, and there is only so much
to add, so the rounds end in a table that no rule adds to (`closed_ofGrammar`).
Such a table knows how every derived word begins (`beginnings_of_derives`):
this is what makes the lookahead of an item reach far enough.

  §1 Sets      — sets of symbols are equal when they hold the same symbols,
                 and their lists have these symbols in order.
  §2 Scanning  — what looking at the parts of a rule adds.
  §3 Growth    — tables in the order of what they know.
  §4 Rounds    — counting what is known, until nothing changes.
  §5 Words     — beginnings of derived words.
-/
import GrammarCompiler.Grammar.First
import Mathlib.Tactic.ByContra

namespace GrammarCompiler

/-! ## §1 Sets -/

namespace TermSet

/-- Sets that hold the same symbols are equal. -/
theorem ext {s t : TermSet} (h : ∀ u, s.contains u = t.contains u) : s = t := by
  obtain ⟨s⟩ := s
  obtain ⟨t⟩ := t
  congr 1
  exact Nat.eq_of_testBit_eq fun i => h ⟨i⟩

theorem contains_union_of_left {s t : TermSet} {u : Term} (h : s.contains u = true) :
    (s.union t).contains u = true := by
  rw [contains_union, h, Bool.true_or]

/-- A set that holds a symbol is not empty. -/
theorem ne_empty {s : TermSet} {u : Term} (h : s.contains u = true) : s ≠ empty := by
  rintro rfl
  rw [contains_empty] at h
  cases h

/-- A set that is not empty holds a symbol. -/
theorem exists_contains {s : TermSet} (h : s ≠ empty) : ∃ u, s.contains u = true := by
  by_contra hnone
  refine h (ext fun u => ?_)
  rw [contains_empty]
  exact Bool.eq_false_iff.mpr fun hu => hnone ⟨u, hu⟩

theorem contains_union_of_right {s t : TermSet} {u : Term} (h : t.contains u = true) :
    (s.union t).contains u = true := by
  rw [contains_union, h, Bool.or_true]

/-- The list of a set has its symbols. -/
theorem mem_toList {s : TermSet} {t : Term} : t ∈ s.toList ↔ s.contains t = true := by
  obtain ⟨i⟩ := t
  have hlt (h : s.bits.testBit i = true) : i < s.bits.log2 + 1 := by
    have hne : s.bits ≠ 0 := by
      rintro hzero
      rw [hzero, Nat.zero_testBit] at h
      cases h
    have hle : i ≤ s.bits.log2 := (Nat.le_log2 hne).mpr (Nat.ge_two_pow_of_testBit h)
    omega
  simp only [toList, List.mem_map, List.mem_filter, List.mem_range, Term.mk.injEq, contains]
  constructor
  · rintro ⟨_, ⟨-, h⟩, rfl⟩
    exact h
  · exact fun h => ⟨i, ⟨hlt h, h⟩, rfl⟩

/-- The list of a set is in order. -/
theorem pairwise_toList (s : TermSet) : s.toList.Pairwise (fun t u => t.index < u.index) :=
  List.pairwise_map.mpr (List.pairwise_lt_range.filter _)

end TermSet

namespace FirstTable

variable {g : Grammar} {table table' : FirstTable}

/-! ## §2 Scanning -/

/-- Whether the table knows that all of a sequence of parts can stand for
nothing. -/
def vanishes (g : Grammar) (table : FirstTable) (parts : List Term) : Bool :=
  parts.all fun p => !g.isTerminal p && (table.first p).nullable

/-- Scanning adds how the parts begin, and whether they can stand for
nothing. -/
theorem scan_eq (g : Grammar) (table : FirstTable) (parts : List Term) (set : FirstSet) :
    scan g table parts set =
      ⟨set.nullable || vanishes g table parts,
        set.terminals.union (beginnings g table .empty parts)⟩ := by
  induction parts generalizing set with
  | nil => simp [scan, vanishes, beginnings, TermSet.union, TermSet.empty]
  | cons part parts ih =>
    cases ht : g.isTerminal part with
    | true =>
      simp [scan, vanishes, beginnings, ht, TermSet.union, TermSet.insert, TermSet.empty]
    | false =>
      cases hn : (table.first part).nullable with
      | true =>
        simp [scan, vanishes, beginnings, ht, hn, ih, TermSet.union, Nat.or_assoc]
      | false => simp [scan, vanishes, beginnings, ht, hn]

/-- What can begin a sequence of parts when nothing follows it can also begin
it when something does. -/
theorem contains_beginnings_of_empty {after : TermSet} {parts : List Term} {t : Term}
    (h : (beginnings g table .empty parts).contains t = true) :
    (beginnings g table after parts).contains t = true := by
  induction parts with
  | nil => simp [beginnings, TermSet.contains_empty] at h
  | cons part parts ih =>
    simp only [beginnings] at h ⊢
    split at h
    · rename_i ht; rwa [if_pos ht]
    · rename_i ht
      rw [if_neg ht]
      split at h
      · rename_i hn
        rw [if_pos hn]
        rw [TermSet.contains_union, Bool.or_eq_true] at h
        rcases h with h | h
        · exact TermSet.contains_union_of_left h
        · exact TermSet.contains_union_of_right (ih h)
      · rename_i hn; rwa [if_neg hn]

/-- What follows parts that can stand for nothing can begin them. -/
theorem contains_beginnings_of_vanishes {after : TermSet} {parts : List Term} {t : Term}
    (hv : vanishes g table parts = true) (h : after.contains t = true) :
    (beginnings g table after parts).contains t = true := by
  induction parts with
  | nil => exact h
  | cons part parts ih =>
    simp only [vanishes, List.all_cons, Bool.and_eq_true, Bool.not_eq_true'] at hv
    obtain ⟨⟨ht, hn⟩, hp⟩ := hv
    simp only [beginnings, ht, hn, Bool.false_eq_true, if_false, if_true]
    exact TermSet.contains_union_of_right (ih hp)

/-! ## §3 Growth -/

/-- `Grows table table'`: the second table knows all that the first one
knows. -/
structure Grows (table table' : FirstTable) : Prop where
  size : table'.size = table.size
  nullable : ∀ t, (table.first t).nullable = true → (table'.first t).nullable = true
  terminals : ∀ t u, (table.first t).terminals.contains u = true →
    (table'.first t).terminals.contains u = true

theorem Grows.refl (table : FirstTable) : Grows table table :=
  ⟨rfl, fun _ h => h, fun _ _ h => h⟩

theorem Grows.trans {a b c : FirstTable} (h : Grows a b) (h' : Grows b c) : Grows a c :=
  ⟨h'.size.trans h.size, fun t ht => h'.nullable t (h.nullable t ht),
    fun t u hu => h'.terminals t u (h.terminals t u hu)⟩

theorem first_look (g : Grammar) (table : FirstTable) (r : Rule) (t : Term) :
    (look g table r).first t =
      if r.name = t ∧ t.index < table.size then scan g table r.parts (table.first t)
      else table.first t := by
  obtain ⟨i⟩ := t
  unfold look first
  rw [Array.getElem?_setIfInBounds]
  by_cases hi : r.name.index = i
  · subst hi
    by_cases hs : r.name.index < table.size <;> simp [hs]
  · have hne : r.name ≠ ⟨i⟩ := fun h => hi (congrArg Term.index h)
    simp [hi, hne]

/-- Looking at a rule only adds to the table. -/
theorem grows_look (g : Grammar) (table : FirstTable) (r : Rule) :
    Grows table (look g table r) where
  size := by simp [look]
  nullable t ht := by
    rw [first_look]
    split
    · simp [scan_eq, ht]
    · exact ht
  terminals t u hu := by
    rw [first_look]
    split
    · rw [scan_eq]; exact TermSet.contains_union_of_left hu
    · exact hu

theorem grows_foldl_look (g : Grammar) (rules : List Rule) (table : FirstTable) :
    Grows table (rules.foldl (look g) table) := by
  induction rules generalizing table with
  | nil => exact .refl _
  | cons r rules ih => exact (grows_look g table r).trans (ih _)

/-- Tables that know the same are equal. -/
theorem Grows.antisymm {a b : FirstTable} (h : Grows a b) (h' : Grows b a) : a = b := by
  apply Array.ext h'.size
  intro i hi hi'
  have ha : a.first ⟨i⟩ = a[i] := by simp [first, hi]
  have hb : b.first ⟨i⟩ = b[i] := by simp [first, hi']
  rw [← ha, ← hb]
  have hn : (a.first ⟨i⟩).nullable = (b.first ⟨i⟩).nullable :=
    Bool.eq_iff_iff.mpr ⟨h.nullable _, h'.nullable _⟩
  have ht : (a.first ⟨i⟩).terminals = (b.first ⟨i⟩).terminals :=
    TermSet.ext fun u => Bool.eq_iff_iff.mpr ⟨h.terminals _ u, h'.terminals _ u⟩
  calc a.first ⟨i⟩ = ⟨(a.first ⟨i⟩).nullable, (a.first ⟨i⟩).terminals⟩ := rfl
    _ = b.first ⟨i⟩ := by rw [hn, ht]

/-! ## §4 Rounds -/

/-- What a table can know: of each symbol whether it can stand for nothing, and
for each part of a rule whether it can come first. -/
def facts (g : Grammar) : List (Nat × Option Term) :=
  (List.range g.terms.size).flatMap fun i =>
    (i, none) :: (g.rules.flatMap fun r => r.parts).map fun t => (i, some t)

/-- Whether a table knows something. -/
def knows (table : FirstTable) : Nat × Option Term → Bool
  | (i, none) => (table.first ⟨i⟩).nullable
  | (i, some t) => (table.first ⟨i⟩).terminals.contains t

/-- How much a table knows. -/
def known (g : Grammar) (table : FirstTable) : Nat :=
  (facts g).countP table.knows

theorem length_facts (g : Grammar) : (facts g).length = capacity g := by
  simp [facts, capacity, List.length_flatMap, List.map_const']

/-- The table has an entry for each symbol, and only parts of rules come
first. -/
structure Within (g : Grammar) (table : FirstTable) : Prop where
  size : table.size = g.terms.size
  terminals : ∀ t u, (table.first t).terminals.contains u = true →
    u ∈ g.rules.flatMap fun r => r.parts

theorem mem_of_contains_beginnings (hw : Within g table) {parts : List Term} {t : Term}
    (hp : ∀ p ∈ parts, p ∈ g.rules.flatMap fun r => r.parts)
    (h : (beginnings g table .empty parts).contains t = true) :
    t ∈ g.rules.flatMap fun r => r.parts := by
  induction parts with
  | nil => simp [beginnings, TermSet.contains_empty] at h
  | cons part parts ih =>
    simp only [List.mem_cons, forall_eq_or_imp] at hp
    simp only [beginnings] at h
    split at h
    · simp only [TermSet.contains_insert, TermSet.contains_empty, Bool.false_or,
        decide_eq_true_eq] at h
      exact h ▸ hp.1
    · split at h
      · rw [TermSet.contains_union, Bool.or_eq_true] at h
        rcases h with h | h
        · exact hw.terminals part t h
        · exact ih hp.2 h
      · exact hw.terminals part t h

theorem Within.look (hw : Within g table) {r : Rule} (hr : r ∈ g.rules) :
    Within g (look g table r) where
  size := (grows_look g table r).size.trans hw.size
  terminals t u hu := by
    rw [first_look] at hu
    split at hu
    · rw [scan_eq, TermSet.contains_union, Bool.or_eq_true] at hu
      rcases hu with hu | hu
      · exact hw.terminals t u hu
      · exact mem_of_contains_beginnings hw
          (fun p hp => List.mem_flatMap.mpr ⟨r, hr, hp⟩) hu
    · exact hw.terminals t u hu

theorem Within.round (hw : Within g table) : Within g (round g table) := by
  have hfold : ∀ rules : List Rule, (∀ r ∈ rules, r ∈ g.rules) → ∀ table : FirstTable,
      Within g table → Within g (rules.foldl (FirstTable.look g) table) := by
    intro rules
    induction rules with
    | nil => intro _ _ hw; exact hw
    | cons r rules ih =>
      intro hr table hw
      exact ih (fun r' h => hr r' (.tail _ h)) _ (hw.look (hr r (.head _)))
  exact hfold g.rules (fun _ h => h) table hw

theorem known_le_capacity (g : Grammar) (table : FirstTable) : known g table ≤ capacity g :=
  length_facts g ▸ List.countP_le_length

/-- More of a list is counted when one more element is. -/
theorem countP_lt {α : Type} {p q : α → Bool} {l : List α} (h : ∀ x ∈ l, p x = true → q x = true)
    {x : α} (hx : x ∈ l) (hp : p x = false) (hq : q x = true) : l.countP p < l.countP q := by
  induction l with
  | nil => cases hx
  | cons y l ih =>
    simp only [List.mem_cons, forall_eq_or_imp] at h
    have hle : l.countP p ≤ l.countP q := List.countP_mono_left h.2
    rcases List.mem_cons.mp hx with rfl | hx
    · simp only [List.countP_cons, hp, hq]
      simp only [Bool.false_eq_true, if_false, if_true]
      omega
    · have hlt := ih h.2 hx
      simp only [List.countP_cons]
      have := h.1
      split <;> split <;> first | omega | simp_all

/-- A table that grows knows more. -/
theorem known_lt_of_grows (hw : Within g table') (h : Grows table table')
    (hne : table' ≠ table) : known g table < known g table' := by
  have himp : ∀ f ∈ facts g, table.knows f = true → table'.knows f = true := by
    rintro ⟨i, _ | t⟩ _ hf
    · exact h.nullable _ hf
    · exact h.terminals _ _ hf
  -- If every fact were known before, the tables would be equal.
  by_contra hlt
  have hback : ∀ f ∈ facts g, table'.knows f = true → table.knows f = true := by
    intro f hf hk
    by_contra hn
    exact hlt (countP_lt himp hf (by simpa using hn) hk)
  apply hne
  apply Grows.antisymm _ h
  refine ⟨h.size.symm, fun t ht => ?_, fun t u hu => ?_⟩
  · by_cases hi : t.index < g.terms.size
    · refine hback (t.index, none) (List.mem_flatMap.mpr ⟨t.index, ?_, ?_⟩) ht
      · exact List.mem_range.mpr hi
      · exact List.mem_cons_self
    · have : table'.first t = {} := by simp [first, hw.size, hi]
      rw [this] at ht
      cases ht
  · by_cases hi : t.index < g.terms.size
    · refine hback (t.index, some u) (List.mem_flatMap.mpr ⟨t.index, ?_, ?_⟩) hu
      · exact List.mem_range.mpr hi
      · exact List.mem_cons_of_mem _ (List.mem_map.mpr ⟨u, hw.terminals t u hu, rfl⟩)
    · have : table'.first t = {} := by simp [first, hw.size, hi]
      rw [this] at hu
      simp [TermSet.contains_empty] at hu

/-- With as many rounds as there are things to know, and one more, the last one
changes nothing. -/
theorem round_rounds (hw : Within g table) {fuel : Nat}
    (h : capacity g < known g table + fuel) :
    round g (rounds g fuel table) = rounds g fuel table := by
  induction fuel generalizing table with
  | zero =>
    have := known_le_capacity g table
    omega
  | succ fuel ih =>
    simp only [rounds]
    split
    · assumption
    · rename_i hne
      have hlt := known_lt_of_grows hw.round (grows_foldl_look g g.rules table) hne
      exact ih hw.round (by omega)

/-- A table that no rule adds to. -/
structure Closed (g : Grammar) (table : FirstTable) : Prop where
  nullable : ∀ r ∈ g.rules, g.isTerminal r.name = false →
    vanishes g table r.parts = true → (table.first r.name).nullable = true
  terminals : ∀ r ∈ g.rules, g.isTerminal r.name = false → ∀ t,
    (beginnings g table .empty r.parts).contains t = true →
      (table.first r.name).terminals.contains t = true

/-- Only terminals are outside the table. -/
theorem index_lt_of_not_terminal {t : Term} (h : g.isTerminal t = false) :
    t.index < g.terms.size := by
  by_contra hi
  have hi' : ¬ t.index < g.terms.entries.size := hi
  simp only [Grammar.isTerminal, TermTable.isTerminal, TermTable.info,
    Array.getElem?_eq_none (Nat.le_of_not_lt hi'), Option.getD_none] at h
  exact absurd h (by decide)

/-- When a round changes nothing, none of its rules does. -/
theorem look_eq_of_round_eq (h : round g table = table) {r : Rule} (hr : r ∈ g.rules) :
    look g table r = table := by
  have hfold : ∀ (rules : List Rule) (table' : FirstTable), Grows table table' →
      Grows (rules.foldl (look g) table') table → r ∈ rules → look g table r = table := by
    intro rules
    induction rules with
    | nil => intro _ _ _ hr; cases hr
    | cons r' rules ih =>
      intro table' hle hge hr
      have heq : table' = table :=
        Grows.antisymm ((grows_foldl_look g (r' :: rules) table').trans hge) hle
      subst heq
      rcases List.mem_cons.mp hr with rfl | hr
      · exact Grows.antisymm ((grows_foldl_look g rules _).trans hge) (grows_look g _ _)
      · exact ih _ (grows_look g _ _) hge hr
  have hge : Grows (g.rules.foldl (look g) table) table := by
    rw [show g.rules.foldl (look g) table = table from h]
    exact .refl _
  exact hfold g.rules table (.refl _) hge hr

theorem first_replicate (n : Nat) (t : Term) : first (Array.replicate n {}) t = {} := by
  simp only [first, Array.getElem?_replicate]
  split <;> rfl

/-- At first nothing is known. -/
theorem within_start (g : Grammar) : Within g (Array.replicate g.terms.size {}) where
  size := by simp
  terminals t u hu := by
    rw [first_replicate, TermSet.contains_empty] at hu
    cases hu

theorem Within.rounds (hw : Within g table) (fuel : Nat) : Within g (rounds g fuel table) := by
  induction fuel generalizing table with
  | zero => exact hw
  | succ fuel ih =>
    simp only [FirstTable.rounds]
    split
    · exact hw
    · exact ih hw.round

theorem within_ofGrammar (g : Grammar) : Within g (ofGrammar g) :=
  (within_start g).rounds _

/-- A round over the first table of a grammar changes nothing. -/
theorem round_ofGrammar (g : Grammar) : round g (ofGrammar g) = ofGrammar g :=
  round_rounds (within_start g) (by omega)

/-- The first table of a grammar is one that no rule adds to. -/
theorem closed_ofGrammar (g : Grammar) : Closed g (ofGrammar g) := by
  have hscan : ∀ r ∈ g.rules, g.isTerminal r.name = false →
      scan g (ofGrammar g) r.parts ((ofGrammar g).first r.name) = (ofGrammar g).first r.name := by
    intro r hr hn
    have hlook :=
      congrArg (fun table => table.first r.name) (look_eq_of_round_eq (round_ofGrammar g) hr)
    simp only [first_look] at hlook
    rwa [if_pos ⟨trivial, (within_ofGrammar g).size ▸ index_lt_of_not_terminal hn⟩] at hlook
  refine ⟨fun r hr hn hv => ?_, fun r hr hn t ht => ?_⟩
  · rw [← hscan r hr hn, scan_eq, hv]
    exact Bool.or_true _
  · rw [← hscan r hr hn, scan_eq]
    exact TermSet.contains_union_of_right ht

/-! ## §5 Words -/

/-- A closed table knows how derived words begin: nothing only where the table
says so, and otherwise with a terminal that the parts can begin with. -/
theorem Closed.beginnings_of_derives (hc : Closed g table) {parts word : List Term}
    (h : Derives g.isTerminal g.rules parts word) :
    (word = [] → vanishes g table parts = true) ∧
      ∀ t rest, word = t :: rest → (beginnings g table .empty parts).contains t = true := by
  induction h with
  | nil => exact ⟨fun _ => rfl, fun _ _ h => by cases h⟩
  | terminal ht _ _ =>
    refine ⟨fun h => (nomatch h), fun t rest h => ?_⟩
    obtain ⟨rfl, rfl⟩ := List.cons.inj h
    simp [beginnings, ht, TermSet.contains_insert]
  | @rule r parts word rest hr hn _ _ ihBody ihAfter =>
    refine ⟨fun h => ?_, fun t tail h => ?_⟩
    · obtain ⟨hw, hrest⟩ := List.append_eq_nil_iff.mp h
      have hnull := hc.nullable r hr hn (ihBody.1 hw)
      have hparts := ihAfter.1 hrest
      simp only [vanishes, List.all_cons] at hparts ⊢
      simp [hn, hnull, hparts]
    · cases word with
      | cons u word =>
        obtain ⟨rfl, _⟩ := List.cons.inj h
        have ht := hc.terminals r hr hn u (ihBody.2 u word rfl)
        simp only [beginnings, hn, Bool.false_eq_true, if_false]
        split
        · exact TermSet.contains_union_of_left ht
        · exact ht
      | nil =>
        have hnull := hc.nullable r hr hn (ihBody.1 rfl)
        simp only [beginnings, hn, hnull, Bool.false_eq_true, if_false, if_true]
        exact TermSet.contains_union_of_right (ihAfter.2 t tail h)

/-- What comes next when derived parts are followed by something: a terminal
that the table lists for them. -/
theorem Closed.contains_beginnings (hc : Closed g table) {parts word rest : List Term}
    (h : Derives g.isTerminal g.rules parts word) {after : TermSet}
    (hafter : after.contains (rest.headD .eof) = true) :
    (beginnings g table after parts).contains ((word ++ rest).headD .eof) = true := by
  obtain ⟨hnil, hcons⟩ := hc.beginnings_of_derives h
  cases word with
  | nil => exact contains_beginnings_of_vanishes (hnil rfl) hafter
  | cons t word => exact contains_beginnings_of_empty (hcons t word rfl)

end FirstTable

end GrammarCompiler
