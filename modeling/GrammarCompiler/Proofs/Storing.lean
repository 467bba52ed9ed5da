/-
GrammarCompiler.Proofs.Storing — what is stored can be read at its address.

Lists share places, so a list may stand in the middle of others. But numbers
are only added at the end, and so what stands at an address stays there.

  §1 Words   — storing lists.
  §2 Actions — reading a list of actions back.
  §3 Gotos   — looking up a symbol and a state in a table.
-/
import GrammarCompiler.Automaton.Run
import GrammarCompiler.Proofs.Lists
import GrammarCompiler.Table.Goto
import GrammarCompiler.Table.Lookup

namespace GrammarCompiler

namespace Words

variable {w w' : Words} {values : List Nat} {address : Nat}

/-! ## §1 Words -/

/-- A list stands at an address. -/
def Holds (w : Words) (values : List Nat) (address : Nat) : Prop :=
  values <+: w.data.drop address

/-- What stands at an address stays there when numbers are added. -/
theorem Holds.mono (h : w.Holds values address) (hle : w.data <+: w'.data) :
    w'.Holds values address := by
  obtain ⟨more, heq⟩ := hle
  rw [Holds, ← heq, List.drop_append]
  exact h.trans (List.prefix_append _ _)

theorem prefix_drop_of_find? {data : List Nat} (h : find? values data = some address) :
    values <+: data.drop address := by
  induction data generalizing address with
  | nil =>
    rw [find?] at h
    split at h
    next hempty => simp [List.isEmpty_iff.mp hempty]
    next => cases h
  | cons word data ih =>
    rw [find?] at h
    split at h
    next hfound =>
      cases h
      exact List.isPrefixOf_iff_prefix.mp hfound
    next =>
      obtain ⟨k, hk, rfl⟩ := Option.map_eq_some_iff.mp h
      exact ih hk

/-- Storing a list adds numbers, and the list stands at the address. -/
theorem holds_store (h : w.store values = (address, w')) :
    w'.Holds values address ∧ w.data <+: w'.data := by
  rw [store] at h
  split at h
  next hfind =>
    cases h
    split at hfind
    next => cases hfind
    next => exact ⟨prefix_drop_of_find? hfind, List.prefix_refl _⟩
  next =>
    cases h
    exact ⟨by simp [Holds], List.prefix_append _ _⟩

theorem finish_eq {data : List Nat} (h : w.finish = .ok data) :
    data = w.data ∧ ∀ value ∈ data, value ≤ 0xffff := by
  rw [finish] at h
  split at h
  next => cases h
  next hfind =>
    cases h
    exact ⟨rfl, fun value hvalue => by simpa using List.find?_eq_none.mp hfind value hvalue⟩

end Words

/-! ## §2 Actions -/

namespace ActionList

variable {g : Grammar} {skips : Skipping} {fallback : Option Nat}

theorem join_halves (word : Nat) : join (word % 65536) (word >>> 16) = word := by
  simp only [join, Nat.shiftLeft_eq, Nat.shiftRight_eq_div_pow]
  omega

theorem join_zero (low : Nat) : join low 0 = low := by
  simp [join]

/-- What is listed for an action: its terminal, and the state to go to or the
word of the reduction. The reduction for all other terminals is left out. -/
def listedAs? (g : Grammar) (skips : Skipping) (fallback : Option Nat) : Action → Option (Nat × Nat)
  | .shift term target => some (g.id term, target)
  | .reduce term rule =>
    if fallback = some (Code.fullReduction g skips rule) then none
    else some (g.id term, Code.fullReduction g skips rule)

theorem readEnd?_eq (fallback : Option Nat) (rest : List Nat) :
    read? ((match fallback with
      | none => [Code.listEnd, Code.done]
      | some word => Code.listEnd :: Code.otherwise :: Code.halves word) ++ rest) =
        some ⟨[], fallback⟩ := by
  cases fallback with
  | none =>
    have hne : Code.done ≠ Code.otherwise := by decide
    rcases rest with _ | ⟨low, _ | ⟨high, rest⟩⟩ <;> simp [read?, readEnd?, hne]
  | some word => simp [read?, readEnd?, Code.halves, join_halves]

/-- A list of actions reads back. The mark at its end is no number of a
terminal. -/
theorem read?_actions (hid : ∀ t, g.id t ≠ Code.listEnd) (list : List Action) (rest : List Nat) :
    read? (Code.actions g skips fallback list ++ rest) =
      some ⟨list.filterMap (listedAs? g skips fallback), fallback⟩ := by
  induction list with
  | nil => exact readEnd?_eq fallback rest
  | cons action list ih =>
    have hcons : Code.actions g skips fallback (action :: list) ++ rest =
        Code.action g skips fallback action ++
          (Code.actions g skips fallback list ++ rest) := by
      simp [Code.actions]
    rw [hcons]
    cases action with
    | shift term target =>
      simp [Code.action, read?, hid, ih, listedAs?, join_zero]
    | reduce term rule =>
      by_cases heq : fallback = some (Code.fullReduction g skips rule)
      · subst heq
        simpa [Code.action, listedAs?] using ih
      · simp [Code.action, heq, listedAs?, read?, hid, ih, Code.halves, join_halves]

end ActionList

/-! ## §3 Gotos -/

namespace GotoTable

theorem mem_edges {g : Grammar} {states : Automaton} {e : Edge} :
    e ∈ edges g states ↔ ∃ x ∈ (states.state e.source).gotos,
      g.id x.term = e.symbol ∧ x.target = e.target := by
  simp only [edges, List.mem_flatMap, Prod.exists, List.mem_zipIdx_iff_getElem?, List.mem_map]
  constructor
  · rintro ⟨s, source, hs, x, hx, rfl⟩
    have hstate : states.state source = s := by
      rw [Automaton.state, ← Array.getElem?_toList, hs]
      rfl
    exact ⟨x, hstate ▸ hx, rfl, rfl⟩
  · rintro ⟨x, hx, hsymbol, htarget⟩
    refine ⟨states.state e.source, e.source, ?_, x, hx, by rw [hsymbol, htarget]⟩
    rw [Array.getElem?_toList]
    rw [Automaton.state] at hx ⊢
    cases hs : states[e.source]? with
    | none =>
      rw [hs] at hx
      cases hx
    | some s => rfl

theorem mem_ascending {ns : List Nat} {n : Nat} : n ∈ ascending ns ↔ n ∈ ns := by
  have hfold (l : List Nat) : n ∈ l.foldr (fun m rest =>
      if rest.head? = some m then rest else m :: rest) [] ↔ n ∈ l := by
    induction l with
    | nil => rfl
    | cons m l ih =>
      rw [List.foldr_cons, List.mem_cons, ← ih]
      split
      next hhead =>
        refine (or_iff_right_of_imp ?_).symm
        rintro rfl
        exact List.mem_of_mem_head? hhead
      next => exact List.mem_cons
  rw [ascending, hfold, List.mem_mergeSort]

/-- The states that a target is reached from. -/
def sources (edges : List Edge) (target : Nat) : List Nat :=
  (edges.filter fun e => e.target == target).map Edge.source

theorem mem_sources {edges : List Edge} {source target : Nat} :
    source ∈ sources edges target ↔ ∃ e ∈ edges, e.target = target ∧ e.source = source := by
  simp [sources, and_assoc]

/-- The groups of an entry, from some target on. -/
theorem search_groups {edges : List Edge} {source target : Nat} {targets : List Nat} {k : Nat}
    (hmem : target ∈ targets) (hsource : source ∈ sources edges target)
    (hone : ∀ t, source ∈ sources edges t → t = target) (rest : List Nat) :
    search source ((targets.zipIdx k).flatMap (fun (t, i) =>
      ((if i + 1 = k + targets.length then 1 else 0) + 2 * (sources edges t).length) :: t ::
        sources edges t) ++ rest) = some target := by
  induction targets generalizing k with
  | nil => cases hmem
  | cons t targets ih =>
    rw [List.zipIdx_cons, List.flatMap_cons, List.append_assoc, List.cons_append,
      List.cons_append, search]
    by_cases hlast : targets = []
    · subst hlast
      obtain rfl := List.mem_singleton.mp hmem
      simp
    · have hpos := List.length_pos_iff.mpr hlast
      have hnot : ¬ k + 1 = k + (t :: targets).length := by
        rw [List.length_cons]
        omega
      rw [if_neg hnot, Nat.zero_add, if_neg (by omega), Nat.mul_div_cancel_left _ (by decide),
        List.take_left', List.drop_left']
      · by_cases heq : t = target
        · subst heq
          rw [if_pos (by simpa using hsource)]
        · rw [if_neg (by simpa using fun h => heq (hone t h))]
          have hlater := @ih (k + 1) ((List.mem_cons.mp hmem).resolve_left fun h => heq h.symm)
          rw [List.length_cons, Nat.add_comm targets.length 1, ← Nat.add_assoc]
          exact hlater
      · rfl
      · rfl

/-- In the entry of a symbol, a state is found with its target, if it has no
other one. -/
theorem search_entry {edges : List Edge} {e : Edge} (he : e ∈ edges)
    (hone : ∀ e' ∈ edges, e'.source = e.source → e'.target = e.target) (rest : List Nat) :
    search e.source (entry edges ++ rest) = some e.target := by
  have hmem : e.target ∈ ascending (edges.map Edge.target) :=
    mem_ascending.mpr (List.mem_map_of_mem he)
  have hgroups := @search_groups edges e.source e.target _ 0 hmem
    (mem_sources.mpr ⟨e, he, rfl, rfl⟩) (fun t ht => ?_) rest
  · simp only [Nat.zero_add] at hgroups
    exact hgroups
  · obtain ⟨e', he', rfl, hsource⟩ := mem_sources.mp ht
    exact hone e' he' hsource

theorem entry_ne_nil {edges : List Edge} {e : Edge} (he : e ∈ edges) : entry edges ≠ [] := by
  have hmem : e.target ∈ ascending (edges.map Edge.target) :=
    mem_ascending.mpr (List.mem_map_of_mem he)
  cases htargets : ascending (edges.map Edge.target) with
  | nil => simp [htargets] at hmem
  | cons t targets => simp [entry, htargets]

/-- Entries are stored one after another, those that hold anything. -/
theorem foldl_storeEntry {entries : List (List Nat)} {addresses : List (Option Nat)}
    {words : Words} : ∃ new words', entries.foldl storeEntry (addresses, words) =
      (addresses ++ new, words') ∧ words.data <+: words'.data ∧ new.length = entries.length ∧
      ∀ (k : Nat) entry, entries[k]? = some entry → entry ≠ [] →
        ∃ address, new[k]? = some (some address) ∧ words'.Holds entry address := by
  induction entries generalizing addresses words with
  | nil => exact ⟨[], words, by simp, List.prefix_refl _, rfl, by simp⟩
  | cons first entries ih =>
    rw [List.foldl_cons, storeEntry]
    split
    next hempty =>
      obtain ⟨new, words', hfold, hle, hlength, hall⟩ := @ih (addresses ++ [none]) words
      refine ⟨none :: new, words', by simpa using hfold, hle, by simp [hlength],
        fun k entry hentry hne => ?_⟩
      cases k with
      | zero =>
        obtain rfl := Option.some.inj hentry
        exact absurd (List.isEmpty_iff.mp hempty) hne
      | succ k => exact hall k entry hentry hne
    next =>
      obtain ⟨hheld, hle₁⟩ := Words.holds_store (words.store first).eta.symm
      obtain ⟨new, words', hfold, hle, hlength, hall⟩ :=
        @ih (addresses ++ [some (words.store first).1]) (words.store first).2
      refine ⟨some (words.store first).1 :: new, words', by simpa using hfold, hle₁.trans hle,
        by simp [hlength], fun k entry hentry hne => ?_⟩
      cases k with
      | zero =>
        obtain rfl := Option.some.inj hentry
        exact ⟨_, rfl, hheld.mono hle⟩
      | succ k => exact hall k entry hentry hne

theorem symbol_lt_of_mem {edges : List Edge} {e : Edge} (he : e ∈ edges) :
    e.symbol < (edges.map Edge.symbol).foldl max 0 + 1 := by
  have hfold (l : List Nat) (n : Nat) : n ≤ l.foldl max n ∧ ∀ m ∈ l, m ≤ l.foldl max n := by
    induction l generalizing n with
    | nil => simp
    | cons x l ih =>
      obtain ⟨hle, hall⟩ := ih (max n x)
      refine ⟨?_, List.forall_mem_cons.mpr ⟨?_, hall⟩⟩ <;> simp only [List.foldl_cons] <;> omega
  exact Nat.lt_succ_of_le ((hfold _ 0).2 _ (List.mem_map_of_mem he))

/-- A table is the number of entries, their addresses and what is stored. -/
theorem gotoTable_eq {g : Grammar} {states : Automaton} {table : List Nat}
    (h : gotoTable g states = .ok table) :
    ∃ index data, table = (entries (edges g states)).length :: (index ++ data) ∧
      index.length = (entries (edges g states)).length ∧ (∀ value ∈ index ++ data, value ≤ 0xffff) ∧
      ∀ (k : Nat) entry, (entries (edges g states))[k]? = some entry → entry ≠ [] →
        ∃ address, index[k]? = some (address + ((entries (edges g states)).length + 1)) ∧
          entry <+: data.drop address := by
  generalize hentries : entries (edges g states) = entries
  obtain ⟨new, words, hfold, _, hlength, hall⟩ := @foldl_storeEntry entries [] {}
  rw [gotoTable] at h
  simp only [hentries, hfold, List.nil_append] at h
  split at h
  next => cases h
  next hfits =>
    cases hdata : words.finish with
    | error e =>
      rw [hdata] at h
      cases h
    | ok data =>
      rw [hdata] at h
      cases h
      obtain ⟨rfl, hsmall⟩ := Words.finish_eq hdata
      refine ⟨_, _, rfl, by simp [hlength], fun value hvalue => ?_, fun k entry hentry hne => ?_⟩
      · rcases List.mem_append.mp hvalue with hvalue | hvalue
        · simp only [Bool.not_eq_true, List.any_eq_false, decide_eq_true_eq] at hfits
          exact Nat.le_of_not_lt (hfits value hvalue)
        · exact hsmall value hvalue
      · obtain ⟨address, hnew, hheld⟩ := hall k entry hentry hne
        exact ⟨address, by simp [hnew], hheld⟩

/-- All numbers of a table fit 16 bits, if those of the symbols do. -/
theorem le_of_mem_gotoTable {g : Grammar} {states : Automaton} {table : List Nat}
    (h : gotoTable g states = .ok table) (hid : ∀ t, g.id t < 0xffff) :
    ∀ value ∈ table, value ≤ 0xffff := by
  obtain ⟨index, data, rfl, _, hsmall, _⟩ := gotoTable_eq h
  have hmax (l : List Nat) (n : Nat) (hn : n < 0xffff) (hl : ∀ m ∈ l, m < 0xffff) :
      l.foldl max n < 0xffff := by
    induction l generalizing n with
    | nil => exact hn
    | cons m l ih =>
      obtain ⟨hm, hl⟩ := List.forall_mem_cons.mp hl
      exact ih (max n m) (by omega) hl
  refine List.forall_mem_cons.mpr ⟨?_, hsmall⟩
  have hlast := hmax ((edges g states).map Edge.symbol) 0 (by decide) fun m hm => by
    obtain ⟨e, he, rfl⟩ := List.mem_map.mp hm
    obtain ⟨x, _, hsymbol, _⟩ := mem_edges.mp he
    exact hsymbol ▸ hid x.term
  simp only [entries, List.length_map, List.length_range]
  omega

/-- A table leads each state to the target of its goto for a symbol, if there
is one goto only. -/
theorem lookup?_gotoTable {g : Grammar} {states : Automaton} {table : List Nat}
    (h : gotoTable g states = .ok table) {e : Edge} (he : e ∈ edges g states)
    (hone : ∀ e' ∈ edges g states, e'.symbol = e.symbol → e'.source = e.source →
      e'.target = e.target) :
    lookup? table e.symbol e.source = some e.target := by
  obtain ⟨index, data, rfl, hlength, _, hall⟩ := gotoTable_eq h
  let own := (edges g states).filter fun e' => e'.symbol == e.symbol
  have hown : e ∈ own := List.mem_filter.mpr ⟨he, by simp⟩
  have hcount : e.symbol < (entries (edges g states)).length := by
    simpa [entries] using symbol_lt_of_mem he
  have hentry : (entries (edges g states))[e.symbol]? = some (entry own) := by
    have hlt := symbol_lt_of_mem he
    simp [entries, own, hlt]
  obtain ⟨address, hindex, rest, hdata⟩ := hall _ _ hentry (entry_ne_nil hown)
  have hsearch := search_entry hown (fun e' he' hsource => ?_) rest
  · have haddress : (index ++ data)[e.symbol]? =
        some (address + ((entries (edges g states)).length + 1)) := by
      rw [List.getElem?_append_left (hlength ▸ hcount), hindex]
    have hdrop : ((entries (edges g states)).length :: (index ++ data)).drop
        (address + ((entries (edges g states)).length + 1)) = data.drop address := by
      rw [← hlength, ← Nat.add_assoc, List.drop_succ_cons, Nat.add_comm, ← List.drop_drop,
        List.drop_left']
      rfl
    simp [lookup?, hcount, haddress, hdrop, ← hdata, hsearch]
  · obtain ⟨hmem, hsymbol⟩ := List.mem_filter.mp he'
    exact hone e' hmem (eq_of_beq hsymbol) hsource

end GotoTable

end GrammarCompiler
