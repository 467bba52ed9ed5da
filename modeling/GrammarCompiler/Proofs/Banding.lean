/-
GrammarCompiler.Proofs.Banding — the bands of the numbers.

Five bands of symbols are numbered one after another: the error symbol, the symbols that
show up in trees, the repeats, the end of the input, and the rest. Every symbol is in
exactly one band, since nothing ever turns the end of the input into a symbol that shows up
in trees. This holds of every table of symbols that comes about as it should
(`Numbering.isBanded_ofRules`), and so of every build (`Compile.isBanded_of_assembly`).

  §1 Bands   — the order of the numbers as the bands in a row.
  §2 Numbers — what the number of a symbol tells about it.
-/
import GrammarCompiler.Proofs.Building
import GrammarCompiler.Proofs.Drafting
import GrammarCompiler.Proofs.Numbering

namespace GrammarCompiler

namespace Numbering

variable {terms : TermTable} {rules : List Rule} {n : Numbering} {t u : Term} {i j id k : Nat}

/-! ## §1 Bands -/

/-- A symbol that is there, and is a terminal, preserved, or used by a rule. -/
def IsLive (terms : TermTable) (rules : List Rule) (t : Term) : Prop :=
  t.index < terms.size ∧ (terms.isTerminal t = true ∨ (terms.info t).preserved = true ∨
    ∃ r ∈ rules, t = r.name ∨ t ∈ r.parts)

theorem mem_usedIn : t ∈ usedIn rules ↔ ∃ r ∈ rules, t = r.name ∨ t ∈ r.parts := by
  simp [usedIn]

/-- The symbols that are worth a number are the live ones. -/
theorem mem_live : t ∈ live terms rules ↔ IsLive terms rules t := by
  constructor
  · intro ht
    obtain ⟨hall, hlive⟩ := List.mem_filter.mp ht
    obtain ⟨index, hindex, rfl⟩ := List.mem_map.mp hall
    have hlt : index < terms.size := List.mem_range.mp hindex
    refine ⟨hlt, ?_⟩
    rw [Bool.or_eq_true, Bool.or_eq_true, or_assoc] at hlive
    refine hlive.imp_right (.imp_right fun hused => mem_usedIn.mp ?_)
    have hfold : usage terms rules = ((usedIn rules).map fun t => (t.index, true)).foldl
        (fun used p => used.setIfInBounds p.1 p.2) (Array.replicate terms.size false) := by
      rw [usage, List.foldl_map]
    have hget : (usage terms rules)[index]? = some true := by
      cases h : (usage terms rules)[index]? with
      | none => simp [h] at hused
      | some b => simpa [h] using hused
    rw [hfold] at hget
    rcases mem_of_getElem?_foldl_set hget with hnone | hmem
    · simp [Array.getElem?_replicate] at hnone
    · obtain ⟨u, hu, heq⟩ := List.mem_map.mp hmem
      exact Term.eq_of_index_eq (t := u) (u := ⟨index⟩) (Prod.mk.inj heq).1 ▸ hu
  · rintro ⟨hlt, hterminal | hpreserved | hused⟩
    · exact mem_live_of_isTerminal hterminal hlt
    · refine List.mem_filter.mpr ⟨List.mem_map.mpr ⟨t.index, List.mem_range.mpr hlt, rfl⟩, ?_⟩
      simp [hpreserved]
    · exact mem_live_of_mem_usedIn (mem_usedIn.mpr hused) hlt

/-- The band that a symbol is numbered in. -/
def band (terms : TermTable) (t : Term) : Nat :=
  if t = .error then 0
  else if terms.isRepeat t then 2
  else if (terms.info t).isNode then 1
  else if t = .eof then 3
  else 4

/-- Whether a symbol comes before another: by the bands, then by creation. -/
def Precedes (terms : TermTable) (t u : Term) : Prop :=
  band terms t < band terms u ∨ band terms t = band terms u ∧ t.index < u.index

/-- The live symbols of a band. -/
def inBand (terms : TermTable) (rules : List Rule) (k : Nat) : List Term :=
  (live terms rules).filter fun t => band terms t == k

/-- The live symbols of the bands before the `k`-th. -/
def below (terms : TermTable) (rules : List Rule) (k : Nat) : List Term :=
  (List.range k).flatMap (inBand terms rules)

theorem mem_inBand : t ∈ inBand terms rules k ↔ IsLive terms rules t ∧ band terms t = k := by
  rw [inBand, List.mem_filter, mem_live, beq_iff_eq]

theorem mem_below : t ∈ below terms rules k ↔ IsLive terms rules t ∧ band terms t < k := by
  simp only [below, List.mem_flatMap, List.mem_range, mem_inBand]
  constructor
  · rintro ⟨j, hj, hlive, rfl⟩
    exact ⟨hlive, hj⟩
  · exact fun ⟨hlive, hlt⟩ => ⟨_, hlt, hlive, rfl⟩

theorem below_succ : below terms rules (k + 1) = below terms rules k ++ inBand terms rules k := by
  rw [below, below, List.range_succ, List.flatMap_append, List.flatMap_singleton]

theorem below_prefix {j : Nat} (h : k ≤ j) : below terms rules k <+: below terms rules j := by
  induction h with
  | refl => exact List.prefix_refl _
  | step _ ih => exact ih.trans (below_succ ▸ List.prefix_append _ _)

theorem band_lt (terms : TermTable) (t : Term) : band terms t < 5 := by
  unfold band
  split_ifs <;> decide

theorem not_precedes_self : ¬ Precedes terms t t := by
  simp [Precedes]

theorem Precedes.not_precedes (h : Precedes terms t u) : ¬ Precedes terms u t := by
  unfold Precedes at h ⊢
  omega

/-- Symbols in the order of creation, within each band. -/
theorem pairwise_below : (below terms rules k).Pairwise (Precedes terms) := by
  have hall : terms.all.Pairwise fun t u => t.index < u.index :=
    List.pairwise_map.mpr List.pairwise_lt_range
  refine List.pairwise_flatMap.mpr ⟨fun j _ => ?_, List.pairwise_lt_range.imp ?_⟩
  · refine ((hall.filter _).filter _).imp_of_mem fun ht hu hlt => .inr ⟨?_, hlt⟩
    exact (mem_inBand.mp ht).2.trans (mem_inBand.mp hu).2.symm
  · intro i j hlt t ht u hu
    exact .inl (by rw [(mem_inBand.mp ht).2, (mem_inBand.mp hu).2]; exact hlt)

/-- A list without repetition holds each of its elements once. -/
theorem filter_eq_singleton {l : List Term} (h : l.Nodup) (ht : t ∈ l)
    {p : Term → Bool} (hp : ∀ u, p u = true ↔ u = t) : l.filter p = [t] := by
  have hperm : (l.filter p).Perm [t] := by
    refine (List.perm_ext_iff_of_nodup (h.filter _) (List.nodup_singleton t)).mpr fun u => ?_
    rw [List.mem_filter, hp, List.mem_singleton]
    exact ⟨And.right, fun heq => ⟨heq ▸ ht, heq⟩⟩
  exact List.perm_singleton.mp hperm

theorem band_eq_zero : band terms t = 0 ↔ t = .error := by
  refine ⟨fun h => ?_, fun h => if_pos h⟩
  unfold band at h
  split_ifs at h with h₁
  exact h₁

section

variable (hterms : terms.HoldsReserved)
include hterms

theorem band_eq_two : band terms t = 2 ↔ terms.isRepeat t = true := by
  have herror := hterms.isRepeat_error
  unfold band
  split_ifs <;> simp_all

theorem band_eq_three : band terms t = 3 ↔ t = .eof := by
  have hnode := hterms.ne_eof_of_isNode (t := t)
  have hrepeat (h : terms.isRepeat t = true) := TermTable.isNode_of_isRepeat h
  have hne : Term.error ≠ .eof := by decide
  have hne' : Term.eof ≠ .error := hne.symm
  unfold band
  split_ifs <;> simp_all

theorem band_lt_three : band terms t < 3 ↔ (terms.info t).isNode = true := by
  have herror : (terms.info .error).isNode = true := by
    simp [TermInfo.isNode, hterms.isSome_nodeName_error]
  have hrepeat (h : terms.isRepeat t = true) := TermTable.isNode_of_isRepeat h
  unfold band
  split_ifs <;> simp_all

theorem isLive_error : IsLive terms rules .error :=
  ⟨hterms.error_lt, .inr (.inl hterms.preserved_error)⟩

theorem isLive_eof : IsLive terms rules .eof :=
  ⟨hterms.eof_lt, .inl hterms.isTerminal_eof⟩

theorem inBand_zero : inBand terms rules 0 = [.error] :=
  filter_eq_singleton (nodup_live terms rules) (mem_live.mpr (isLive_error hterms)) fun u => by
    rw [beq_iff_eq, band_eq_zero]

theorem inBand_three : inBand terms rules 3 = [.eof] :=
  filter_eq_singleton (nodup_live terms rules) (mem_live.mpr (isLive_eof hterms)) fun u => by
    rw [beq_iff_eq, band_eq_three hterms]

/-- The order of the numbers is that of the bands, and every band is in one place. -/
theorem ofRules_eq (h : ofRules terms rules = .ok n) :
    n.order = below terms rules 5 ∧ n.minRepeat = (below terms rules 2).length ∧
      n.nodeCount = (below terms rules 3).length := by
  have hband (k : Nat) {p : Term → Bool} (hp : ∀ t, band terms t = k ↔ p t = true) :
      inBand terms rules k = (live terms rules).filter p :=
    List.filter_congr fun t _ => by rw [Bool.eq_iff_iff, beq_iff_eq, hp]
  have hnodes : inBand terms rules 1 = ((((live terms rules).filter fun t =>
      t != .error && t != .eof).filter fun t => !terms.isRepeat t).filter
        fun t => (terms.info t).isNode) := by
    rw [List.filter_filter, List.filter_filter]
    refine hband 1 fun t => ?_
    have hnode := hterms.ne_eof_of_isNode (t := t)
    unfold band
    split_ifs <;> simp_all
  have hrepeats : inBand terms rules 2 = ((live terms rules).filter fun t =>
      t != .error && t != .eof).filter terms.isRepeat := by
    rw [List.filter_filter]
    refine hband 2 fun t => ?_
    have hrepeat := fun h => hterms.ne_eof_of_isNode (TermTable.isNode_of_isRepeat (t := t) h)
    unfold band
    split_ifs <;> simp_all
  have hrest : inBand terms rules 4 = ((((live terms rules).filter fun t =>
      t != .error && t != .eof).filter fun t => !terms.isRepeat t).filter
        fun t => !(terms.info t).isNode) := by
    rw [List.filter_filter, List.filter_filter]
    refine hband 4 fun t => ?_
    unfold band
    split_ifs <;> simp_all
  have hsteps (k : Nat) : below terms rules (k + 1) = below terms rules k ++ inBand terms rules k :=
    below_succ
  have hzero : below terms rules 0 = [] := rfl
  rw [ofRules] at h
  split at h
  next => cases h
  next =>
    cases h
    simp only [hsteps, hzero, inBand_zero hterms, hnodes, hrepeats, inBand_three hterms, hrest]
    refine ⟨?_, ?_, ?_⟩
    · simp
    · simp [Nat.add_comm]
    · simp

/-! ## §2 Numbers -/

variable (h : ofRules terms rules = .ok n)
include h

theorem mem_order_iff : t ∈ n.order ↔ IsLive terms rules t := by
  rw [(ofRules_eq hterms h).1, mem_below]
  exact and_iff_left (band_lt terms t)

/-- The number of a symbol is its place in the order, and nothing else has a number. -/
theorem id?_eq_some_iff : n.id? t = some id ↔ n.order[id]? = some t := by
  refine ⟨order_of_id? h, fun hid => id?_eq h hid ?_⟩
  exact ((mem_order_iff hterms h).mp (List.mem_of_getElem? hid)).1

theorem lt_iff_precedes (hi : n.id? t = some i) (hj : n.id? u = some j) :
    i < j ↔ Precedes terms t u := by
  have hpairwise : n.order.Pairwise (Precedes terms) := by
    rw [(ofRules_eq hterms h).1]
    exact pairwise_below
  obtain ⟨hlt, rfl⟩ := List.getElem?_eq_some_iff.mp (order_of_id? h hi)
  obtain ⟨hlt', rfl⟩ := List.getElem?_eq_some_iff.mp (order_of_id? h hj)
  rw [List.pairwise_iff_getElem] at hpairwise
  refine ⟨hpairwise i j hlt hlt', fun hbefore => ?_⟩
  rcases Nat.lt_trichotomy i j with hij | rfl | hji
  · exact hij
  · exact absurd hbefore not_precedes_self
  · exact absurd hbefore (hpairwise j i hlt' hlt hji).not_precedes

/-- The symbols with the lowest numbers are those of the first bands. -/
theorem lt_length_below_iff (hk : k ≤ 5) (hid : n.id? t = some id) :
    id < (below terms rules k).length ↔ band terms t < k := by
  obtain ⟨later, hsplit⟩ : below terms rules k <+: n.order := by
    rw [(ofRules_eq hterms h).1]
    exact below_prefix hk
  have hfirst {i : Nat} (hlt : i < (below terms rules k).length) :
      n.order[i]? = (below terms rules k)[i]? := by
    rw [← hsplit, List.getElem?_append_left hlt]
  have hat := order_of_id? h hid
  have hlive : IsLive terms rules t := (mem_order_iff hterms h).mp (List.mem_of_getElem? hat)
  constructor
  · intro hlt
    exact (mem_below.mp (List.mem_of_getElem? (hfirst hlt ▸ hat))).2
  · intro hband
    obtain ⟨j, hj⟩ := List.mem_iff_getElem?.mp (mem_below.mpr ⟨hlive, hband⟩)
    have hlt := (List.getElem?_eq_some_iff.mp hj).1
    have hid' := (id?_eq_some_iff hterms h).mpr ((hfirst hlt).trans hj)
    rwa [Option.some.inj (hid.symm.trans hid')]

theorem nodeTypes_eq : n.nodeTypes = below terms rules 3 := by
  obtain ⟨horder, -, hcount⟩ := ofRules_eq hterms h
  obtain ⟨later, hsplit⟩ : below terms rules 3 <+: n.order := horder ▸ below_prefix (by decide)
  rw [nodeTypes, hcount, ← hsplit, List.take_left]

/-- The number of a symbol that has a band of its own. -/
theorem id?_of_inBand_eq (hk : k < 5) (hband : inBand terms rules k = [t]) :
    n.id? t = some (below terms rules k).length := by
  obtain ⟨later, hsplit⟩ : below terms rules (k + 1) <+: n.order :=
    (ofRules_eq hterms h).1 ▸ below_prefix hk
  rw [id?_eq_some_iff hterms h, ← hsplit, below_succ, hband]
  simp

end

/-- Numbers that are given out in bands, each to one live symbol. -/
structure IsBanded (terms : TermTable) (rules : List Rule) (n : Numbering) : Prop where
  isLive : ∀ t, (∃ id, n.id? t = some id) ↔ IsLive terms rules t
  le_maxTerm : ∀ id, (∃ t, n.id? t = some id) ↔ id ≤ n.maxTerm
  inj : ∀ t u id, n.id? t = some id → n.id? u = some id → t = u
  error : n.id? .error = some 0
  lt_iff : ∀ t u i j, n.id? t = some i → n.id? u = some j → (i < j ↔ Precedes terms t u)
  isRepeat : ∀ t id, n.id? t = some id →
    (terms.isRepeat t = true ↔ n.minRepeat ≤ id ∧ id < n.nodeTypes.length)
  isNode : ∀ t id, n.id? t = some id →
    ((terms.info t).isNode = true ↔ id < n.nodeTypes.length)
  nodeTypes : ∀ i t, n.nodeTypes[i]? = some t → n.id? t = some i
  eof : n.id? .eof = some n.nodeTypes.length
  namedIds : (n.names terms).map Prod.fst = List.range (n.maxTerm + 1)
  names : ∀ id name, (id, name) ∈ n.names terms ↔ ∃ t, n.id? t = some id ∧ terms.name t = name
  maxTerm_lt : n.maxTerm < 0xfffd

theorem isBanded_of_holdsReserved (hr : terms.HoldsReserved) (h : ofRules terms rules = .ok n) :
    IsBanded terms rules n := by
  have hid (t : Term) (id : Nat) : n.id? t = some id ↔ n.order[id]? = some t :=
    id?_eq_some_iff hr h
  have hpos : 0 < n.order.length :=
    List.length_pos_of_mem ((mem_order_iff hr h).mpr (isLive_error hr))
  have hmax (id : Nat) : id < n.order.length ↔ id ≤ n.maxTerm := by
    rw [maxTerm]
    omega
  have hband {k id : Nat} {t : Term} (hk : k ≤ 5) (ht : n.id? t = some id) :=
    lt_length_below_iff hr h hk ht
  have hnodes := nodeTypes_eq hr h
  exact {
    isLive := fun t => by
      rw [← mem_order_iff hr h, List.mem_iff_getElem?]
      simp only [hid]
    le_maxTerm := fun id => by
      rw [← hmax]
      constructor
      · rintro ⟨t, ht⟩
        exact (List.getElem?_eq_some_iff.mp (order_of_id? h ht)).1
      · exact fun hlt => ⟨_, (hid _ id).mpr (List.getElem?_eq_getElem hlt)⟩
    inj := fun t u id ht hu => by
      rw [hid] at ht hu
      exact Option.some.inj (ht.symm.trans hu)
    error := id?_of_inBand_eq hr h (by decide) (inBand_zero hr)
    lt_iff := fun t u i j => lt_iff_precedes hr h
    isRepeat := fun t id ht => by
      rw [← band_eq_two hr, (ofRules_eq hr h).2.1, hnodes, hband (by decide) ht,
        ← Nat.not_lt, hband (by decide) ht]
      omega
    isNode := fun t id ht => by
      rw [← band_lt_three hr, hnodes, hband (by decide) ht]
    nodeTypes := fun i t hi => by
      rw [nodeTypes, List.getElem?_take] at hi
      split at hi
      · exact (hid t i).mpr hi
      · cases hi
    eof := hnodes ▸ id?_of_inBand_eq hr h (by decide) (inBand_three hr)
    namedIds := by
      have hsucc : n.maxTerm + 1 = n.order.length := Nat.sub_add_cancel hpos
      rw [names, List.map_map, hsucc, List.range_eq_range', ← List.zipIdx_map_snd]
      rfl
    names := fun id name => by
      simp only [names, List.mem_map, Prod.exists, List.mem_zipIdx_iff_getElem?, Prod.mk.injEq,
        hid]
      constructor
      · rintro ⟨t, _, ht, rfl, rfl⟩
        exact ⟨t, ht, rfl⟩
      · rintro ⟨t, ht, rfl⟩
        exact ⟨t, id, ht, rfl, rfl⟩
    maxTerm_lt := by
      have := length_order_lt h
      rw [maxTerm]
      omega }

/-- Numbering gives every live symbol, and no other, one of the numbers from zero on, in
bands. -/
theorem isBanded_ofRules (hterms : terms.IsMade) (h : ofRules terms rules = .ok n) :
    IsBanded terms rules n :=
  isBanded_of_holdsReserved hterms.holdsReserved h

/-- The symbols of a grammar for items in a row: the top symbol, the row, an item, two terminals,
and a symbol that nothing uses. -/
def itemTerms : TermTable :=
  [{ name := "@top", kind := .top, nodeName := some "Program" },
    { name := "item+", kind := .repeating }, { name := "item", kind := .nonterminal },
    { name := "a", kind := .terminal },
    { name := "Word", kind := .terminal, nodeName := some "Word" },
    { name := "unused", kind := .nonterminal }].foldl (fun terms info => (terms.add info).2)
      TermTable.initial

/-- A row is an item, or two rows, and an item one of the terminals. -/
def itemRules : List Rule :=
  [(2, [3]), (3, [4]), (3, [3, 3]), (4, [5]), (4, [6])].map fun (name, parts) =>
    { parts := parts.map .mk, marks := [], id := 0, name := ⟨name⟩, skip := .eof }

/-- The top symbol and a terminal show up in trees, the row follows, and the end of the input
comes before the other symbols. -/
theorem isBanded_itemRules : itemTerms.IsMade ∧ ∃ n, ofRules itemTerms itemRules = .ok n ∧
    (n.order.map Term.index = [1, 2, 6, 3, 0, 4, 5] ∧ n.minRepeat = 3 ∧ n.nodeCount = 4) ∧
      IsBanded itemTerms itemRules n := by
  have hmade : itemTerms.IsMade := TermTable.IsMade.initial.addAll _
  exact ⟨hmade, _, rfl, by decide, isBanded_ofRules hmade rfl⟩

end Numbering

/-- The symbols of every grammar text have come about in this way. -/
theorem Blueprint.isMade_of_ofSource {source : Text.Source} {b : Blueprint} {journal : Journal}
    (h : ofSource source = (.ok b, journal)) : b.draft.terms.IsMade :=
  (sound_of_ofSource h).made

/-- So the numbers of a build are in bands. -/
theorem Compile.isBanded_of_assembly {source : Text.Source} {b : Blueprint} {j j' : Journal}
    {a : Assembly} (hsource : Blueprint.ofSource source = (.ok b, j))
    (h : assembly b j = .ok a j') :
    Numbering.IsBanded b.draft.terms b.simplified a.grammar.numbering := by
  obtain ⟨_, x, rfl, -⟩ := exists_stages h
  have hmade := Blueprint.isMade_of_ofSource hsource
  exact Numbering.isBanded_of_holdsReserved hmade.holdsReserved x.numbered

end GrammarCompiler
