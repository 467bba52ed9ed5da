/-
GrammarCompiler.Proofs.Tokenizers — the tokenizers that states use.

The tables list the groups of tokens and the external tokenizers, and the record of a state has a
bit for the place of each one. It is set if the state uses the one that stands there: its own group,
and the external tokenizers that tokens come from that it reads or that begin something to skip. As
a record has 32 bits for this, a place shares its bit with all places that are 32 further on.

  §1 Chains  — where tokens come from in the end.
  §2 Bits    — the bits of a mask.
  §3 Order   — all tokenizers, each one listed once.
  §4 Records — the masks in the tables.
  §5 Builds  — the masks of a build.
-/
import GrammarCompiler.Proofs.Enabling
import GrammarCompiler.Proofs.Scoping
import GrammarCompiler.Proofs.Starting

namespace GrammarCompiler

/-! ## §1 Chains -/

namespace TokenOrigins

variable {origins : TokenOrigins} {t u v : Term} {n m fuel tokenizer : Nat}

/-- A token is a case of others, in any number of steps, of which the last one comes from an
external tokenizer. -/
def ComesFrom (origins : TokenOrigins) (t : Term) (tokenizer : Nat) : Prop :=
  ∃ n u, origins.EndsIn n t u ∧ origins.get? u = some (.external tokenizer)

/-- A token is a case of one other token at most, so there is one way to follow. -/
theorem EndsIn.unique (h : origins.EndsIn n t u) (h' : origins.EndsIn m t v) : n = m ∧ u = v := by
  induction h generalizing m with
  | here hend =>
    cases h' with
    | here => exact ⟨rfl, rfl⟩
    | there hcase => exact absurd hcase (hend _)
  | there hcase _ ih =>
    cases h' with
    | here hend => exact absurd hcase (hend _)
    | there hcase' hrest =>
      obtain rfl : _ = _ := TokenOrigin.specializes.inj (Option.some.inj (hcase.symm.trans hcase'))
      obtain ⟨rfl, rfl⟩ := ih hrest
      exact ⟨rfl, rfl⟩

theorem mem_keys_of_get? {origin : TokenOrigin} (h : origins.get? t = some origin) :
    t ∈ origins.map Prod.fst := by
  obtain ⟨before, after, rfl, -⟩ := List.lookup_eq_some_iff.mp h
  simp

/-- The tokens on the way to an external one are all different. -/
theorem EndsIn.exists_path (h : origins.EndsIn n t u)
    (hu : origins.get? u = some (.external tokenizer)) :
    ∃ path : List Term, path.length = n + 1 ∧ path.Nodup ∧ path ⊆ origins.map Prod.fst ∧
      ∀ x ∈ path, ∃ m ≤ n, origins.EndsIn m x u := by
  induction h with
  | @here t hend =>
    refine ⟨[t], rfl, List.nodup_singleton t, List.forall_mem_singleton.mpr ?_,
      List.forall_mem_singleton.mpr ?_⟩
    · exact mem_keys_of_get? hu
    · exact ⟨0, le_rfl, .here hend⟩
  | @there n t base u hcase hrest ih =>
    obtain ⟨path, hlength, hnodup, hsubset, hends⟩ := ih hu
    refine ⟨t :: path, congrArg Nat.succ hlength, List.nodup_cons.mpr ⟨?_, hnodup⟩,
      List.cons_subset.mpr ⟨mem_keys_of_get? hcase, hsubset⟩, List.forall_mem_cons.mpr ⟨?_, ?_⟩⟩
    · -- From further down the way is shorter.
      intro ht
      obtain ⟨m, hm, hshort⟩ := hends t ht
      have := (hshort.unique (.there hcase hrest)).1
      omega
    · exact ⟨n + 1, le_rfl, .there hcase hrest⟩
    · intro x hx
      obtain ⟨m, hm, hx⟩ := hends x hx
      exact ⟨m, by omega, hx⟩

/-- The way to an external token is not longer than the list of origins. -/
theorem EndsIn.lt_length (h : origins.EndsIn n t u)
    (hu : origins.get? u = some (.external tokenizer)) : n < origins.length := by
  obtain ⟨path, hlength, hnodup, hsubset, _⟩ := h.exists_path hu
  have hle := (List.subperm_of_subset hnodup hsubset).length_le
  rw [hlength, List.length_map] at hle
  exact hle

theorem EndsIn.tokenizerFrom?_eq (h : origins.EndsIn n t u)
    (hu : origins.get? u = some (.external tokenizer)) (hfuel : n < fuel) :
    origins.tokenizerFrom? fuel t = some tokenizer := by
  induction h generalizing fuel with
  | here =>
    obtain ⟨fuel, rfl⟩ := Nat.exists_eq_succ_of_ne_zero (Nat.ne_zero_of_lt hfuel)
    rw [tokenizerFrom?, hu]
  | there hcase _ ih =>
    obtain ⟨fuel, rfl⟩ := Nat.exists_eq_succ_of_ne_zero (Nat.ne_zero_of_lt hfuel)
    rw [tokenizerFrom?, hcase]
    exact ih hu (Nat.lt_of_succ_lt_succ hfuel)

theorem comesFrom_of_tokenizerFrom? (h : origins.tokenizerFrom? fuel t = some tokenizer) :
    origins.ComesFrom t tokenizer := by
  induction fuel generalizing t with
  | zero => cases h
  | succ fuel ih =>
    rw [tokenizerFrom?] at h
    split at h
    next base hcase =>
      obtain ⟨n, u, hends, hu⟩ := ih h
      exact ⟨n + 1, u, .there hcase hends, hu⟩
    next hexternal =>
      cases h
      exact ⟨0, t, .here fun base hcase => by simp [hexternal] at hcase, hexternal⟩
    next => cases h

/-- Chains of cases are followed to their ends. -/
theorem tokenizer?_eq_some_iff :
    origins.tokenizer? t = some tokenizer ↔ origins.ComesFrom t tokenizer := by
  constructor
  · exact comesFrom_of_tokenizerFrom?
  · rintro ⟨n, u, hends, hu⟩
    exact hends.tokenizerFrom?_eq hu (Nat.lt_succ_of_lt (hends.lt_length hu))

end TokenOrigins

/-! ## §2 Bits -/

/-- A state uses its group, and an external tokenizer if a token comes from there that the state has
an action for or that starts what can be skipped. -/
def State.InUse (s : State) (origins : TokenOrigins) (starts : Term → Prop) :
    Records.TokenizerId → Prop
  | .group id => s.group = some id
  | .external tokenizer => ∃ t, (t ∈ s.terms ∨ starts t) ∧ origins.ComesFrom t tokenizer

theorem State.InUse.mono {s : State} {origins : TokenOrigins} {starts starts' : Term → Prop}
    (h : ∀ t, starts t → starts' t) {id : Records.TokenizerId} (hid : s.InUse origins starts id) :
    s.InUse origins starts' id := by
  cases id with
  | group => exact hid
  | external tokenizer =>
    obtain ⟨t, ht, hcomes⟩ := hid
    exact ⟨t, ht.imp_right (h t), hcomes⟩

namespace Records

variable {origins : TokenOrigins} {skips : Skipping} {order : List TokenizerId} {s : State}

theorem testBit_or_tokenizerBit (mask place i : Nat) :
    (mask ||| tokenizerBit place).testBit i = true ↔ mask.testBit i = true ∨ place % 32 = i :=
  TokenGroups.testBit_or_one_shiftLeft mask (place % 32) i

/-- Places share their bits if they are a multiple of 32 apart. -/
theorem tokenizerBit_eq_iff (m n : Nat) : tokenizerBit m = tokenizerBit n ↔ m % 32 = n % 32 := by
  rw [tokenizerBit, tokenizerBit, Nat.one_shiftLeft, Nat.one_shiftLeft]
  exact Nat.pow_right_injective le_rfl |>.eq_iff

/-- Every place of a list has a bit of its own exactly if there are at most 32. -/
theorem tokenizerBit_injOn_iff (count : Nat) : count ≤ 32 ↔
    ∀ m < count, ∀ n < count, tokenizerBit m = tokenizerBit n → m = n := by
  simp only [tokenizerBit_eq_iff]
  constructor
  · intro _ m _ n _ _
    omega
  · intro h
    by_contra hlt
    exact absurd (h 0 (by omega) 32 (by omega) rfl) (by decide)

theorem uses_iff {starts : Term → Prop} (hstarts : ∀ t, t ∈ skips.starts s.skip ↔ starts t)
    (id : TokenizerId) :
    uses s ((s.terms ++ skips.starts s.skip).filterMap origins.tokenizer?) id = true ↔
      s.InUse origins starts id := by
  cases id with
  | group id => exact beq_iff_eq
  | external i =>
    simp only [uses, List.contains_iff_mem, List.mem_filterMap, List.mem_append, hstarts,
      TokenOrigins.tokenizer?_eq_some_iff, State.InUse]

theorem testBit_foldl_tokenizerBit (p : TokenizerId → Bool) (l : List (TokenizerId × Nat))
    (mask i : Nat) :
    (l.foldl (fun mask (id, place) => if p id then mask ||| tokenizerBit place else mask)
        mask).testBit i = true ↔
      mask.testBit i = true ∨ ∃ id place, (id, place) ∈ l ∧ place % 32 = i ∧ p id = true := by
  induction l generalizing mask with
  | nil => simp
  | cons entry l ih =>
    obtain ⟨id, place⟩ := entry
    have hfirst : (if p id then mask ||| tokenizerBit place else mask).testBit i = true ↔
        mask.testBit i = true ∨ place % 32 = i ∧ p id = true := by
      split
      next hp => rw [testBit_or_tokenizerBit, and_iff_left hp]
      next hp => simp [hp]
    rw [List.foldl_cons, ih, hfirst, or_assoc]
    refine or_congr_right ?_
    constructor
    · rintro (⟨hplace, hp⟩ | ⟨id', place', hmem, h⟩)
      · exact ⟨id, place, .head _, hplace, hp⟩
      · exact ⟨id', place', .tail _ hmem, h⟩
    · rintro ⟨id', place', hmem, h⟩
      rcases List.mem_cons.mp hmem with heq | hmem
      · cases heq
        exact .inl h
      · exact .inr ⟨id', place', hmem, h⟩

/-- A bit of a mask is set if it is the bit of a tokenizer that is used. -/
theorem testBit_tokenizerMask {starts : Term → Prop}
    (hstarts : ∀ t, t ∈ skips.starts s.skip ↔ starts t) (i : Nat) :
    (tokenizerMask origins skips order s).testBit i = true ↔
      ∃ k id, order[k]? = some id ∧ k % 32 = i ∧ s.InUse origins starts id := by
  simp only [tokenizerMask, testBit_foldl_tokenizerBit, Nat.zero_testBit, Bool.false_eq_true,
    false_or, uses_iff hstarts, List.mem_zipIdx_iff_getElem?]
  exact exists_comm

/-- As long as the bits of one word are enough, a bit tells about the tokenizer of its place
alone. -/
theorem exists_of_length_le {p : TokenizerId → Prop} (h : order.length ≤ 32) (i : Nat) :
    (∃ k id, order[k]? = some id ∧ k % 32 = i ∧ p id) ↔ ∃ id, order[i]? = some id ∧ p id := by
  constructor
  · rintro ⟨k, id, hk, hi, hp⟩
    have hlt : k < order.length := (List.getElem?_eq_some_iff.mp hk).1
    obtain rfl : k = i := by rwa [Nat.mod_eq_of_lt (hlt.trans_le h)] at hi
    exact ⟨id, hk, hp⟩
  · rintro ⟨id, hi, hp⟩
    have hlt : i < order.length := (List.getElem?_eq_some_iff.mp hi).1
    exact ⟨i, id, hi, Nat.mod_eq_of_lt (hlt.trans_le h), hp⟩

/-- A mask names the tokenizers of a list with a property: these bits are set and no others. -/
def Names (mask : Nat) (order : List TokenizerId) (p : TokenizerId → Prop) : Prop :=
  ∀ i, mask.testBit i = true ↔ ∃ id, order[i]? = some id ∧ p id

theorem Names.iff_of_imp {mask : Nat} {order : List TokenizerId}
    {p q : TokenizerId → Prop} (h : Names mask order p) (himp : ∀ id, p id → q id) :
    Names mask order q ↔ ∀ id ∈ order, q id → p id := by
  constructor
  · intro hq id hid hqid
    obtain ⟨i, hi⟩ := List.mem_iff_getElem?.mp hid
    obtain ⟨id', hi', hp⟩ := (h i).mp ((hq i).mpr ⟨id, hi, hqid⟩)
    obtain rfl : id = id' := Option.some.inj (hi.symm.trans hi')
    exact hp
  · intro hall i
    rw [h i]
    constructor
    · rintro ⟨id, hi, hp⟩
      exact ⟨id, hi, himp id hp⟩
    · rintro ⟨id, hi, hq⟩
      exact ⟨id, hi, hall id (List.mem_of_getElem? hi) hq⟩

/-- If all tokenizers have the property, these are the first bits. -/
theorem Names.eq_of_forall {mask : Nat} {order : List TokenizerId} {p : TokenizerId → Prop}
    (h : Names mask order p) (hall : ∀ id ∈ order, p id) : mask = 2 ^ order.length - 1 := by
  apply Nat.eq_of_testBit_eq
  intro i
  rw [Bool.eq_iff_iff, h i, Nat.testBit_two_pow_sub_one, decide_eq_true_iff]
  constructor
  · rintro ⟨id, hi, -⟩
    exact (List.getElem?_eq_some_iff.mp hi).1
  · intro hi
    exact ⟨order[i], List.getElem?_eq_getElem hi, hall _ (List.getElem_mem hi)⟩

/-! ## §3 Order -/

variable (decl : GrammarDecl) (groupCount : Nat)

/-- All tokenizers with their places in the text, before they are sorted. -/
def placedTokenizers : List (Nat × TokenizerId) :=
  let place := (decl.tokens.map fun t => t.start + 1).getD 0
  (List.range groupCount).map (fun i => (place, .group i)) ++
    decl.externalTokens.zipIdx.map fun (d, i) => (d.start + 1, .external i)

theorem map_snd_placedTokenizers : (placedTokenizers decl groupCount).map Prod.snd =
    (List.range groupCount).map .group ++
      (List.range decl.externalTokens.length).map .external := by
  simp only [placedTokenizers, List.map_append, List.map_map, Function.comp_def,
    List.append_cancel_left_eq]
  rw [List.range_eq_range', ← List.zipIdx_map_snd, List.map_map]
  rfl

/-- Sorting leaves all tokenizers there. -/
theorem perm_tokenizerOrder : (tokenizerOrder decl groupCount).Perm
    ((List.range groupCount).map .group ++
      (List.range decl.externalTokens.length).map .external) :=
  ((List.mergeSort_perm _ _).map Prod.snd).trans
    (.of_eq (map_snd_placedTokenizers decl groupCount))

theorem nodup_tokenizerOrder : (tokenizerOrder decl groupCount).Nodup := by
  rw [(perm_tokenizerOrder decl groupCount).nodup_iff, List.nodup_append]
  refine ⟨List.nodup_range.map fun _ _ h => TokenizerId.group.inj h,
    List.nodup_range.map fun _ _ h => TokenizerId.external.inj h, ?_⟩
  simp

variable {decl groupCount}

theorem group_mem_tokenizerOrder {id : Nat} :
    .group id ∈ tokenizerOrder decl groupCount ↔ id < groupCount := by
  simp [(perm_tokenizerOrder decl groupCount).mem_iff]

theorem external_mem_tokenizerOrder {i : Nat} :
    .external i ∈ tokenizerOrder decl groupCount ↔ i < decl.externalTokens.length := by
  simp [(perm_tokenizerOrder decl groupCount).mem_iff]

/-- Without token rules the groups come first. -/
theorem tokenizerOrder_of_tokens_eq_none (htokens : decl.tokens = none)
    (hstarts : decl.externalTokens.Pairwise fun d d' => d.start ≤ d'.start) :
    tokenizerOrder decl groupCount = (List.range groupCount).map .group ++
      (List.range decl.externalTokens.length).map .external := by
  rw [← map_snd_placedTokenizers]
  refine congrArg (List.map Prod.snd) (List.mergeSort_of_pairwise (l := placedTokenizers _ _) ?_)
  rw [placedTokenizers, htokens]
  refine List.pairwise_append.mpr ⟨?_, ?_, ?_⟩
  · exact List.pairwise_map.mpr (List.pairwise_of_forall fun _ _ => by simp)
  · rw [List.pairwise_map]
    have hfst := hstarts
    rw [← List.zipIdx_map_fst 0 decl.externalTokens, List.pairwise_map] at hfst
    exact hfst.imp fun h => by simpa using h
  · rintro _ hgroup _ -
    obtain ⟨_, _, rfl⟩ := List.mem_map.mp hgroup
    simp

/-! ## §4 Records -/

theorem tokenizers_recordsFrom (x : Setup) (words : Words) (i : Nat) (l : List State) :
    (recordsFrom x words i l).1.map StateRecord.tokenizers =
      l.map (tokenizerMask x.origins x.skips x.order) := by
  induction l generalizing words i with
  | nil => rfl
  | cons s l ih => exact congrArg (tokenizerMask x.origins x.skips x.order s :: ·) (ih _ _)

end Records

/-- Tables list the tokenizers in their order, and a mask over this list for every state. -/
theorem Assembly.tokenizers_of_tables {a : Assembly} {t : ParserTables} (h : a.tables = .ok t) :
    let order := Records.tokenizerOrder a.blueprint.decl a.groups.length
    t.tokenizers = order.map (Records.tokenizerRef a.blueprint.decl) ∧
      t.states.map StateRecord.tokenizers = a.automaton.toList.map
        (Records.tokenizerMask a.blueprint.draft.origins a.skips order) := by
  obtain ⟨forced, _, h⟩ := exists_ok_of_bind h
  obtain ⟨_, _, h⟩ := exists_ok_of_bind h
  obtain ⟨_, _, h⟩ := exists_ok_of_bind h
  obtain ⟨_, _, h⟩ := exists_ok_of_bind h
  cases h
  exact ⟨rfl, Records.tokenizers_recordsFrom (a.setup _ forced) _ _ _⟩

/-! ## §5 Builds -/

namespace Grammar

variable {g : Grammar} {s t : Term}

/-- A rule for a symbol has a first part that begins with a token. -/
def OpensWith (g : Grammar) (s t : Term) : Prop :=
  ∃ r ∈ g.rulesFor s, ∃ first rest, r.parts = first :: rest ∧ g.Begins [first] t

theorem OpensWith.begins (h : g.OpensWith s t) (hs : g.isTerminal s = false) : g.Begins [s] t := by
  obtain ⟨r, hr, first, rest, hparts, hfirst⟩ := h
  rw [begins_iff_rule hs]
  exact ⟨r, hr, hparts ▸ hfirst.append rest⟩

/-- If no first part can stand for nothing, nothing else comes first. -/
theorem opensWith_of_begins (hs : g.isTerminal s = false)
    (hfirst : ∀ r ∈ g.rulesFor s, ∀ first ∈ r.parts.head?, ¬ g.Becomes [first] [])
    (h : g.Begins [s] t) : g.OpensWith s t := by
  obtain ⟨r, hr, ht⟩ := (begins_iff_rule hs).mp h
  cases hparts : r.parts with
  | nil =>
    rw [hparts, begins_iff] at ht
    simp [FirstTable.beginnings, TermSet.contains_empty] at ht
  | cons first rest =>
    rw [hparts] at ht
    rcases begins_cons_iff.mp ht with ht | ⟨hnil, _⟩
    · exact ⟨r, hr, first, rest, hparts, ht⟩
    · exact absurd hnil (hfirst r hr first (by simp [hparts]))

end Grammar

theorem Blueprint.mem_starts_iff {b : Blueprint} {numbering : Numbering} {s t : Term}
    (hs : s ∈ b.draft.skipTerms) : t ∈ (b.skipping numbering).starts s ↔
      (b.wholeGrammar numbering).OpensWith s t := by
  rw [skipping, Skipping.starts_ofTerms hs]
  exact SkipEntry.mem_starts_ofTerm

/-- The automaton of a build is for the simplified rules of its blueprint. -/
theorem Compile.skips_of_assembly {b : Blueprint} {j j' : Journal} {a : Assembly}
    (h : assembly b j = .ok a j') :
    a.blueprint = b ∧ a.skips = b.skipping a.grammar.numbering := by
  obtain ⟨words, x, rfl, -⟩ := exists_stages h
  exact ⟨rfl, rfl⟩

namespace Blueprint

variable {b : Blueprint} {numbering : Numbering} {s : State}

theorem testBit_tokenizerMask (hs : s.skip ∈ b.draft.skipTerms)
    (order : List Records.TokenizerId) (i : Nat) :
    (Records.tokenizerMask b.draft.origins (b.skipping numbering) order s).testBit i = true ↔
      ∃ k id, order[k]? = some id ∧ k % 32 = i ∧
        s.InUse b.draft.origins (fun u => (b.wholeGrammar numbering).OpensWith s.skip u) id :=
  Records.testBit_tokenizerMask (fun _ => mem_starts_iff hs) i

/-- Masks of one word name what states use, up to tokens that are hidden in what is skipped. -/
theorem names_tokenizerMask_iff {source : Text.Source} {journal : Journal}
    (h : ofSource source = (.ok b, journal)) (hs : s.skip ∈ b.draft.skipTerms)
    {order : List Records.TokenizerId} (hle : order.length ≤ 32) :
    Records.Names (Records.tokenizerMask b.draft.origins (b.skipping numbering) order s) order
        (s.InUse b.draft.origins fun u => (b.wholeGrammar numbering).Begins [s.skip] u) ↔
      ∀ id ∈ order,
        s.InUse b.draft.origins (fun u => (b.wholeGrammar numbering).Begins [s.skip] u) id →
        s.InUse b.draft.origins (fun u => (b.wholeGrammar numbering).OpensWith s.skip u) id := by
  have hterminal : (b.wholeGrammar numbering).isTerminal s.skip = false :=
    isTerminal_of_mem_skipTerms h hs
  have hopened : Records.Names
      (Records.tokenizerMask b.draft.origins (b.skipping numbering) order s) order
      (s.InUse b.draft.origins fun u => (b.wholeGrammar numbering).OpensWith s.skip u) :=
    fun i => (testBit_tokenizerMask hs order i).trans (Records.exists_of_length_le hle i)
  exact hopened.iff_of_imp fun _ => State.InUse.mono fun _ hu => hu.begins hterminal

end Blueprint

/-- The list of tokenizers of a parser has every group of tokens and every external tokenizer once,
and no two of them share a bit exactly if there are at most 32. A bit in the record of a state is
set if it is the bit of a tokenizer that the state uses for its group, for a token that it has an
action for, or for one that the first part of a rule for what is skipped there begins with. With at
most 32 tokenizers the record names those that the state uses for anything that begins what is
skipped, exactly if this takes no further tokenizer: such a one is for tokens behind a first part
that can stand for nothing. -/
theorem compileTables_namesTokenizers {source : Text.Source} {t : ParserTables} {journal : Journal}
    (h : compileTables source = (.ok t, journal)) :
    ∃ b j a j', Blueprint.ofSource source = (.ok b, j) ∧ Compile.assembly b j = .ok a j' ∧
      a.tables = .ok t ∧
        let order := Records.tokenizerOrder b.decl a.groups.length
        t.tokenizers = order.map (Records.tokenizerRef b.decl) ∧ order.Nodup ∧
        (∀ id, .group id ∈ order ↔ id < a.groups.length) ∧
        (∀ i, .external i ∈ order ↔ i < b.decl.externalTokens.length) ∧
        (order.length ≤ 32 ↔ ∀ m < order.length, ∀ n < order.length,
          Records.tokenizerBit m = Records.tokenizerBit n → m = n) ∧
        t.states.length = a.automaton.size ∧ ∀ p < a.automaton.size,
          let g := b.wholeGrammar a.grammar.numbering
          let s := a.automaton.state p
          let opened := s.InUse b.draft.origins fun u => g.OpensWith s.skip u
          let used := s.InUse b.draft.origins fun u => g.Begins [s.skip] u
          ∃ r, t.states[p]? = some r ∧
            (∀ i, r.tokenizers.testBit i = true ↔
              ∃ k id, order[k]? = some id ∧ k % 32 = i ∧ opened id) ∧
            (order.length ≤ 32 → (Records.Names r.tokenizers order used ↔
              ∀ id ∈ order, used id → opened id)) := by
  obtain ⟨b, j, a, j', hsource, hassembly, htables⟩ := exists_assembly_of_compileTables h
  obtain ⟨rfl, hskips⟩ := Compile.skips_of_assembly hassembly
  obtain ⟨htokenizers, hmasks⟩ := Assembly.tokenizers_of_tables htables
  refine ⟨a.blueprint, j, a, j', hsource, hassembly, htables, htokenizers,
    Records.nodup_tokenizerOrder _ _, fun id => Records.group_mem_tokenizerOrder,
    fun i => Records.external_mem_tokenizerOrder, Records.tokenizerBit_injOn_iff _, ?_,
    fun p hp => ?_⟩
  · simpa using congrArg List.length hmasks
  · have hstate : a.automaton.toList[p]? = some (a.automaton.state p) := by
      rw [Automaton.state, Array.getElem?_toList, Array.getElem?_eq_getElem hp]
      rfl
    have hskip := Compile.skip_mem_of_assembly hsource hassembly _ (Array.mem_toList_iff.mp
      (List.mem_of_getElem? hstate))
    obtain ⟨r, hr, hmask⟩ : ∃ r, t.states[p]? = some r ∧ r.tokenizers = _ := by
      have hmask := congrArg (·[p]?) hmasks
      simpa [hstate] using hmask
    rw [hskips] at hmask
    refine ⟨r, hr, fun i => ?_, fun hle => ?_⟩
    · rw [hmask, Blueprint.testBit_tokenizerMask hskip]
    · rw [hmask, Blueprint.names_tokenizerMask_iff hsource hskip hle]

/-- A build up to its automaton passes a check. -/
def Compile.checksAssembly (source : Text.Source) (p : Blueprint → Assembly → Bool) : Bool :=
  match Blueprint.ofSource source with
  | (.ok b, j) =>
    match assembly b j with
    | .ok a _ => p b a
    | .error _ _ => false
  | (.error _, _) => false

theorem Compile.of_checksAssembly {source : Text.Source} {b : Blueprint} {a : Assembly}
    {j j' : Journal} {p : Blueprint → Assembly → Bool}
    (h : Blueprint.ofSource source = (.ok b, j)) (ha : assembly b j = .ok a j')
    (hcheck : checksAssembly source p = true) : p b a = true := by
  rw [checksAssembly, h] at hcheck
  dsimp only at hcheck
  rwa [ha] at hcheck

/-- A token, a case of a case of an external token, and another external token that can be
skipped. -/
def casesOfExternal : Text.Source :=
  ⟨"", "@top T \x7b \"x\" @specialize<@specialize<b, \"k\">, \"l\"> \x7d @skip \x7b c \x7d
    @external tokens s from \"\" \x7b b \x7d @external tokens t from \"\" \x7b c \x7d"⟩

/-- Where the case is read, all three tokenizers are in use. -/
theorem compileTables_namesTokenizers_cases : ∃ t journal b j a j',
    compileTables casesOfExternal = (.ok t, journal) ∧
      Blueprint.ofSource casesOfExternal = (.ok b, j) ∧ Compile.assembly b j = .ok a j' ∧
      t.tokenizers = [.group 0, .external ⟨"s", ""⟩, .external ⟨"t", ""⟩] ∧
      ⟨9⟩ ∈ (a.automaton.state 1).terms ∧ b.draft.origins.EndsIn 2 ⟨9⟩ ⟨2⟩ ∧
      b.draft.origins.get? ⟨2⟩ = some (.external 0) ∧
      ∃ r, t.states[1]? = some r ∧ r.tokenizers = 7 := by
  have hbuilds : (compileTables casesOfExternal).1.toOption.any (fun _ => true) = true := by
    decide +kernel
  obtain ⟨t, journal, h, -⟩ := exists_ok_fst_of_any hbuilds
  obtain ⟨b, j, a, j', hsource, hassembly, _, htokenizers, _, _, _, _, _, hstates⟩ :=
    compileTables_namesTokenizers h
  have hcheck := Compile.of_checksAssembly hsource hassembly (p := fun b a =>
    let s := a.automaton.state 1
    let g := b.wholeGrammar a.grammar.numbering
    decide ((b.decl.tokens.isNone = true ∧
        (b.decl.externalTokens.Pairwise fun d d' => d.start ≤ d'.start) ∧
        b.decl.externalTokens.map (fun d => d.ref) = [⟨"s", ""⟩, ⟨"t", ""⟩] ∧
        a.groups.length = 1) ∧
      (1 < a.automaton.size ∧ s.group = some 0 ∧ ⟨9⟩ ∈ s.terms) ∧
      (b.draft.origins.get? ⟨9⟩ = some (.specializes ⟨8⟩) ∧
        b.draft.origins.get? ⟨8⟩ = some (.specializes ⟨2⟩) ∧
        b.draft.origins.get? ⟨2⟩ = some (.external 0) ∧
        b.draft.origins.get? ⟨3⟩ = some (.external 1)) ∧
      g.isTerminal s.skip = false ∧
      (FirstTable.beginnings g (.ofGrammar g) .empty [s.skip]).contains ⟨3⟩ = true ∧
      ∀ r ∈ g.rulesFor s.skip, ∀ first ∈ r.parts.head?,
        FirstTable.vanishes g (.ofGrammar g) [first] = false)) (by decide +kernel)
  obtain ⟨⟨hnone, hordered, hrefs, hgroups⟩, ⟨hsize, hgroup, hterm⟩, ⟨hcase, hcase', hfrom, hfrom'⟩,
    hterminal, hskip, hfirst⟩ := of_decide_eq_true hcheck
  have hcount : b.decl.externalTokens.length = 2 := by simpa using congrArg List.length hrefs
  have horder : Records.tokenizerOrder b.decl a.groups.length =
      [.group 0, .external 0, .external 1] := by
    rw [Records.tokenizerOrder_of_tokens_eq_none (Option.isNone_iff_eq_none.mp hnone) hordered,
      hgroups, hcount]
    rfl
  have hends : b.draft.origins.EndsIn 2 ⟨9⟩ ⟨2⟩ :=
    .there hcase (.there hcase' (.here (by simp [hfrom])))
  obtain ⟨r, hr, _, hnames⟩ := hstates 1 hsize
  rw [horder] at htokenizers hnames
  have hnot : ∀ r ∈ (b.wholeGrammar a.grammar.numbering).rulesFor (a.automaton.state 1).skip,
      ∀ first ∈ r.parts.head?, ¬ (b.wholeGrammar a.grammar.numbering).Becomes [first] [] := by
    intro r hr first hhead hnil
    have hno := hfirst r hr first hhead
    rw [Grammar.becomes_nil_iff.mp hnil] at hno
    cases hno
  have hmask := (hnames (by decide)).mpr fun _ _ => State.InUse.mono fun _ =>
    Grammar.opensWith_of_begins hterminal hnot
  refine ⟨t, journal, b, j, a, j', h, hsource, hassembly, ?_, hterm, hends, hfrom, r, hr, ?_⟩
  · rw [htokenizers]
    simp [Records.tokenizerRef, ← List.getElem?_map, hrefs]
  · refine hmask.eq_of_forall ?_
    simp only [List.forall_mem_cons, List.not_mem_nil, false_implies, implies_true, and_true]
    exact ⟨hgroup, ⟨_, .inl hterm, _, _, hends, hfrom⟩,
      ⟨⟨3⟩, .inr (Grammar.begins_iff.mpr hskip), 0, ⟨3⟩, .here (by simp [hfrom']), hfrom'⟩⟩

/-- An external token that is skipped behind something optional. -/
def externalBehindOptional : Text.Source :=
  ⟨"", "@top T \x7b y \x7d @skip \x7b A e \x7d A \x7b x? \x7d
    @external tokens s from \"\" \x7b y \x7d @external tokens t from \"\" \x7b e \x7d
    @external tokens u from \"\" \x7b x \x7d"⟩

/-- Its grammar. -/
def externalBehindOptionalGrammar : Grammar where
  terms := ⟨#[{ name := "␄", kind := .terminal },
    { name := "⚠", kind := .nonterminal, nodeName := some "⚠", preserved := true },
    { name := "y", kind := .terminal }, { name := "e", kind := .terminal },
    { name := "x", kind := .terminal }, { name := "%noskip", kind := .nonterminal },
    { name := "%mainskip", kind := .nonterminal },
    { name := "A", kind := .nonterminal, nodeName := some "A" },
    { name := "@top", kind := .top, nodeName := some "T" }], [⟨8⟩]⟩
  numbering := ⟨[⟨1⟩, ⟨7⟩, ⟨8⟩, ⟨0⟩, ⟨2⟩, ⟨3⟩, ⟨4⟩, ⟨6⟩],
    #[some 3, some 0, some 4, some 5, some 6, none, some 7, some 1, some 2], 3, 3⟩
  rules := [
    ⟨⟨[], [.none]⟩, 0, ⟨7⟩, ⟨6⟩⟩,
    ⟨⟨[⟨4⟩], [.none, .none]⟩, 1, ⟨7⟩, ⟨6⟩⟩,
    ⟨⟨[⟨7⟩, ⟨3⟩], [.none, .none, .none]⟩, 2, ⟨6⟩, ⟨5⟩⟩,
    ⟨⟨[⟨2⟩], [.none, .none]⟩, 3, ⟨8⟩, ⟨6⟩⟩]

/-- What its build begins with: all tokens are external, and nothing is ranked. -/
def externalBehindOptionalBasis : Blueprint.Basis where
  grammar := externalBehindOptionalGrammar
  skips := ⟨[⟨⟨5⟩, [], false, []⟩, ⟨⟨6⟩, [], true, [⟨4⟩]⟩]⟩
  tops := [⟨8⟩]
  noSkip := ⟨5⟩
  origins := [(⟨4⟩, .external 2), (⟨3⟩, .external 1), (⟨2⟩, .external 0)]
  ranks := []
  conflicts := []
  tokens := ⟨#[⟨[], []⟩]⟩

/-- What its text is read as: the second tokenizer is for a token that what is skipped can
begin with. -/
theorem exists_blueprint_externalBehindOptional : ∃ b j,
    Blueprint.ofSource externalBehindOptional = (.ok b, j) ∧
      b.basis = .ok externalBehindOptionalBasis ∧ b.decl.dialects = none ∧
      b.draft.origins = [(⟨4⟩, .external 2), (⟨3⟩, .external 1), (⟨2⟩, .external 0)] ∧
      (b.wholeGrammar externalBehindOptionalGrammar.numbering).Begins [⟨6⟩] ⟨3⟩ ∧
      ∀ groupCount, Records.tokenizerOrder b.decl groupCount =
        (List.range groupCount).map .group ++ [.external 0, .external 1, .external 2] := by
  have hcheck : (Blueprint.ofSource externalBehindOptional).1.toOption.any (fun b =>
      b.basis.toOption.any fun x =>
        let g := b.wholeGrammar externalBehindOptionalGrammar.numbering
        decide (x = externalBehindOptionalBasis ∧ b.decl.dialects.isNone = true ∧
          b.draft.origins = [(⟨4⟩, .external 2), (⟨3⟩, .external 1), (⟨2⟩, .external 0)] ∧
          (FirstTable.beginnings g (.ofGrammar g) .empty [⟨6⟩]).contains ⟨3⟩ = true ∧
          b.decl.tokens.isNone = true ∧ b.decl.externalTokens.length = 3 ∧
          b.decl.externalTokens.Pairwise fun d d' => d.start ≤ d'.start)) = true := by
    decide +kernel
  obtain ⟨b, j, hsource, hcheck⟩ := exists_ok_fst_of_any hcheck
  obtain ⟨_, hbasis, hcheck⟩ := exists_ok_of_any hcheck
  obtain ⟨rfl, hdialects, horigins, hbegins, hnone, hcount, hordered⟩ := of_decide_eq_true hcheck
  rw [Option.isNone_iff_eq_none] at hdialects hnone
  refine ⟨b, j, hsource, hbasis, hdialects, horigins, Grammar.begins_iff.mpr hbegins,
    fun groupCount => ?_⟩
  rw [Records.tokenizerOrder_of_tokens_eq_none hnone hordered, hcount]
  rfl

/-- What comes of its build: no group of tokens, and a first state that reads the token of the first
tokenizer. -/
theorem exists_build_externalBehindOptional : ∃ b j a t,
    Blueprint.ofSource externalBehindOptional = (.ok b, j) ∧ b.build = .ok a ∧ a.tables = .ok t ∧
      Records.tokenizerOrder b.decl a.groups.length = [.external 0, .external 1, .external 2] ∧
      b.draft.origins = [(⟨4⟩, .external 2), (⟨3⟩, .external 1), (⟨2⟩, .external 0)] ∧
      (b.wholeGrammar a.grammar.numbering).Begins [⟨6⟩] ⟨3⟩ ∧ a.skips.starts ⟨6⟩ = [⟨4⟩] ∧
      0 < a.automaton.size ∧ (a.automaton.state 0).terms = [⟨2⟩] ∧
      (a.automaton.state 0).skip = ⟨6⟩ := by
  obtain ⟨b, j, hsource, hbasis, hdialects, horigins, hbegins, horder⟩ :=
    exists_blueprint_externalBehindOptional
  have hbuild : (externalBehindOptionalBasis.build b).toOption.any (fun a =>
      (a.grammar.numbering == externalBehindOptionalGrammar.numbering &&
        a.groups.isEmpty && a.skips.starts ⟨6⟩ == [⟨4⟩]) &&
      (a.automaton.size == 6 && (a.automaton.state 0).terms == [⟨2⟩] &&
        (a.automaton.state 0).skip == ⟨6⟩)) = true := by
    cbv
  have htables : (externalBehindOptionalBasis.build b >>= Assembly.tables).toOption.any
      (fun _ => true) = true := by
    obtain ⟨⟨_, _, _, _, _, _, _, _, _, _, _, dialects, _⟩, draft, ranks, conflicts⟩ := b
    obtain rfl : dialects = none := hdialects
    cbv
  rw [← Blueprint.build_eq_of_basis hbasis] at hbuild htables
  obtain ⟨a, hbuild, hstates⟩ := exists_ok_of_any hbuild
  obtain ⟨t, htables, -⟩ := exists_ok_of_any htables
  rw [hbuild] at htables
  simp only [Bool.and_eq_true, beq_iff_eq, List.isEmpty_iff] at hstates
  obtain ⟨⟨⟨hnumbering, hgroups⟩, hstarts⟩, ⟨hsize, hterms⟩, hskip⟩ := hstates
  refine ⟨b, j, a, t, hsource, hbuild, htables, ?_, horigins, hnumbering ▸ hbegins, hstarts,
    by omega, hterms, hskip⟩
  rw [horder, hgroups]
  rfl

/-- Every token comes from an external tokenizer of its own, at the place of its number. -/
def ownTokenizers (count : Nat) : TokenOrigins :=
  (List.range count).map fun i => (⟨i⟩, .external i)

/-- A state that reads one token. -/
def State.reading (t : Term) : State where
  items := []
  actions := [.shift t 0]
  gotos := []
  skip := .error
  start := none

/-- In the first state of that build the token of the first tokenizer is read. The second one is not
named in its record, although its token begins what can be skipped there. Where only the token at
place 32 of a list of 33 is read, the mask is the bit of the first place. -/
theorem Records.tokenizerMask_isInexact :
    (∃ t journal b j a j', compileTables externalBehindOptional = (.ok t, journal) ∧
      Blueprint.ofSource externalBehindOptional = (.ok b, j) ∧
      Compile.assembly b j = .ok a j' ∧ a.tables = .ok t ∧
      tokenizerOrder b.decl a.groups.length = [.external 0, .external 1, .external 2] ∧
      (a.automaton.state 0).terms = [⟨2⟩] ∧
      (b.wholeGrammar a.grammar.numbering).Begins [(a.automaton.state 0).skip] ⟨3⟩ ∧
      b.draft.origins.ComesFrom ⟨3⟩ 1 ∧ ∃ r, t.states[0]? = some r ∧ r.tokenizers = 5) ∧
    ¬ (State.reading ⟨32⟩).InUse (ownTokenizers 33) (fun _ => False) (.external 0) ∧
    tokenizerMask (ownTokenizers 33) ⟨[]⟩ ((List.range 33).map .external) (.reading ⟨32⟩) =
      tokenizerBit 0 := by
  constructor
  · obtain ⟨b, j, a, t, hsource, hbuild, htables, horder, horigins, hbegins, hstarts, hsize, hterms,
      hskip⟩ := exists_build_externalBehindOptional
    obtain ⟨journal, h⟩ := exists_compileTables hsource hbuild htables
    obtain ⟨j', hassembly⟩ :=
      Compile.outcome_eq_ok_iff.mp ((Compile.gives_assembly b j).trans hbuild)
    obtain ⟨rfl, -⟩ := Compile.skips_of_assembly hassembly
    have hstate : a.automaton.toList[0]? = some (a.automaton.state 0) := by
      rw [Automaton.state, Array.getElem?_toList, Array.getElem?_eq_getElem hsize]
      rfl
    obtain ⟨r, hr, hmask⟩ : ∃ r, t.states[0]? = some r ∧ r.tokenizers = _ := by
      have hmask := congrArg (·[0]?) (Assembly.tokenizers_of_tables htables).2
      simpa [hstate] using hmask
    refine ⟨t, journal, a.blueprint, j, a, j', h, hsource, hassembly, htables, horder, hterms,
      hskip ▸ hbegins, TokenOrigins.tokenizer?_eq_some_iff.mp (horigins ▸ by decide), r, hr, ?_⟩
    have hexternal : [⟨2⟩, ⟨4⟩].filterMap a.blueprint.draft.origins.tokenizer? = [0, 2] := by
      rw [horigins]
      decide
    rw [hmask, tokenizerMask, hskip, hterms, List.singleton_append, hstarts, hexternal, horder]
    simp [uses, tokenizerBit]
  · constructor
    · rintro ⟨t, ht, hfrom⟩
      obtain rfl : t = ⟨32⟩ := by simpa [State.reading, State.terms, Action.term] using ht
      rw [← TokenOrigins.tokenizer?_eq_some_iff] at hfrom
      exact absurd hfrom (by decide)
    · decide

end GrammarCompiler
