/-
GrammarCompiler.Proofs.Masking — the groups of tokens in the numbers of a
tokenizer.

The numbers list each token with its groups as bits. A bit is set if the token
is in that group, since terminals have numbers of their own. Tokens that are in
no group are listed with all of them.

  §1 Masks  — groups as bits, by the numbers of tokens.
  §2 Tokens — tokens that the main tokenizer reads.
  §3 Lists  — the tokens that the numbers of a tokenizer list.
  §4 Builds — the stages of a build that lead to these numbers.
  §5 States — what is read in states, and which groups look for it.
-/
import GrammarCompiler.Proofs.Decoding
import GrammarCompiler.Proofs.Overlapping
import GrammarCompiler.Proofs.Tabling

namespace GrammarCompiler

/-! ## §1 Masks -/

namespace TokenGroups

theorem testBit_or_one_shiftLeft (bits n k : Nat) :
    (bits ||| 1 <<< n).testBit k = true ↔ bits.testBit k = true ∨ n = k := by
  rw [Nat.testBit_or, Nat.one_shiftLeft, Nat.testBit_two_pow, Bool.or_eq_true, decide_eq_true_eq]

theorem testBit_foldl_modify (l : List (Nat × Nat)) (masks : Array Nat) (i k : Nat) :
    ((l.foldl (fun masks p => masks.modify p.1 fun bits => bits ||| 1 <<< p.2)
        masks)[i]?.getD 0).testBit k = true ↔
      (masks[i]?.getD 0).testBit k = true ∨ i < masks.size ∧ (i, k) ∈ l := by
  induction l generalizing masks with
  | nil => simp
  | cons p l ih =>
    obtain ⟨id, group⟩ := p
    have hfirst : ((masks.modify id fun bits => bits ||| 1 <<< group)[i]?.getD 0).testBit k =
          true ↔ (masks[i]?.getD 0).testBit k = true ∨ i < masks.size ∧ (i, k) = (id, group) := by
      rw [Array.getElem?_modify, Prod.mk.injEq]
      by_cases hi : id = i
      · subst hi
        by_cases hsize : id < masks.size
        · simp only [hsize, if_true, Array.getElem?_eq_getElem, Option.map_some, Option.getD_some,
            testBit_or_one_shiftLeft, true_and, eq_comm (a := k)]
        · simp [hsize]
      · simp [hi, Ne.symm hi]
    rw [List.foldl_cons, ih, hfirst, Array.size_modify, List.mem_cons]
    tauto

/-- The bits of a number are the groups of the tokens with this number. -/
theorem testBit_masks {g : Grammar} {groups : List (List Term)} {id k : Nat} :
    ((masks g groups)[id]?.getD 0).testBit k = true ↔
      id ≤ g.numbering.maxTerm ∧ ∃ t ∈ groups.getD k [], g.id t = id := by
  let entries := groups.zipIdx.flatMap fun p => p.1.map fun t => (g.id t, p.2)
  have hmasks : masks g groups =
      entries.foldl (fun masks p => masks.modify p.1 fun bits => bits ||| 1 <<< p.2)
        (Array.replicate (g.numbering.maxTerm + 1) 0) := by
    simp only [masks, entries, List.foldl_flatMap, List.foldl_map]
  have hentry : (id, k) ∈ entries ↔ ∃ t ∈ groups.getD k [], g.id t = id := by
    simp only [entries, List.mem_flatMap, List.mem_map, Prod.mk.injEq, Prod.exists,
      List.mem_zipIdx_iff_getElem?, List.getD_eq_getElem?_getD]
    constructor
    · rintro ⟨tokens, j, hj, t, ht, hid, rfl⟩
      exact ⟨t, by simpa [hj] using ht, hid⟩
    · rintro ⟨t, ht, hid⟩
      cases hk : groups[k]? with
      | none => simp [hk] at ht
      | some tokens => exact ⟨tokens, k, hk, t, by simpa [hk] using ht, hid, rfl⟩
  rw [hmasks, testBit_foldl_modify, hentry, Array.size_replicate, Nat.lt_succ_iff]
  simp [Array.getElem?_replicate]
  intro hzero
  split at hzero <;> simp at hzero

end TokenGroups

/-! ## §2 Tokens -/

section

variable {source : Text.Source} {b : Blueprint} {journal : Journal} {t : Term}
  (h : Blueprint.ofSource source = (.ok b, journal))
include h

/-- A token that the main tokenizer reads is no case of another one. -/
theorem Blueprint.Compiles.get?_eq_none (ht : b.Compiles t) : b.draft.origins.get? t = none := by
  rw [TokenOrigins.get?, List.lookup_eq_none_iff]
  intro p hp
  rw [bne_iff_ne]
  rintro rfl
  refine ht.notMem_foreignTerms h ?_
  exact List.mem_append_left _ (List.mem_append_left _ (List.mem_map_of_mem hp))

theorem Blueprint.Compiles.mainToken?_eq (ht : b.Compiles t) :
    b.draft.origins.mainToken? t = some t := by
  rw [TokenOrigins.mainToken?, ht.get?_eq_none h]

theorem Blueprint.Compiles.isToken (ht : b.Compiles t) : b.draft.terms.IsToken t := by
  obtain ⟨i, hi, rfl⟩ := ht
  refine (tidy_of_ofSource h).tokens _ ?_
  exact List.mem_append_left _ (List.mem_append_left _ (List.mem_map_of_mem hi))

end

/-! ## §3 Lists -/

namespace Layout

/-- In the numbers of a tokenizer, a walk for some group gets to a record that lists a token, by its
number, with these groups. -/
def Lists (words : List Nat) (id groups : Nat) : Prop :=
  ∃ group word address r, (∀ unit ∈ word, unit < 0x10000) ∧
    walkFrom? words group 0 word = some address ∧ record? words address = some r ∧
    (id, groups) ∈ r.tokens

/-- Each token is listed with the groups that there are for its number. -/
theorem Lists.eq_maskOf {a : Dfa} {ids : Term → Nat} {masks : Nat → Nat}
    {precedence words : List Nat} {id groups : Nat} (ha : a.IsSound)
    (h : a.toWords ids masks precedence = .ok words) (hlists : Lists words id groups) :
    groups = maskOf masks id := by
  obtain ⟨group, word, address, r, hword, hwalk, hr, hmem⟩ := hlists
  obtain ⟨place, hplace⟩ := exists_holds ha h
  rw [← hplace.start] at hwalk
  obtain ⟨i, _, hi, rfl⟩ :=
    hplace.run?_of_walkFrom? ha (mem_reachable_self ha.nonempty) hword hwalk
  rw [hplace.record i hi] at hr
  obtain rfl := Option.some.inj hr
  obtain ⟨id', _, heq⟩ := List.mem_map.mp hmem
  cases heq
  rfl

theorem testBit_maskOf {masks : Nat → Nat} {id k : Nat} :
    (maskOf masks id).testBit k = true ↔
      masks id = 0 ∧ k < 16 ∨ (masks id).testBit k = true := by
  rw [maskOf]
  by_cases hzero : masks id = 0
  · have hall : allGroups = 2 ^ 16 - 1 := rfl
    simp only [hzero, if_true, hall, Nat.testBit_two_pow_sub_one, decide_eq_true_eq, true_and,
      Nat.zero_testBit, Bool.false_eq_true, or_false]
  · simp [hzero]

end Layout

/-! ## §4 Builds -/

theorem Assembly.tokenData_eq {a : Assembly} {tables : ParserTables} (h : a.tables = .ok tables) :
    tables.tokenData = a.tokenData := by
  obtain ⟨_, _, h⟩ := exists_ok_of_bind h
  obtain ⟨_, _, h⟩ := exists_ok_of_bind h
  obtain ⟨_, _, h⟩ := exists_ok_of_bind h
  obtain ⟨_, _, h⟩ := exists_ok_of_bind h
  cases h
  rfl

/-- A build that succeeds goes through these stages. -/
theorem exists_tokenStages {source : Text.Source} {tables : ParserTables} {journal : Journal}
    (h : compileTables source = (.ok tables, journal)) :
    ∃ b j, Blueprint.ofSource source = (.ok b, j) ∧ Nonempty (b.TokenStages tables.tokenData) := by
  obtain ⟨b, j, a, j', hsource, hassembly, htables⟩ := exists_assembly_of_compileTables h
  obtain ⟨words, x, rfl, -⟩ := Compile.exists_stages hassembly
  rw [Assembly.tokenData_eq htables]
  exact ⟨b, j, hsource, ⟨x⟩⟩

/-! ## §5 States -/

namespace Blueprint.TokenStages

open Overlap (Among)

variable {b : Blueprint} {words : List Nat} (x : b.TokenStages words)

/-- The groups of a token as bits, as they are written. -/
def mask (t : Term) : Nat :=
  Layout.maskOf (fun id => (TokenGroups.masks x.grammar x.groups.groups)[id]?.getD 0)
    (x.numbering.id t)

/-- The tokens of a group. There are none in a group that is not there. -/
def group (k : Nat) : List Term :=
  x.groups.groups.getD k []

/-- A token is in one of the groups. -/
def IsGrouped (t : Term) : Prop :=
  ∃ k, t ∈ x.group k

/-- What the main tokenizer has to read in a state. -/
def wanted (s : State) : List Term :=
  TokenGroups.wanted b.draft.origins x.skips s

/-- A token has to be read in some state that reads tokens. -/
def IsRead (t : Term) : Prop :=
  ∃ s ∈ x.groups.states, s.defaultReduce = none ∧ t ∈ x.wanted s

variable {x}

theorem length_groups_le : x.groups.groups.length ≤ 16 :=
  (TokenGroups.separates_of_ofConflicts x.grouped).2.1

/-- No group holds two tokens that conflict. -/
theorem not_among {t u : Term} {k : Nat} (ht : t ∈ x.group k) (hu : u ∈ x.group k) :
    ¬ Among x.groups.hard t u := by
  obtain ⟨_, _, p, hp, _, _, hgroups⟩ := TokenGroups.separates_of_ofConflicts x.grouped
  rw [group, ← hgroups] at ht hu
  exact hp.apart k t ht u hu

/-- A token that is read in a state and has an opponent is in the group of the state, and the
opponent is not. -/
theorem served {s : State} (hs : s ∈ x.groups.states) (hdefault : s.defaultReduce = none)
    {t u : Term} (ht : t ∈ x.wanted s) (hamong : Among x.groups.hard t u) :
    ∃ k, s.group = some k ∧ t ∈ x.group k ∧ u ∉ x.group k := by
  obtain ⟨_, _, p, hp, _, hstates, hgroups⟩ := TokenGroups.separates_of_ofConflicts x.grouped
  obtain ⟨k, _, hgroup, hserved⟩ :=
    hp.served s (hstates ▸ hs) hdefault (List.ne_nil_of_mem ht)
  rw [hgroups] at hserved
  exact ⟨k, hgroup, hserved t ht u hamong⟩

/-- Tokens in groups have opponents, and they are read. -/
theorem IsGrouped.exists_among {t : Term} (ht : x.IsGrouped t) :
    (∃ u, Among x.groups.hard t u) ∧ x.IsRead t := by
  obtain ⟨_, _, p, _, hp, hstates, hgroups⟩ := TokenGroups.separates_of_ofConflicts x.grouped
  obtain ⟨k, hk⟩ := ht
  rw [group, ← hgroups] at hk
  obtain ⟨hopponent, s, hs, hdefault, hwanted⟩ := hp k t hk
  exact ⟨hopponent, s, hstates ▸ hs, hdefault, hwanted⟩

/-- A token that is read and has an opponent is in a group. -/
theorem IsRead.isGrouped {t u : Term} (ht : x.IsRead t) (hamong : Among x.groups.hard t u) :
    x.IsGrouped t := by
  obtain ⟨s, hs, hdefault, hwanted⟩ := ht
  obtain ⟨k, _, hmem, _⟩ := served hs hdefault hwanted hamong
  exact ⟨k, hmem⟩

theorem mask_of_lists {t : Term} {groups : Nat}
    (h : Layout.Lists words (x.numbering.id t) groups) : groups = x.mask t :=
  h.eq_maskOf (Dfa.isSound_minimize (Nfa.isSound_of_compile x.compiles)) x.written

section

variable {source : Text.Source} {journal : Journal}
  (h : Blueprint.ofSource source = (.ok b, journal))
include h

/-- The tokens of conflicts are tokens that the main tokenizer reads. -/
theorem compiles_of_among {t u : Term} (hamong : Among x.groups.hard t u) :
    b.Compiles t ∧ b.Compiles u := by
  obtain ⟨o, ho, hinvolves⟩ := hamong
  rw [(TokenGroups.separates_of_ofConflicts x.grouped).1] at ho
  exact (both_compiles_of_ofSource h x.compiles _ _ o (List.mem_of_mem_filter ho)).of_involves
    hinvolves

theorem eq_of_id {t u : Term} (ht : b.Compiles t) (hu : b.Compiles u)
    (hid : x.numbering.id t = x.numbering.id u) : t = u :=
  Numbering.id_inj_of_isTerminal x.numbered (ht.isToken h).isTerminal (hu.isToken h).isTerminal
    (ht.isToken h).lt_size (hu.isToken h).lt_size hid

/-- The groups that are written for a token are those that it is in, or all of them if it is in
none. -/
theorem testBit_mask {t : Term} (ht : b.Compiles t) (k : Nat) :
    (x.mask t).testBit k = true ↔ ¬ x.IsGrouped t ∧ k < 16 ∨ t ∈ x.group k := by
  have hbit (k : Nat) : ((TokenGroups.masks x.grammar x.groups.groups)[x.numbering.id
      t]?.getD 0).testBit k = true ↔ t ∈ x.group k := by
    rw [TokenGroups.testBit_masks]
    constructor
    · rintro ⟨_, u, hu, hid⟩
      have hgrouped : x.IsGrouped u := ⟨k, hu⟩
      obtain ⟨⟨v, hamong⟩, _⟩ := hgrouped.exists_among
      rwa [eq_of_id h ht (compiles_of_among h hamong).1 hid.symm]
    · intro hmem
      exact ⟨Numbering.id_le_maxTerm x.numbered t, t, hmem, rfl⟩
  have hzero : (TokenGroups.masks x.grammar x.groups.groups)[x.numbering.id t]?.getD 0 = 0 ↔
      ¬ x.IsGrouped t := by
    constructor
    · rintro hzero ⟨k, hmem⟩
      have hone := (hbit k).mpr hmem
      rw [hzero, Nat.zero_testBit] at hone
      cases hone
    · intro hnone
      apply Nat.eq_of_testBit_eq
      intro k
      rw [Nat.zero_testBit, Bool.eq_false_iff]
      intro hone
      exact hnone ⟨k, (hbit k).mp hone⟩
  rw [mask, Layout.testBit_maskOf, hzero, hbit]

end

end Blueprint.TokenStages

end GrammarCompiler
