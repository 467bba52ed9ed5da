/-
GrammarCompiler.Proofs.Enabling — which tokens are looked for in a state.

In a state the tokenizer looks for the tokens of the group of the state, and for
tokens that are in no group. What should be found there is in the group if it has
opponents. That takes care of conflicts between tokens that are read, as far as
overlaps do not make them soft, and of cases of tokens that are one step away from
what is read.

  §1 Declared  — conflicts that are declared.
  §2 Checks    — stages of a build that can be computed.
  §3 Opponents — tokens that are declared to conflict.
  §4 Cases     — tokens that are read for others.
  §5 Leftovers — tokens that are in no group.
-/
import GrammarCompiler.Proofs.Masking

namespace GrammarCompiler

open Draft (Silently)
open Overlap (Among)

/-! ## §1 Declared -/

/-- The token that an expression of a declaration is about. -/
def Draft.declaredToken? (d : Draft) (e : Expr) : Option Term :=
  (TokenKey.ofExpr? e).bind d.tokenFor?

theorem Draft.declaredToken?_eq {d d' : Draft} (h : d'.tokenInstances = d.tokenInstances) :
    d'.declaredToken? = d.declaredToken? := by
  funext e
  have hfor : d'.tokenFor? = d.tokenFor? := by
    funext key
    simp only [tokenFor?, h]
  rw [declaredToken?, declaredToken?, hfor]

/-- The conflicts of tokens that are declared. -/
def GrammarDecl.tokenConflicts (decl : GrammarDecl) : List TokenConflictDecl :=
  (decl.tokens.map TokensDecl.conflicts).getD []

namespace Build

variable {ctx : Declared} {d : Draft}

theorem yields_conflictToken_found (e : Expr) : Yields ctx d (conflictToken e) fun found d' =>
    Silently ctx.decl d d' ∧ found = d.declaredToken? e :=
  yields_get_bind (Yields.when (silently_warn _ _) fun _ hd₁ => yields_pure ⟨hd₁, rfl⟩)

theorem yields_readConflict_found (decl : TokenConflictDecl) : Yields ctx d (readConflict decl)
    fun found d' => Silently ctx.decl d d' ∧ ∀ t u, d.declaredToken? decl.first = some t →
      d.declaredToken? decl.second = some u → found = some (t, u) := by
  refine (yields_conflictToken_found _).bind fun first d₁ ⟨hd₁, hfirst⟩ => ?_
  refine (yields_conflictToken_found _).bind fun second d₂ ⟨hd₂, hsecond⟩ => yields_pure ?_
  refine ⟨trans_of (Silently ctx.decl) hd₁ hd₂, ?_⟩
  intro t u ht hu
  rw [Draft.declaredToken?_eq hd₁.sparesTokens.tokenInstances_eq, hu] at hsecond
  simp [hfirst, ht, hsecond]

theorem yields_readConflicts_found (decls : List TokenConflictDecl) : Yields ctx d
    (decls.mapM readConflict) fun found d' => Silently ctx.decl d d' ∧
      ∀ decl ∈ decls, ∀ t u, d.declaredToken? decl.first = some t →
        d.declaredToken? decl.second = some u → some (t, u) ∈ found := by
  induction decls generalizing d with
  | nil => exact yields_pure ⟨refl_of (Silently ctx.decl) d, by simp⟩
  | cons decl decls ih =>
    rw [List.mapM_cons]
    refine (yields_readConflict_found decl).bind fun first d₁ ⟨hd₁, hfirst⟩ => ?_
    refine ih.bind fun later d₂ ⟨hd₂, hlater⟩ => yields_pure ?_
    refine ⟨trans_of (Silently ctx.decl) hd₁ hd₂, ?_⟩
    rw [Draft.declaredToken?_eq hd₁.sparesTokens.tokenInstances_eq] at hlater
    intro decl' hdecl' t u ht hu
    rcases List.mem_cons.mp hdecl' with rfl | hdecl'
    · rw [hfirst t u ht hu]
      exact List.mem_cons_self
    · exact List.mem_cons_of_mem _ (hlater decl' hdecl' t u ht hu)

theorem yields_blueprint_declared (d : Draft) :
    Yields ctx d blueprint fun b _ => ∀ decl ∈ b.decl.tokenConflicts, ∀ t u,
      b.draft.declaredToken? decl.first = some t →
        b.draft.declaredToken? decl.second = some u → (t, u) ∈ b.conflicts := by
  have hany {α : Type} (m : Build α) (d : Draft) : Yields ctx d m fun _ _ => True :=
    fun _ _ _ => trivial
  refine yields_read_bind ((hany _ _).bind fun _ _ _ => (hany _ _).bind fun _ _ _ => ?_)
  refine (hany _ _).bind fun _ _ _ => (hany _ _).bind fun _ _ _ => (hany _ _).bind fun _ d₀ _ => ?_
  refine (yields_readConflicts_found _).bind fun found d₁ ⟨hd₁, hfound⟩ => ?_
  refine silently_defineGroups.yields.bind fun _ d₂ hd₂ => ?_
  refine yields_modify_bind (yields_get_bind (yields_pure ?_))
  intro decl hdecl t u ht hu
  have hsame := (trans_of (Silently ctx.decl) hd₁ hd₂).sparesTokens.tokenInstances_eq
  have heq (e : Expr) := congrFun (Draft.declaredToken?_eq hsame) e
  exact List.mem_filterMap.mpr
    ⟨_, hfound decl hdecl t u ((heq _).symm.trans ht) ((heq _).symm.trans hu), rfl⟩

end Build

theorem Blueprint.mem_conflicts {source : Text.Source} {b : Blueprint} {journal : Journal}
    (h : Blueprint.ofSource source = (.ok b, journal)) {decl : TokenConflictDecl}
    (hdecl : decl ∈ b.decl.tokenConflicts) {t u : Term}
    (ht : b.draft.declaredToken? decl.first = some t)
    (hu : b.draft.declaredToken? decl.second = some u) : (t, u) ∈ b.conflicts := by
  rw [ofSource] at h
  split at h
  next => cases h
  next decl hparse =>
    split at h
    next hrun =>
      cases h
      exact Build.yields_blueprint_declared {} b _ hrun _ hdecl t u ht hu
    next => cases h

/-! ## §2 Checks -/

/-- What is in the record that a walk gets to is listed. -/
theorem Layout.lists_of_any {words word : List Nat} {group id groups : Nat}
    (hword : ∀ unit ∈ word, unit < 0x10000)
    (h : ((walkFrom? words group 0 word).bind (record? words)).any
      (fun r => r.tokens.contains (id, groups)) = true) : Lists words id groups := by
  obtain ⟨r, hr, hmem⟩ := (Option.any_eq_true _ _).mp h
  obtain ⟨address, hwalk, hr⟩ := Option.bind_eq_some_iff.mp hr
  exact ⟨group, word, address, r, hword, hwalk, hr, List.contains_iff_mem.mp hmem⟩

namespace Blueprint

/-- Goes through the stages of a build and checks what is found. -/
def checksStages (source : Text.Source)
    (p : (b : Blueprint) → Numbering → Automaton → Dfa → TokenGroups → List Nat → Bool) : Bool :=
  ((do
    let b ← (ofSource source).1
    let numbering ← Numbering.ofRules b.draft.terms b.simplified
    let full ← fullAutomaton (b.prunedGrammar numbering)
      (FirstTable.ofGrammar (b.prunedGrammar numbering))
      (b.draft.terms.tops ++ (b.skipping numbering).withStates) b.draft.noSkip
    let compiled ← b.draft.tokens.compile Draft.tokenStart b.draft.terms
    let groups ← TokenGroups.ofAutomaton (b.prunedGrammar numbering) b.draft.origins
      (b.skipping numbering) b.ranks b.conflicts compiled.minimize full
    let precedence ← TokenRank.order (b.prunedGrammar numbering).name b.ranks groups.soft
    let words ← compiled.minimize.toWords numbering.id
      (fun id => (TokenGroups.masks (b.prunedGrammar numbering) groups.groups)[id]?.getD 0)
      (precedence.map numbering.id)
    return p b numbering full compiled groups words :
      Except BuildError Bool).toOption == some true)

theorem TokenStages.of_checksStages {source : Text.Source} {b : Blueprint} {journal : Journal}
    {words : List Nat} (h : ofSource source = (.ok b, journal)) (x : b.TokenStages words)
    {p : (b : Blueprint) → Numbering → Automaton → Dfa → TokenGroups → List Nat → Bool}
    (hcheck : checksStages source p = true) :
    p b x.numbering x.full x.compiled x.groups words = true := by
  rw [checksStages, h] at hcheck
  simp only [bind, Except.bind, x.numbered, x.built, x.compiles, x.grouped, x.ranked,
    x.written] at hcheck
  simpa [pure, Except.pure, Except.toOption] using hcheck

end Blueprint

/-! ## §3 Opponents -/

namespace Blueprint.TokenStages

variable {b : Blueprint} {words : List Nat} (x : b.TokenStages words)

/-- The overlaps of tokens that the analysis of the tokenizer finds. -/
def overlaps : List Overlap :=
  x.compiled.minimize.overlaps x.grammar.id
    (TokenGroups.together (TokenGroups.usage x.skips x.grammar.terms.size x.full))

variable {x}

theorem hard_eq : x.groups.hard =
    (TokenGroups.conflicts b.ranks b.conflicts x.overlaps).filter fun o => o.soft == 0 :=
  (TokenGroups.separates_of_ofConflicts x.grouped).1

/-- Tokens that are declared to conflict are kept apart, unless they overlap softly. -/
theorem among_of_declared {t u : Term} (h : (t, u) ∈ b.conflicts)
    (hsoft : ∀ o ∈ x.overlaps, o.involves t u = true →
      TokenGroups.isUnsettled b.ranks o = true → o.soft = 0) : Among x.groups.hard t u := by
  obtain ⟨o, ho, hinvolves⟩ : ∃ o ∈ TokenGroups.conflicts b.ranks b.conflicts x.overlaps,
      o.involves t u = true := TokenGroups.exists_mem_conflicts h
  have hzero : o.soft = 0 := by
    rcases TokenGroups.mem_or_of_mem_conflicts ho with ⟨hmem, hunsettled⟩ | ⟨hzero, _⟩
    · exact hsoft o hmem hinvolves hunsettled
    · exact hzero
  refine ⟨o, ?_, hinvolves⟩
  rw [hard_eq]
  exact List.mem_filter.mpr ⟨ho, beq_iff_eq.mpr hzero⟩

/-- A token that is usable where tokens are read. -/
def IsUsable (x : b.TokenStages words) (t : Term) : Prop :=
  ∃ s ∈ x.groups.states, s.defaultReduce = none ∧ t ∈ TokenGroups.usable x.skips s

theorem isUsable_of_any {t : Term} (h : x.groups.states.toList.any (fun s =>
    s.defaultReduce.isNone && (TokenGroups.usable x.skips s).contains t) = true) :
    x.IsUsable t := by
  obtain ⟨s, hs, hboth⟩ := List.any_eq_true.mp h
  obtain ⟨hdefault, hmem⟩ := (Bool.and_eq_true _ _).mp hboth
  exact ⟨s, Array.mem_toList_iff.mp hs, Option.isNone_iff_eq_none.mp hdefault,
    List.contains_iff_mem.mp hmem⟩

section

variable {source : Text.Source} {journal : Journal}
  (h : Blueprint.ofSource source = (.ok b, journal))
include h

theorem IsUsable.isRead {t : Term} (ht : x.IsUsable t) (hcompiles : b.Compiles t) : x.IsRead t := by
  obtain ⟨s, hs, hdefault, hmem⟩ := ht
  exact ⟨s, hs, hdefault, TokenGroups.mem_wanted.mpr ⟨t, hmem, hcompiles.mainToken?_eq h⟩⟩

/-- Tokens that are read and have opponents are looked for in their groups only. -/
theorem testBit_mask_of_among {t u : Term} (ht : x.IsRead t) (hamong : Among x.groups.hard t u)
    (k : Nat) : (x.mask t).testBit k = true ↔ t ∈ x.group k := by
  rw [testBit_mask h (compiles_of_among h hamong).1]
  simp [ht.isGrouped hamong]

/-- No group looks for two tokens that are read and conflict. -/
theorem mask_and_mask {t u : Term} (ht : x.IsRead t) (hu : x.IsRead u)
    (hamong : Among x.groups.hard t u) : x.mask t &&& x.mask u = 0 := by
  apply Nat.eq_of_testBit_eq
  intro k
  rw [Nat.testBit_and, Nat.zero_testBit, Bool.eq_false_iff, ne_eq, Bool.and_eq_true,
    testBit_mask_of_among h ht hamong, testBit_mask_of_among h hu hamong.symm]
  rintro ⟨htk, huk⟩
  exact not_among htk huk hamong

end

end Blueprint.TokenStages

/-- Two tokens that are declared to conflict are never looked for in the same group, if both are
usable where tokens are read and they do not overlap softly, unless they have a declared order. -/
theorem compileTables_separates_declared {source : Text.Source} {tables : ParserTables}
    {journal : Journal} (h : compileTables source = (.ok tables, journal)) :
    ∃ b j, ∃ x : b.TokenStages tables.tokenData, Blueprint.ofSource source = (.ok b, j) ∧
      ∀ decl ∈ b.decl.tokenConflicts, ∀ t u,
        b.draft.declaredToken? decl.first = some t → b.draft.declaredToken? decl.second = some u →
        (∀ o ∈ x.overlaps, o.involves t u = true →
          TokenGroups.isUnsettled b.ranks o = true → o.soft = 0) →
        x.IsUsable t → x.IsUsable u →
        ∀ m n, Layout.Lists tables.tokenData (x.numbering.id t) m →
          Layout.Lists tables.tokenData (x.numbering.id u) n → m &&& n = 0 := by
  obtain ⟨b, j, hsource, ⟨x⟩⟩ := exists_tokenStages h
  refine ⟨b, j, x, hsource, ?_⟩
  intro decl hdecl t u ht hu hsoft husable husable' m n hm hn
  have hmem : (t, u) ∈ b.conflicts := Blueprint.mem_conflicts hsource hdecl ht hu
  obtain ⟨hcompiles, hcompiles'⟩ := Blueprint.compiles_of_mem_conflicts hsource hmem
  rw [x.mask_of_lists hm, x.mask_of_lists hn]
  exact x.mask_and_mask hsource (husable.isRead hsource hcompiles)
    (husable'.isRead hsource hcompiles') (x.among_of_declared hmem hsoft)

/-- Two tokens that are declared to conflict. One follows the other. -/
def conflictInTurn : Text.Source :=
  ⟨"", "@top T \x7b \"a\" \"b\" \x7d " ++
    "@tokens \x7b \"a\" \"b\" @conflict \x7b \"a\", \"b\" \x7d \x7d"⟩

/-- One of the tokens is looked for in the first group, and the other one in the second. -/
theorem compileTables_separates_declared_inTurn : ∃ tables journal, ∃ b : Blueprint,
    compileTables conflictInTurn = (.ok tables, journal) ∧ ∃ x : b.TokenStages tables.tokenData,
      ∃ decl ∈ b.decl.tokenConflicts, ∃ t u,
        b.draft.declaredToken? decl.first = some t ∧ b.draft.declaredToken? decl.second = some u ∧
        Layout.Lists tables.tokenData (x.numbering.id t) 1 ∧
        Layout.Lists tables.tokenData (x.numbering.id u) 2 ∧ 1 &&& 2 = 0 := by
  have hbuilds : (compileTables conflictInTurn).1.toOption.any (fun _ => true) = true := by
    decide +kernel
  obtain ⟨tables, journal, h, -⟩ := exists_ok_fst_of_any hbuilds
  obtain ⟨b, j, x, hsource, hseparates⟩ := compileTables_separates_declared h
  have hcheck := x.of_checksStages hsource (p := fun b numbering full compiled groups words =>
    let g := b.prunedGrammar numbering
    let skips := b.skipping numbering
    decide ((∃ decl ∈ b.decl.tokenConflicts, b.draft.declaredToken? decl.first = some ⟨4⟩ ∧
        b.draft.declaredToken? decl.second = some ⟨5⟩) ∧
      (∀ o ∈ compiled.minimize.overlaps g.id (TokenGroups.together
        (TokenGroups.usage skips g.terms.size full)), o.soft = 0) ∧
      (∀ t ∈ [(⟨4⟩ : Term), ⟨5⟩], groups.states.toList.any (fun s =>
        s.defaultReduce.isNone && (TokenGroups.usable skips s).contains t) = true) ∧
      ((Layout.walkFrom? words 0 0 [0x61]).bind (Layout.record? words)).any
        (fun r => r.tokens.contains (numbering.id ⟨4⟩, 1)) = true ∧
      ((Layout.walkFrom? words 1 0 [0x62]).bind (Layout.record? words)).any
        (fun r => r.tokens.contains (numbering.id ⟨5⟩, 2)) = true)) (by decide +kernel)
  obtain ⟨⟨decl, hdecl, ht, hu⟩, hsoft, husable, hone, htwo⟩ := of_decide_eq_true hcheck
  have hlists := Layout.lists_of_any (by decide) hone
  have hlists' := Layout.lists_of_any (by decide) htwo
  refine ⟨tables, journal, b, h, x, decl, hdecl, ⟨4⟩, ⟨5⟩, ht, hu, hlists, hlists', ?_⟩
  exact hseparates decl hdecl _ _ ht hu (fun o ho _ _ => hsoft o ho)
    (x.isUsable_of_any (husable _ (by simp))) (x.isUsable_of_any (husable _ (by simp)))
    1 2 hlists hlists'

/-- Two tokens that are declared to conflict, and overlap softly. One of them can be skipped. -/
def conflictOfSkipped : Text.Source :=
  ⟨"", "@top T \x7b \"a\" \x7d @skip \x7b \"ab\" \x7d " ++
    "@tokens \x7b \"a\" \"ab\" @conflict \x7b \"a\", \"ab\" \x7d \x7d"⟩

/-- The soft overlap takes the place of the declared conflict, and every group looks for both
tokens. -/
theorem compileTables_joins_declared : ∃ tables journal b j,
    compileTables conflictOfSkipped = (.ok tables, journal) ∧
    Blueprint.ofSource conflictOfSkipped = (.ok b, j) ∧ ∃ x : b.TokenStages tables.tokenData,
      ∃ decl ∈ b.decl.tokenConflicts, ∃ t u,
        b.draft.declaredToken? decl.first = some t ∧ b.draft.declaredToken? decl.second = some u ∧
        t ≠ u ∧ b.Compiles t ∧ b.Compiles u ∧ x.IsUsable t ∧ x.IsUsable u ∧
        Layout.Lists tables.tokenData (x.numbering.id t) 0xffff ∧
        Layout.Lists tables.tokenData (x.numbering.id u) 0xffff := by
  have hbuilds : (compileTables conflictOfSkipped).1.toOption.any (fun _ => true) = true := by
    decide +kernel
  obtain ⟨tables, journal, h, -⟩ := exists_ok_fst_of_any hbuilds
  obtain ⟨b, j, hsource, ⟨x⟩⟩ := exists_tokenStages h
  have hcheck := x.of_checksStages hsource (p := fun b numbering _ _ groups words =>
    decide ((∃ decl ∈ b.decl.tokenConflicts, b.draft.declaredToken? decl.first = some ⟨6⟩ ∧
        b.draft.declaredToken? decl.second = some ⟨4⟩) ∧
      (∀ t ∈ [(⟨4⟩ : Term), ⟨6⟩], groups.states.toList.any (fun s => s.defaultReduce.isNone &&
        (TokenGroups.usable (b.skipping numbering) s).contains t) = true) ∧
      ((Layout.walkFrom? words 0 0 [0x61]).bind (Layout.record? words)).any
        (fun r => r.tokens.contains (numbering.id ⟨6⟩, 0xffff)) = true ∧
      ((Layout.walkFrom? words 0 0 [0x61, 0x62]).bind (Layout.record? words)).any
        (fun r => r.tokens.contains (numbering.id ⟨4⟩, 0xffff)) = true)) (by decide +kernel)
  obtain ⟨⟨decl, hdecl, ht, hu⟩, husable, hfirst, hsecond⟩ := of_decide_eq_true hcheck
  obtain ⟨hcompiles, hcompiles'⟩ :=
    Blueprint.compiles_of_mem_conflicts hsource (Blueprint.mem_conflicts hsource hdecl ht hu)
  exact ⟨tables, journal, b, j, h, hsource, x, decl, hdecl, ⟨6⟩, ⟨4⟩, ht, hu, by decide, hcompiles,
    hcompiles', x.isUsable_of_any (husable _ (by simp)), x.isUsable_of_any (husable _ (by simp)),
    Layout.lists_of_any (by decide) hfirst, Layout.lists_of_any (by decide) hsecond⟩

/-! ## §4 Cases -/

namespace TokenOrigins

/-- Following what a token is a case of leads to another one in so many steps, and that one is no
case of any token. -/
inductive EndsIn (origins : TokenOrigins) : Nat → Term → Term → Prop where
  | here {t : Term} (h : ∀ base, origins.get? t ≠ some (.specializes base)) : EndsIn origins 0 t t
  | there {n : Nat} {t base u : Term} (h : origins.get? t = some (.specializes base))
      (rest : EndsIn origins n base u) : EndsIn origins (n + 1) t u

/-- One step is what is followed to see what the main tokenizer reads. -/
theorem EndsIn.mainToken?_eq {origins : TokenOrigins} {n : Nat} {t u : Term}
    (h : EndsIn origins n t u) (hn : n ≤ 1) (hu : origins.get? u = none) :
    origins.mainToken? t = some u := by
  cases h with
  | here => rw [mainToken?, hu]
  | there h rest =>
    cases rest with
    | here => rw [mainToken?, h]
    | there => omega

end TokenOrigins

/-- States are built without groups. -/
theorem Built.group_eq_none {g : Grammar} {table : FirstTable} {noSkip : Term} {starts : List Term}
    {a : Automaton} {seeds : Array Seed} (hb : Built g table noSkip starts a seeds) {s : State}
    (hs : s ∈ a) : s.group = none := by
  obtain ⟨p, hp, rfl⟩ := Array.mem_iff_getElem.mp hs
  obtain ⟨seed, st, _, ⟨s₁, s₂, hread⟩, heq⟩ := hb.isRead p hp
  obtain ⟨_, _, hread⟩ := exists_ok_of_bind hread
  cases hread
  have hstate : a.state p = a[p] := by
    rw [Automaton.state, Array.getElem?_eq_getElem hp, Option.getD_some]
  rw [← hstate, heq]
  rfl

namespace Blueprint.TokenStages

variable {b : Blueprint} {words : List Nat} {x : b.TokenStages words}

/-- States with groups read tokens. -/
theorem defaultReduce_of_group {s : State} (hs : s ∈ x.groups.states) {k : Nat}
    (hk : s.group = some k) : s.defaultReduce = none ∧ k < 16 := by
  obtain ⟨seeds, hb⟩ := fullAutomaton_built x.built
  obtain ⟨hdefault, hlt⟩ :=
    TokenGroups.seats_of_ofConflicts (fun s hs => hb.group_eq_none hs) x.grouped hs hk
  exact ⟨hdefault, Nat.lt_of_lt_of_le hlt x.length_groups_le⟩

section

variable {source : Text.Source} {journal : Journal}
  (h : Blueprint.ofSource source = (.ok b, journal))
include h

/-- A token that a state reads is looked for in the group of the state. -/
theorem testBit_mask_of_wanted {s : State} (hs : s ∈ x.groups.states) {k : Nat}
    (hk : s.group = some k) {t : Term} (ht : t ∈ x.wanted s) (hcompiles : b.Compiles t) :
    (x.mask t).testBit k = true := by
  obtain ⟨hdefault, hlt⟩ := x.defaultReduce_of_group hs hk
  rw [testBit_mask h hcompiles]
  by_cases hgrouped : x.IsGrouped t
  · obtain ⟨⟨u, hamong⟩, _⟩ := hgrouped.exists_among
    obtain ⟨k', hk', hmem, _⟩ := served hs hdefault ht hamong
    rw [hk] at hk'
    cases hk'
    exact .inr hmem
  · exact .inl ⟨hgrouped, hlt⟩

/-- A token without opponents is looked for in all groups. -/
theorem testBit_mask_of_no_among {t : Term} (hcompiles : b.Compiles t)
    (hnone : ∀ u, ¬ Among x.groups.hard t u) {k : Nat} (hk : k < 16) :
    (x.mask t).testBit k = true := by
  rw [testBit_mask h hcompiles]
  refine .inl ⟨?_, hk⟩
  intro hgrouped
  obtain ⟨⟨u, hamong⟩, _⟩ := hgrouped.exists_among
  exact hnone u hamong

end

end Blueprint.TokenStages

/-- In a state that has a group, this group looks for the tokens that are usable there, and for
those that they are cases of. A token that is reached by more than one step has to be without
opponents. -/
theorem compileTables_enables_usable {source : Text.Source} {tables : ParserTables}
    {journal : Journal} (h : compileTables source = (.ok tables, journal)) :
    ∃ b j, ∃ x : b.TokenStages tables.tokenData, Blueprint.ofSource source = (.ok b, j) ∧
      ∀ s ∈ x.groups.states, ∀ k, s.group = some k → ∀ t ∈ TokenGroups.usable x.skips s,
        ∀ n u, b.draft.origins.EndsIn n t u → b.Compiles u →
          (n ≤ 1 ∨ ∀ v, ¬ Among x.groups.hard u v) →
          ∀ m, Layout.Lists tables.tokenData (x.numbering.id u) m → m.testBit k = true := by
  obtain ⟨b, j, hsource, ⟨x⟩⟩ := exists_tokenStages h
  refine ⟨b, j, x, hsource, ?_⟩
  intro s hs k hk t ht n u hends hcompiles hcase m hm
  rw [x.mask_of_lists hm]
  rcases hcase with hn | hnone
  · have hwanted : u ∈ x.wanted s := TokenGroups.mem_wanted.mpr
      ⟨t, ht, hends.mainToken?_eq hn (hcompiles.get?_eq_none hsource)⟩
    exact x.testBit_mask_of_wanted hsource hs hk hwanted hcompiles
  · exact x.testBit_mask_of_no_among hsource hcompiles hnone (x.defaultReduce_of_group hs hk).2

/-- A token, a case of another one, and a third token. The first two overlap. -/
def caseInTurn : Text.Source :=
  ⟨"", "@top T \x7b \"ab\" @specialize<\"a\", \"a\"> \"c\" \x7d"⟩

/-- The case is read in the second state, and the token that it is a case of is looked for
there. -/
theorem compileTables_enables_usable_case : ∃ tables journal, ∃ b : Blueprint,
    compileTables caseInTurn = (.ok tables, journal) ∧ ∃ x : b.TokenStages tables.tokenData,
      ∃ s ∈ x.groups.states, s.group = some 1 ∧ ∃ t ∈ TokenGroups.usable x.skips s, ∃ u,
        b.draft.origins.EndsIn 1 t u ∧ b.Compiles u ∧
        Layout.Lists tables.tokenData (x.numbering.id u) 2 ∧ Nat.testBit 2 1 = true := by
  have hbuilds : (compileTables caseInTurn).1.toOption.any (fun _ => true) = true := by
    decide +kernel
  obtain ⟨tables, journal, h, -⟩ := exists_ok_fst_of_any hbuilds
  obtain ⟨b, j, x, hsource, henables⟩ := compileTables_enables_usable h
  have hcheck := x.of_checksStages hsource (p := fun b numbering _ _ groups words =>
    decide ((∃ s ∈ groups.states.toList, s.group = some 1 ∧
        ⟨6⟩ ∈ TokenGroups.usable (b.skipping numbering) s) ∧
      b.draft.origins.get? ⟨6⟩ = some (.specializes ⟨5⟩) ∧ b.draft.origins.get? ⟨5⟩ = none ∧
      (∃ i ∈ b.draft.tokenInstances, i.term = ⟨5⟩) ∧
      ((Layout.walkFrom? words 1 0 [0x61]).bind (Layout.record? words)).any
        (fun r => r.tokens.contains (numbering.id ⟨5⟩, 2)) = true)) (by decide +kernel)
  obtain ⟨⟨s, hs, hgroup, hmem⟩, hcase, hbase, hcompiles, hlisted⟩ := of_decide_eq_true hcheck
  have hends : b.draft.origins.EndsIn 1 ⟨6⟩ ⟨5⟩ := .there hcase (.here (by simp [hbase]))
  have hlists := Layout.lists_of_any (by decide) hlisted
  have hs := Array.mem_toList_iff.mp hs
  refine ⟨tables, journal, b, h, x, s, hs, hgroup, ⟨6⟩, hmem, ⟨5⟩, hends, hcompiles, hlists, ?_⟩
  exact henables s hs 1 hgroup _ hmem 1 _ hends hcompiles (.inl le_rfl) 2 hlists

/-- A token, a case of a case of another one, and this one. The two overlap. -/
def caseOfCase : Text.Source :=
  ⟨"", "@top T \x7b \"ab\" @specialize<@specialize<\"a\", \"a\">, \"a\"> \"a\" \x7d"⟩

/-- The case of a case is read in a state of the first group, but the token that it goes back to is
not looked for there. -/
theorem compileTables_misses_caseOfCase : ∃ tables journal b j,
    compileTables caseOfCase = (.ok tables, journal) ∧
    Blueprint.ofSource caseOfCase = (.ok b, j) ∧ ∃ x : b.TokenStages tables.tokenData,
      ∃ s ∈ x.groups.states, s.group = some 0 ∧ ∃ t ∈ TokenGroups.usable x.skips s, ∃ u,
        b.draft.origins.EndsIn 2 t u ∧ b.Compiles u ∧
        Layout.Lists tables.tokenData (x.numbering.id u) 2 ∧ Nat.testBit 2 0 = false := by
  have hbuilds : (compileTables caseOfCase).1.toOption.any (fun _ => true) = true := by
    decide +kernel
  obtain ⟨tables, journal, h, -⟩ := exists_ok_fst_of_any hbuilds
  obtain ⟨b, j, hsource, ⟨x⟩⟩ := exists_tokenStages h
  have hcheck := x.of_checksStages hsource (p := fun b numbering _ _ groups words =>
    decide ((∃ s ∈ groups.states.toList, s.group = some 0 ∧
        ⟨7⟩ ∈ TokenGroups.usable (b.skipping numbering) s) ∧
      b.draft.origins.get? ⟨7⟩ = some (.specializes ⟨6⟩) ∧
      b.draft.origins.get? ⟨6⟩ = some (.specializes ⟨5⟩) ∧ b.draft.origins.get? ⟨5⟩ = none ∧
      (∃ i ∈ b.draft.tokenInstances, i.term = ⟨5⟩) ∧
      ((Layout.walkFrom? words 1 0 [0x61]).bind (Layout.record? words)).any
        (fun r => r.tokens.contains (numbering.id ⟨5⟩, 2)) = true)) (by decide +kernel)
  obtain ⟨⟨s, hs, hgroup, hmem⟩, hcase, hcase', hbase, hcompiles, hlisted⟩ :=
    of_decide_eq_true hcheck
  have hends : b.draft.origins.EndsIn 2 ⟨7⟩ ⟨5⟩ :=
    .there hcase (.there hcase' (.here (by simp [hbase])))
  exact ⟨tables, journal, b, j, h, hsource, x, s, Array.mem_toList_iff.mp hs, hgroup, ⟨7⟩, hmem,
    ⟨5⟩, hends, hcompiles, Layout.lists_of_any (by decide) hlisted, by decide⟩

/-! ## §5 Leftovers -/

namespace Blueprint.TokenStages

variable {b : Blueprint} {words : List Nat} {x : b.TokenStages words}

theorem IsGrouped.exists_mem {t : Term} (ht : x.IsGrouped t) :
    ∃ tokens ∈ x.groups.groups, t ∈ tokens := by
  obtain ⟨k, hk⟩ := ht
  rw [group, List.getD_eq_getElem?_getD] at hk
  cases htokens : x.groups.groups[k]? with
  | none => simp [htokens] at hk
  | some tokens =>
    rw [htokens, Option.getD_some] at hk
    exact ⟨tokens, List.mem_of_getElem? htokens, hk⟩

variable {source : Text.Source} {journal : Journal}
  (h : Blueprint.ofSource source = (.ok b, journal))
include h

/-- In the group of a state that reads a token, an opponent of it is looked for only if it is read
nowhere at all. -/
theorem testBit_mask_iff_not_isRead {s : State} (hs : s ∈ x.groups.states) {k : Nat}
    (hk : s.group = some k) {t u : Term} (ht : t ∈ x.wanted s)
    (hamong : Among x.groups.hard t u) : (x.mask u).testBit k = true ↔ ¬ x.IsRead u := by
  obtain ⟨hdefault, hlt⟩ := x.defaultReduce_of_group hs hk
  obtain ⟨k', hk', _, hnot⟩ := served hs hdefault ht hamong
  rw [hk] at hk'
  cases hk'
  rw [testBit_mask h (compiles_of_among h hamong).2]
  constructor
  · rintro (⟨hgrouped, _⟩ | hmem) hread
    · exact hgrouped (hread.isGrouped hamong.symm)
    · exact hnot hmem
  · intro hread
    refine .inl ⟨?_, hlt⟩
    intro hgrouped
    exact hread hgrouped.exists_among.2

end Blueprint.TokenStages

/-- A token in no group has no opponents, if it is read in some state; it is looked for in all
groups. In a state that has a group, an opponent of a token that is read there is looked for exactly
if it is read nowhere at all. -/
theorem compileTables_leftovers {source : Text.Source} {tables : ParserTables}
    {journal : Journal} (h : compileTables source = (.ok tables, journal)) :
    ∃ b j, ∃ x : b.TokenStages tables.tokenData, Blueprint.ofSource source = (.ok b, j) ∧
      (∀ t, b.Compiles t → ¬ x.IsGrouped t →
        (∀ m, Layout.Lists tables.tokenData (x.numbering.id t) m → ∀ k < 16, m.testBit k = true) ∧
        (x.IsRead t → ∀ u, ¬ Among x.groups.hard t u)) ∧
      ∀ s ∈ x.groups.states, ∀ k, s.group = some k → ∀ t ∈ x.wanted s, ∀ u,
        Among x.groups.hard t u → ∀ m, Layout.Lists tables.tokenData (x.numbering.id u) m →
          (m.testBit k = true ↔ ¬ x.IsRead u) := by
  obtain ⟨b, j, hsource, ⟨x⟩⟩ := exists_tokenStages h
  refine ⟨b, j, x, hsource, ?_, ?_⟩
  · intro t ht hgrouped
    constructor
    · intro m hm k hk
      rw [x.mask_of_lists hm, x.testBit_mask hsource ht]
      exact .inl ⟨hgrouped, hk⟩
    · intro hread u hamong
      exact hgrouped (hread.isGrouped hamong)
  · intro s hs k hk t ht u hamong m hm
    rw [x.mask_of_lists hm]
    exact x.testBit_mask_iff_not_isRead hsource hs hk ht hamong

/-- With two conflicting tokens that are both read, the group of the first state does not look for
the second token. -/
theorem compileTables_leftovers_inTurn : ∃ tables journal, ∃ b : Blueprint,
    compileTables conflictInTurn = (.ok tables, journal) ∧ ∃ x : b.TokenStages tables.tokenData,
      ∃ s ∈ x.groups.states, s.group = some 0 ∧ ∃ t ∈ x.wanted s, ∃ u,
        Among x.groups.hard t u ∧ Layout.Lists tables.tokenData (x.numbering.id u) 2 ∧
        (Nat.testBit 2 0 = true ↔ ¬ x.IsRead u) := by
  have hbuilds : (compileTables conflictInTurn).1.toOption.any (fun _ => true) = true := by
    decide +kernel
  obtain ⟨tables, journal, h, -⟩ := exists_ok_fst_of_any hbuilds
  obtain ⟨b, j, x, hsource, -, hleftovers⟩ := compileTables_leftovers h
  have hcheck := x.of_checksStages hsource (p := fun b numbering _ _ groups words =>
    decide ((∃ s ∈ groups.states.toList, s.group = some 0 ∧
        ⟨4⟩ ∈ TokenGroups.wanted b.draft.origins (b.skipping numbering) s) ∧
      (∃ o ∈ groups.hard, o.involves ⟨4⟩ ⟨5⟩ = true) ∧
      ((Layout.walkFrom? words 1 0 [0x62]).bind (Layout.record? words)).any
        (fun r => r.tokens.contains (numbering.id ⟨5⟩, 2)) = true)) (by decide +kernel)
  obtain ⟨⟨s, hs, hgroup, hmem⟩, hamong, hlisted⟩ := of_decide_eq_true hcheck
  have hlists := Layout.lists_of_any (by decide) hlisted
  have hs := Array.mem_toList_iff.mp hs
  refine ⟨tables, journal, b, h, x, s, hs, hgroup, ⟨4⟩, hmem, ⟨5⟩, hamong, hlists, ?_⟩
  exact hleftovers s hs 0 hgroup _ hmem _ hamong 2 hlists

/-- A token, and a rule that is exported but not used, with another token. The two overlap. -/
def strayToken : Text.Source :=
  ⟨"", "@top T \x7b \"a\" \x7d foo[@export] \x7b \"ab\" \x7d"⟩

/-- The token of the unused rule is in no group. So it is looked for in the state that reads the
other one, its opponent. -/
theorem compileTables_keeps_stray : ∃ tables journal b j,
    compileTables strayToken = (.ok tables, journal) ∧
    Blueprint.ofSource strayToken = (.ok b, j) ∧ ∃ x : b.TokenStages tables.tokenData,
      ∃ t u, b.Compiles u ∧ ¬ x.IsGrouped u ∧ Among x.groups.hard t u ∧ x.IsUsable t ∧
        Layout.Lists tables.tokenData (x.numbering.id u) 0xffff ∧
        ∃ s ∈ x.groups.states, s.group = some 0 ∧ t ∈ x.wanted s ∧
          Layout.Lists tables.tokenData (x.numbering.id t) 1 := by
  have hbuilds : (compileTables strayToken).1.toOption.any (fun _ => true) = true := by
    decide +kernel
  obtain ⟨tables, journal, h, -⟩ := exists_ok_fst_of_any hbuilds
  obtain ⟨b, j, hsource, ⟨x⟩⟩ := exists_tokenStages h
  have hcheck := x.of_checksStages hsource (p := fun b numbering _ _ groups words =>
    decide ((∃ i ∈ b.draft.tokenInstances, i.term = ⟨6⟩) ∧
      (∀ tokens ∈ groups.groups, ⟨6⟩ ∉ tokens) ∧ (∃ o ∈ groups.hard, o.involves ⟨4⟩ ⟨6⟩ = true) ∧
      groups.states.toList.any (fun s => s.defaultReduce.isNone &&
        (TokenGroups.usable (b.skipping numbering) s).contains ⟨4⟩) = true ∧
      (∃ s ∈ groups.states.toList, s.group = some 0 ∧
        ⟨4⟩ ∈ TokenGroups.wanted b.draft.origins (b.skipping numbering) s) ∧
      ((Layout.walkFrom? words 0 0 [0x61]).bind (Layout.record? words)).any
        (fun r => r.tokens.contains (numbering.id ⟨4⟩, 1)) = true ∧
      ((Layout.walkFrom? words 0 0 [0x61, 0x62]).bind (Layout.record? words)).any
        (fun r => r.tokens.contains (numbering.id ⟨6⟩, 0xffff)) = true)) (by decide +kernel)
  obtain ⟨hcompiles, hnone, hamong, husable, ⟨s, hs, hgroup, hmem⟩, hlisted, hlisted'⟩ :=
    of_decide_eq_true hcheck
  have hstray : ¬ x.IsGrouped ⟨6⟩ := by
    intro hgrouped
    obtain ⟨tokens, htokens, hmem⟩ := hgrouped.exists_mem
    exact hnone tokens htokens hmem
  exact ⟨tables, journal, b, j, h, hsource, x, ⟨4⟩, ⟨6⟩, hcompiles, hstray, hamong,
    x.isUsable_of_any husable, Layout.lists_of_any (by decide) hlisted', s,
    Array.mem_toList_iff.mp hs, hgroup, hmem, Layout.lists_of_any (by decide) hlisted⟩

end GrammarCompiler
