/-
GrammarCompiler.Proofs.Visiting — when tokens are built.

Working through declarations does much to a draft, but it only has two ways to
build a token: for a reference and for a literal. Whatever these two keep is kept
by all of it, as long as it does not depend on anything but tokens. References
come from the grammar text, so their arguments are expressions that can be read.

  §1 Symbols      — actions that leave tokens alone.
  §2 Names        — the same for names and for cases of tokens.
  §3 Declarations — the same for what is declared.
  §4 Rules        — actions that build tokens on the way.
  §5 Grammars     — all declarations, in order.
-/
import GrammarCompiler.Proofs.Instantiating
import GrammarCompiler.Proofs.Stages

namespace GrammarCompiler

/-! ## §1 Symbols -/

/-- A terminal that is not for the main tokenizer since `d`, or that is newer than `d`. -/
def Draft.IsForeign (d d' : Draft) (t : Term) : Prop :=
  t ∈ d.foreignTerms ∨ d.terms.size ≤ t.index ∧ t.index < d'.terms.size

/-- Symbols may be added, also such that the main tokenizer does not read, and rules that can be
entered, as they can be read. Other tokens are left alone. -/
structure Draft.SparesTokens (d d' : Draft) : Prop where
  size_le : d.terms.size ≤ d'.terms.size
  tokens_eq : d'.tokens = d.tokens
  tokenInstances_eq : d'.tokenInstances = d.tokenInstances
  foreignTerms : ∀ t ∈ d'.foreignTerms, d.IsForeign d' t
  scope : ∀ s ∈ d'.scope, s ∈ d.scope ∨ s.rule.body.IsReadable

theorem Draft.IsForeign.mono {d d' d'' : Draft} {t : Term} (ht : d.IsForeign d' t)
    (hsize : d'.terms.size ≤ d''.terms.size) : d.IsForeign d'' t :=
  ht.imp_right fun ⟨hle, hlt⟩ => ⟨hle, Nat.lt_of_lt_of_le hlt hsize⟩

theorem Draft.SparesTokens.isForeign {d d' d'' : Draft} {t : Term} (h : d.SparesTokens d')
    (hsize : d'.terms.size ≤ d''.terms.size) (ht : d'.IsForeign d'' t) : d.IsForeign d'' t := by
  rcases ht with ht | ⟨hle, hlt⟩
  · exact (h.foreignTerms t ht).mono hsize
  · exact .inr ⟨Nat.le_trans h.size_le hle, hlt⟩

instance : IsPreorder Draft Draft.SparesTokens where
  refl _ := ⟨Nat.le_refl _, rfl, rfl, fun _ ht => .inl ht, fun _ hs => .inl hs⟩
  trans _ _ _ h h' := ⟨Nat.le_trans h.size_le h'.size_le, h'.tokens_eq.trans h.tokens_eq,
    h'.tokenInstances_eq.trans h.tokenInstances_eq,
    fun t ht => h.isForeign h'.size_le (h'.foreignTerms t ht),
    fun s hs => (h'.scope s hs).elim (h.scope s) .inr⟩

/-- What is remembered of anything but symbols and tokens makes no difference. -/
theorem Draft.SparesTokens.of_eq {d d' : Draft} (hterms : d'.terms = d.terms)
    (htokens : d'.tokens = d.tokens) (hinstances : d'.tokenInstances = d.tokenInstances)
    (hforeign : d'.foreignTerms = d.foreignTerms) (hscope : d'.scope = d.scope) :
    d.SparesTokens d' :=
  ⟨hterms ▸ Nat.le_refl _, htokens, hinstances, fun _ ht => .inl (hforeign ▸ ht),
    fun _ hs => .inl (hscope ▸ hs)⟩

/-- Where a terminal comes from that is not for the main tokenizer can be set. -/
theorem Draft.SparesTokens.setOrigin {d d' : Draft} {t : Term} (h : d.SparesTokens d')
    (ht : d.IsForeign d' t) (origin : TokenOrigin) :
    d.SparesTokens { d' with origins := (t, origin) :: d'.origins } where
  size_le := h.size_le
  tokens_eq := h.tokens_eq
  tokenInstances_eq := h.tokenInstances_eq
  foreignTerms u hu := by
    rcases List.mem_cons.mp hu with rfl | hu
    · exact ht
    · exact h.foreignTerms u hu
  scope := h.scope

/-- A case of a token is not for the main tokenizer. -/
theorem Draft.SparesTokens.addCase {d d' : Draft} {s : Specialization} (h : d.SparesTokens d')
    (hs : d.IsForeign d' s.term) (base : Term) : d.SparesTokens (d'.addCase base s) where
  size_le := h.size_le
  tokens_eq := h.tokens_eq
  tokenInstances_eq := h.tokenInstances_eq
  foreignTerms u hu := by
    rcases List.mem_append.mp hu with hu | hu
    · exact h.foreignTerms u (List.mem_append_left _ hu)
    · obtain ⟨table', htable', hu⟩ := List.mem_flatMap.mp hu
      obtain ⟨table, htable, rfl⟩ := List.mem_map.mp htable'
      have hcase (hmem : u ∈ table.cases.map Specialization.term) : d.IsForeign d' u :=
        h.foreignTerms u (List.mem_append_right _ (List.mem_flatMap.mpr ⟨table, htable, hmem⟩))
      split at hu
      · rw [List.map_append, List.mem_append] at hu
        rcases hu with hu | hu
        · exact hcase hu
        · rw [List.mem_singleton.mp hu]
          exact hs
      · exact hcase hu
  scope := h.scope

theorem Draft.Silently.sparesTokens {decl : GrammarDecl} {d d' : Draft} (h : Silently decl d d') :
    d.SparesTokens d' :=
  ⟨h.size_le, h.tokens_eq, congrArg Prod.fst h.noted_eq, fun _ ht => .inl (h.foreignTerms_eq ▸ ht),
    fun _ hs => .inl (h.scope_eq ▸ hs)⟩

/-- The cases of tokens are not for the main tokenizer. -/
theorem Draft.mem_foreignTerms_of_mem_casesOf {d : Draft} {base : Term} {s : Specialization}
    (h : s ∈ d.casesOf base) : s.term ∈ d.foreignTerms := by
  rw [casesOf] at h
  cases hfind : d.specializations.find? fun table => table.base == base with
  | none => simp [hfind] at h
  | some table =>
    refine List.mem_append_right _
      (List.mem_flatMap.mpr ⟨table, List.mem_of_find?_eq_some hfind, ?_⟩)
    exact List.mem_map_of_mem (by simpa [hfind] using h)

/-- The terminals of external specializers are not for the main tokenizer. -/
theorem Draft.mem_foreignTerms_of_mem_externalSpecializers {d : Draft} {group : ExternalGroup}
    (h : group ∈ d.externalSpecializers) {p : String × Term} (hp : p ∈ group.tokens) :
    p.2 ∈ d.foreignTerms := by
  refine List.mem_append_left _ (List.mem_append_right _ (List.mem_flatMap.mpr ⟨group, ?_, ?_⟩))
  · exact List.mem_append_right _ h
  · exact List.mem_map_of_mem hp

/-- Terminals of external declarations are not for the main tokenizer. -/
theorem Draft.SparesTokens.withGroups {d d' : Draft} (h : d.SparesTokens d')
    (tokenizers specializers : List ExternalGroup)
    (htokenizers : ∀ group ∈ tokenizers, ∀ p ∈ group.tokens, d.IsForeign d' p.2)
    (hspecializers : ∀ group ∈ specializers, ∀ p ∈ group.tokens, d.IsForeign d' p.2) :
    d.SparesTokens { d' with
      externalTokens := d'.externalTokens ++ tokenizers
      externalSpecializers := d'.externalSpecializers ++ specializers } where
  size_le := h.size_le
  tokens_eq := h.tokens_eq
  tokenInstances_eq := h.tokenInstances_eq
  foreignTerms u hu := by
    have hknown (hmem : u ∈ d'.foreignTerms) : d.IsForeign d' u := h.foreignTerms u hmem
    simp only [Draft.foreignTerms, List.mem_append, List.mem_flatMap, List.mem_map] at hu hknown
    rcases hu with (hu | ⟨group, hgroup, p, hp, rfl⟩) | hu
    · exact hknown (.inl (.inl hu))
    · rcases hgroup with (hgroup | hgroup) | hgroup | hgroup
      · exact hknown (.inl (.inr ⟨group, .inl hgroup, p, hp, rfl⟩))
      · exact htokenizers group hgroup p hp
      · exact hknown (.inl (.inr ⟨group, .inr hgroup, p, hp, rfl⟩))
      · exact hspecializers group hgroup p hp
    · exact hknown (.inr hu)
  scope := h.scope

/-- The rules that can be entered are as they can be read. -/
def Draft.HasReadableScope (d : Draft) : Prop :=
  ∀ s ∈ d.scope, s.rule.body.IsReadable

/-- A relation between drafts in which the rules that can be entered can be read. -/
def Draft.Readably (R : Draft → Draft → Prop) (d d' : Draft) : Prop :=
  d.HasReadableScope → d'.HasReadableScope ∧ R d d'

instance (R : Draft → Draft → Prop) [IsPreorder Draft R] : IsPreorder Draft (Draft.Readably R) where
  refl d hd := ⟨hd, refl_of R d⟩
  trans _ _ _ h h' hd := ⟨(h' (h hd).1).1, trans_of R (h hd).2 (h' (h hd).1).2⟩

/-- There is a new symbol, and tokens are left alone. -/
structure Draft.Creates (d : Draft) (t : Term) (d' : Draft) : Prop extends SparesTokens d d' where
  size_le_index : d.terms.size ≤ t.index
  index_lt : t.index < d'.terms.size

theorem Draft.Creates.trans {d d' d'' : Draft} {t : Term} (h : d.Creates t d')
    (h' : d'.SparesTokens d'') : d.Creates t d'' where
  __ := trans_of SparesTokens h.toSparesTokens h'
  size_le_index := h.size_le_index
  index_lt := Nat.lt_of_lt_of_le h.index_lt h'.size_le

/-- Something is done before a symbol is created. -/
theorem Draft.SparesTokens.creates {d d' d'' : Draft} {t : Term} (h : d.SparesTokens d')
    (h' : d'.Creates t d'') : d.Creates t d'' where
  __ := trans_of SparesTokens h h'.toSparesTokens
  size_le_index := Nat.le_trans h.size_le h'.size_le_index
  index_lt := h'.index_lt

namespace Build

open Draft (HasReadableScope Readably Silently SparesTokens)

variable {α β : Type} {ctx : Declared} {d d' : Draft}

theorem Along.spares {m : Build α} (h : Along ctx (Silently ctx.decl) m) :
    Along ctx SparesTokens m :=
  h.mono (·.sparesTokens)

theorem spares_newTerm (info : TermInfo) : Along ctx SparesTokens (newTerm info) := by
  intro d t d' h
  cases h
  exact ⟨(TermTable.size_add d.terms _).symm ▸ Nat.le_succ _, rfl, rfl, fun _ ht => .inl ht,
    fun _ hs => .inl hs⟩

theorem spares_addRules (name skip : Term) (phrases : List Phrase) :
    Along ctx SparesTokens (addRules name skip phrases) :=
  .of_modify fun _ => .of_eq rfl rfl rfl rfl rfl

theorem yields_newTerminal_creates (name : String) (info : NodeInfo) :
    Yields ctx d (newTerminal name info) fun t d' => d.Creates t d' := by
  refine Yields.bind (Q := fun t d' => d.Creates t d') (fun t d₁ h => ?_) fun t d₁ hd₁ => ?_
  · obtain ⟨-, hindex, hsize, -⟩ := newTerm_ok (by simp) h
    exact ⟨spares_newTerm _ d t d₁ h, by omega, by omega⟩
  · refine (silently_restrictToDialect _ _).spares.yields.bind fun _ d₂ hd₂ => yields_pure ?_
    exact hd₁.trans hd₂

/-! ## §2 Names -/

theorem spares_declareName (id : Ident) : Along ctx SparesTokens (declareName id) :=
  Along.get.bind fun _ => .when (.raise _ _) fun _ => .of_modify fun _ => .of_eq rfl rfl rfl rfl rfl

/-- A case is added for a text, and a terminal if there is none yet. -/
theorem yields_specializeValue_spares (start : Nat) (kind : SpecializeKind) (info : NodeInfo)
    (base : Term) {made : Option Term} (value : String) (hd : d.SparesTokens d')
    (hmade : ∀ t ∈ made, d.IsForeign d' t) :
    Yields ctx d' (specializeValue start kind info base made value) fun found d'' =>
      d.SparesTokens d'' ∧ ∀ t ∈ found, d.IsForeign d'' t := by
  have hadd {d₁ : Draft} {t : Term} (hd₁ : d.SparesTokens d₁) (ht : d.IsForeign d₁ t) :
      Yields ctx d₁ (do
        modify fun d => d.addCase base ⟨value, t, kind, info.dialect, info.name⟩
        setOrigin t (.specializes base)
        exportNode info t
        return some t) fun found d'' => d.SparesTokens d'' ∧ ∀ t ∈ found, d.IsForeign d'' t := by
    refine yields_modify_bind (yields_modify_bind ?_)
    refine (silently_exportNode _ _).yields.bind fun _ d₂ hd₂ => yields_pure ⟨?_, ?_⟩
    · exact trans_of SparesTokens ((hd₁.addCase ht base).setOrigin ht _) hd₂.sparesTokens
    · rintro _ ⟨⟩
      exact ht.mono hd₂.size_le
  refine yields_get_bind ?_
  dsimp only
  split
  next known hknown =>
    split
    · exact yields_raise _ _
    · refine yields_pure ⟨hd, ?_⟩
      rintro _ ⟨⟩
      exact hd.foreignTerms _
        (Draft.mem_foreignTerms_of_mem_casesOf (List.mem_of_find?_eq_some hknown))
  next =>
    split
    · exact hadd hd (hmade _ rfl)
    · refine (yields_newTerminal_creates _ _).bind fun t d₁ hd₁ => ?_
      refine hadd (trans_of SparesTokens hd hd₁.toSparesTokens) (.inr ⟨?_, hd₁.index_lt⟩)
      exact Nat.le_trans hd.size_le hd₁.size_le_index

theorem yields_specializeValues_spares (start : Nat) (kind : SpecializeKind) (info : NodeInfo)
    (base : Term) {made : Option Term} (values : List String) (hd : d.SparesTokens d')
    (hmade : ∀ t ∈ made, d.IsForeign d' t) :
    Yields ctx d' (values.foldlM (specializeValue start kind info base) made) fun _ d'' =>
      d.SparesTokens d'' := by
  induction values generalizing d' made with
  | nil => exact yields_pure hd
  | cons value values ih =>
    rw [List.foldlM_cons]
    exact (yields_specializeValue_spares start kind info base value hd hmade).bind
      fun found d₁ ⟨hd₁, hfound⟩ => ih hd₁ hfound

theorem spares_withTable (d : Draft) (base : Term) : d.SparesTokens (d.withTable base) := by
  rw [Draft.withTable]
  split
  · exact .of_eq rfl rfl rfl rfl rfl
  · refine .of_eq rfl rfl rfl ?_ rfl
    simp [Draft.foreignTerms]

theorem spares_specializeToken (start : Nat) (kind : SpecializeKind) (info : NodeInfo)
    (token content : Expr) (phrases : List Phrase) :
    Along ctx SparesTokens (specializeToken start kind info token content phrases) := by
  refine Along.get.bind fun d => ?_
  split
  · split
    · intro d₁
      refine yields_modify_bind ?_
      refine Yields.bind (yields_specializeValues_spares start kind info _ _
        (spares_withTable d₁ _) nofun) fun found d₂ hd₂ => ?_
      split
      · exact yields_pure hd₂
      · exact yields_raise _ _
    · exact .raise _ _
  · exact .raise _ _

/-! ## §3 Declarations -/

theorem yields_declareExternal_creates (token : ExternalToken) :
    Yields ctx d (declareExternal token) fun p d' => d.Creates p.2 d' := by
  refine (spares_declareName _).yields.bind fun _ d₁ hd₁ => yields_read_bind ?_
  refine yields_check_bind fun info _ => (yields_newTerminal_creates _ info).bind fun t d₂ hd₂ => ?_
  refine (silently_nameTerm _ _).spares.yields.bind fun _ d₃ hd₃ => yields_pure ?_
  exact hd₁.creates (hd₂.trans hd₃)

/-- Terminals that are declared one after another are new symbols. -/
theorem yields_declareAll {declare : ExternalToken → Build (String × Term)}
    (hdeclare : ∀ token d, Yields ctx d (declare token) fun p d' => d.Creates p.2 d')
    (tokens : List ExternalToken) : Yields ctx d (tokens.mapM declare) fun found d' =>
      SparesTokens d d' ∧ ∀ p ∈ found, d.IsForeign d' p.2 := by
  induction tokens generalizing d with
  | nil => exact yields_pure ⟨refl_of SparesTokens d, by simp⟩
  | cons token tokens ih =>
    rw [List.mapM_cons]
    refine (hdeclare token d).bind fun p d₁ hd₁ => ih.bind fun found d₂ ⟨hd₂, hfound⟩ => ?_
    refine yields_pure ⟨trans_of SparesTokens hd₁.toSparesTokens hd₂, ?_⟩
    refine List.forall_mem_cons.mpr ⟨.inr ⟨hd₁.size_le_index, ?_⟩, fun q hq => ?_⟩
    · exact Nat.lt_of_lt_of_le hd₁.index_lt hd₂.size_le
    · exact hd₁.isForeign hd₂.size_le (hfound q hq)

theorem spares_declareTokenizer (entry : ExternalTokensDecl × Nat) :
    Along ctx SparesTokens (declareTokenizer entry) := by
  intro d
  refine (yields_declareAll (fun token d => ?_) entry.1.tokens).bind
    fun found d₁ ⟨hd₁, hfound⟩ => ?_
  · refine (yields_declareExternal_creates token).bind fun p d₁ hd₁ => ?_
    refine yields_modify_bind (yields_pure ?_)
    have hforeign : d.IsForeign d₁ p.2 := .inr ⟨hd₁.size_le_index, hd₁.index_lt⟩
    exact ⟨hd₁.setOrigin hforeign _, hd₁.size_le_index, hd₁.index_lt⟩
  · rintro _ _ ⟨⟩
    have hgroup := hd₁.withGroups [⟨found⟩] []
      (List.forall_mem_singleton.mpr hfound) (List.forall_mem_nil _)
    rwa [List.append_nil] at hgroup

theorem spares_declareSpecializer (decl : ExternalSpecializerDecl) :
    Along ctx SparesTokens (declareSpecializer decl) := by
  intro d
  refine (yields_declareAll (fun token d => yields_declareExternal_creates token)
    decl.tokens).bind fun found d₁ ⟨hd₁, hfound⟩ => ?_
  rintro _ _ ⟨⟩
  have hgroup := hd₁.withGroups [] [⟨found⟩]
    (List.forall_mem_nil _) (List.forall_mem_singleton.mpr hfound)
  rwa [List.append_nil] at hgroup

theorem spares_declareExternals : Along ctx SparesTokens declareExternals :=
  Along.read.bind fun _ => .bind (.forM fun entry _ => spares_declareTokenizer entry) fun _ =>
    .forM fun decl _ => spares_declareSpecializer decl

/-- The terminals of an external specializer become cases of a token. -/
theorem yields_setOrigins (origin : TokenOrigin) {group : ExternalGroup}
    (hgroup : group ∈ d.externalSpecializers) (tokens : List (String × Term))
    (htokens : ∀ p ∈ tokens, p ∈ group.tokens) :
    Yields ctx d (tokens.forM fun (_, term) => setOrigin term origin) fun _ d' =>
      SparesTokens d d' ∧ d'.externalSpecializers = d.externalSpecializers := by
  induction tokens generalizing d with
  | nil => exact yields_pure ⟨refl_of SparesTokens d, rfl⟩
  | cons p tokens ih =>
    obtain ⟨hp, htokens⟩ := List.forall_mem_cons.mp htokens
    have hforeign := Draft.mem_foreignTerms_of_mem_externalSpecializers hgroup hp
    have hfirst := (refl_of SparesTokens d).setOrigin (.inl hforeign) origin
    refine yields_modify_bind ?_
    intro u d' h
    obtain ⟨hlater, hsame⟩ :=
      ih (d := { d with origins := (p.2, origin) :: d.origins }) hgroup htokens u d' h
    exact ⟨trans_of SparesTokens hfirst hlater, hsame⟩

theorem spares_scopeSkips (main : Option Expr) (mainSkip noSkip : Term)
    (known : List (Expr × Term)) (scopes : List ScopedSkip) :
    Along ctx SparesTokens (scopeSkips main mainSkip noSkip known scopes) := by
  induction scopes generalizing known with
  | nil => exact .pure _
  | cons s scopes ih =>
    have hrest (skip : Term) : Along ctx SparesTokens (do
        return skip :: (← scopeSkips main mainSkip noSkip (known ++ [(s.expr, skip)]) scopes)) :=
      (ih _).bind fun _ => .pure _
    rw [scopeSkips]
    split
    · exact hrest _
    · exact .ite (hrest _) (.ite (hrest _) ((spares_newTerm _).bind hrest))

/-! ## §4 Rules -/

variable {R : Draft → Draft → Prop}

/-- A relation between drafts that building a token keeps, if its arguments can be read, and
that has nothing to do with anything else. -/
structure Tracks (ctx : Declared) (R : Draft → Draft → Prop) : Prop where
  spares : ∀ {d d'}, SparesTokens d d' → R d d'
  token : ∀ start name args, (∀ a ∈ args, a.IsReadable) → Along ctx R (token? start name args)
  literal : ∀ value, Along ctx R (literalToken value)

/-- The rules that can be entered are the same afterwards. -/
theorem readably_of_grows {low : Nat} {m : Build α}
    (hscope : Along ctx (Draft.Grows ctx.decl low) m) (hm : Along ctx R m) :
    Along ctx (Readably R) m :=
  fun d a d' h hd => ⟨fun s hs => hd s ((hscope d a d' h).scope_eq ▸ hs), hm d a d' h⟩

theorem Tracks.token_readably (h : Tracks ctx R) (start : Nat) (name : String) {args : List Expr}
    (hargs : ∀ a ∈ args, a.IsReadable) : Along ctx (Readably R) (token? start name args) :=
  readably_of_grows (grows_of_supplies (supplies_token? start name args))
    (h.token start name args hargs)

theorem Tracks.literal_readably (h : Tracks ctx R) (value : String) :
    Along ctx (Readably R) (literalToken value) :=
  readably_of_grows (grows_of_supplies (supplies_literalToken value)) (h.literal value)

theorem Tracks.readably (h : Tracks ctx R) {d d' : Draft} (hd : SparesTokens d d') :
    Readably R d d' :=
  fun hscope => ⟨fun s hs => (hd.scope s hs).elim (hscope s) id, h.spares hd⟩

theorem Tracks.spare (h : Tracks ctx R) {m : Build α} (hm : Along ctx SparesTokens m) :
    Along ctx (Readably R) m :=
  hm.mono h.readably

/-- What comes after the declarations have been looked at. -/
theorem along_read_bind {f : Declared → Build α} (hf : Along ctx R (f ctx)) :
    Along ctx R (MonadReader.read >>= f) :=
  hf

/-- What comes after the draft has been looked at. -/
theorem along_get_bind {f : Draft → Build α}
    (hf : ∀ d, HasReadableScope d → Along ctx (Readably R) (f d)) :
    Along ctx (Readably R) (MonadState.get >>= f) :=
  fun d a d' h hd => hf d hd d a d' h hd

/-- The rules that are declared, in scopes or not, are as they can be read. -/
theorem isReadable_of_scoped {main : List RuleDecl} {scopes : List (ScopedSkip × Term)}
    {rules : ScopedSkip → List RuleDecl} (mainSkip : Term)
    (hmain : ∀ r ∈ main, r.body.IsReadable)
    (hscopes : ∀ p ∈ scopes, ∀ r ∈ rules p.1, r.body.IsReadable) :
    ∀ entry ∈ main.map (ScopedRule.mk mainSkip) ++
      scopes.flatMap (fun p => (rules p.1).map (ScopedRule.mk p.2)),
      entry.rule.body.IsReadable := by
  intro entry hentry
  rcases List.mem_append.mp hentry with hentry | hentry
  · obtain ⟨r, hr, rfl⟩ := List.mem_map.mp hentry
    exact hmain r hr
  · obtain ⟨p, hp, hentry⟩ := List.mem_flatMap.mp hentry
    obtain ⟨r, hr, rfl⟩ := List.mem_map.mp hentry
    exact hscopes p hp r hr

/-- A change to anything but tokens. -/
theorem Tracks.modify (h : Tracks ctx R) {f : Draft → Draft}
    (hf : ∀ d, SparesTokens d (f d)) : Along ctx (Readably R) (modify f : Build PUnit) :=
  h.spare (.of_modify hf)

variable [IsPreorder Draft R]

theorem Tracks.modify_bind (h : Tracks ctx R) {f : Draft → Draft} {m : PUnit → Build α}
    (hf : ∀ d, SparesTokens d (f d)) (hm : ∀ u, Along ctx (Readably R) (m u)) :
    Along ctx (Readably R) (MonadStateOf.modifyGet (fun d => (⟨⟩, f d)) >>= m) :=
  (h.modify hf).bind hm

theorem Along.yields_bind {d₀ : Draft} {m : Build α} {f : α → Build β} {S : β → Draft → Prop}
    (hm : Along ctx R m) (hd : R d₀ d) (hf : ∀ a d₁, R d₀ d₁ → Yields ctx d₁ (f a) S) :
    Yields ctx d (m >>= f) S :=
  hm.yields.bind fun a d₁ hd₁ => hf a d₁ (trans_of R hd hd₁)

section

variable (h : Tracks ctx R)
include h

theorem along_delimiterToken (depth : Nat) (e : Expr) :
    Along ctx (Readably R) (delimiterToken depth e) := by
  have hliteral (value : String) : Along ctx (Readably R) (do
      return some (← literalToken value, value) : Build (Option (Term × String))) :=
    (h.literal_readably value).bind fun _ => .pure _
  induction depth generalizing e with
  | zero =>
    rw [delimiterToken.eq_def]
    split
    · exact hliteral _
    next heq => cases heq
    · exact .pure _
  | succ depth ih =>
    rw [delimiterToken.eq_def]
    split
    · exact hliteral _
    next heq =>
      cases heq
      refine Along.read.bind fun ctx => ?_
      dsimp only
      split
      · exact ih _
      · split
        · exact .pure _
        · exact (h.token_readably _ _ (List.forall_mem_nil _)).bind fun _ => .pure _
    · exact .pure _

theorem along_delimiters? (e : Expr) : Along ctx (Readably R) (delimiters? e) := by
  have hnamed (t : Term) : Along ctx (Readably R) (hasNodeName t) :=
    h.spare (silently_hasNodeName t).spares
  unfold delimiters?
  split
  · refine (along_delimiterToken h 8 _).bind fun found => ?_
    split
    · refine (hnamed _).bind fun named => .ite (.pure _) ?_
      split
      · refine (along_delimiterToken h 8 _).bind fun found => ?_
        split
        · exact (hnamed _).bind fun _ => .ite (.pure _) (.pure _)
        · exact .pure _
      · exact .pure _
    · exact .pure _
  · exact .pure _

theorem along_ruleInfo (place : NodePlace) (rule : RuleDecl) (args : List Expr) :
    Along ctx (Readably R) (ruleInfo place rule args) := by
  have hword (t : Term) (prop word : String) : Along ctx (Readably R) (addPropWord t prop word) :=
    h.spare (silently_addPropWord _ _ _).spares
  have hmark (info : NodeInfo) : Along ctx (Readably R) (markDelimiters info rule.body) := by
    refine Along.read.bind fun _ => .ite ((along_delimiters? h _).bind fun found => ?_) (.pure _)
    split
    · exact Along.get.bind fun _ => (hword _ _ _).bind fun _ => hword _ _ _
    · exact .pure _
  exact Along.read.bind fun _ => (Along.check _).bind fun _ => (hmark _).bind fun _ => .check _

section

variable {again : Normalizer}
  (hagain : ∀ skip e, e.IsReadable → Along ctx (Readably R) (again skip e))
include hagain

theorem along_buildRule {rule : RuleDecl} (hrule : rule.body.IsReadable) {args : List Expr}
    (hargs : ∀ a ∈ args, a.IsReadable) (skip : Term) (inPlace : Bool) :
    Along ctx (Readably R) (buildRule again rule args skip inPlace) := by
  have hwarn (warning : Warning) (start : Option Nat) :
      Along ctx (Readably R) (warn warning start) :=
    h.spare (silently_warn _ _).spares
  have hrest (info : NodeInfo) {body : Expr} (hbody : body.IsReadable) (t : Term) :
      Along ctx (Readably R) (giveRules again rule info body skip t) := by
    refine (hagain skip body hbody).bind fun phrases => .when (hwarn _ _) fun _ => ?_
    refine (h.spare (spares_addRules _ _ _)).bind fun _ => ?_
    split
    · exact h.modify_bind (fun _ => .of_eq rfl rfl rfl rfl rfl) fun _ => .pure _
    · exact .pure _
  refine Along.check_bind fun body hbody => (along_ruleInfo h _ rule args).bind fun info => ?_
  refine .when (hwarn _ _) fun _ => .when (hwarn _ _) fun _ => ?_
  refine (h.spare (spares_newTerm _)).bind fun t => ?_
  refine (h.spare (silently_registerRule _ _ _ _).spares).bind fun _ => ?_
  exact .when (h.modify fun _ => .of_eq rfl rfl rfl rfl rfl) fun _ =>
    hrest info (RuleDecl.isReadable_bodyWith hrule hargs hbody) t

theorem along_resolve (start : Nat) (name : String) {args : List Expr}
    (hargs : ∀ a ∈ args, a.IsReadable) :
    Along ctx (Readably R) (resolve again start name args) := by
  refine Along.get.bind fun d => ?_
  dsimp only
  split
  · exact .pure _
  refine (h.token_readably start name hargs).bind fun found => ?_
  split
  · exact .pure _
  refine along_get_bind fun d hd => ?_
  split
  · exact (h.spare (silently_markUsed _).spares).bind fun _ => .pure _
  split
  next => exact .raise _ _
  next hfound =>
    refine .when (.raise _ _) fun _ => (h.spare (silently_markUsed _).spares).bind fun _ => ?_
    exact along_buildRule h hagain (hd _ (List.mem_of_find?_eq_some hfound)) hargs _ _

theorem along_repeatTerm (skip : Term) {body : Expr} (hbody : body.IsReadable) :
    Along ctx (Readably R) (repeatTerm again skip body) := by
  refine Along.get.bind fun d => ?_
  dsimp only
  split
  · exact .pure _
  refine (h.spare (spares_newTerm _)).bind fun t => ?_
  refine h.modify_bind (fun _ => .of_eq rfl rfl rfl rfl rfl) fun _ => ?_
  refine (hagain skip body hbody).bind fun _ => ?_
  exact (h.spare (spares_addRules _ _ _)).bind fun _ => .pure _

theorem along_normalizeWith (skip : Term) {e : Expr} (he : e.IsReadable) :
    Along ctx (Readably R) (normalizeWith again skip e) := by
  cases he with
  | repeated start kind hbody =>
    cases kind with
    | optional => exact (hagain skip _ hbody).bind fun _ => .pure _
    | plus => exact (along_repeatTerm h hagain skip hbody).bind fun _ => .pure _
    | star => exact (along_repeatTerm h hagain skip hbody).bind fun _ => .pure _
  | choice start _ halternatives =>
    exact (Along.mapM fun e he => hagain skip e (halternatives e he)).bind fun _ => .pure _
  | sequence start _ _ _ helements =>
    exact (Along.mapM fun e he => hagain skip e (helements e he)).bind fun _ =>
      Along.read.bind fun _ => (Along.check _).bind fun _ => .pure _
  | literal start value => exact (h.literal_readably value).bind fun _ => .pure _
  | name start _ _ hargs => exact (along_resolve h hagain start _ hargs).bind fun _ => .pure _
  | specialize start kind props htoken _ =>
    exact Along.read.bind fun _ => (Along.check _).bind fun _ =>
      (hagain skip _ htoken).bind fun _ =>
        (h.spare (spares_specializeToken _ _ _ _ _ _)).bind fun _ => .pure _
  | inlineRule start props _ _ hbody =>
    exact (along_buildRule h hagain hbody (List.forall_mem_nil _) skip true).bind fun _ => .pure _
  | charClass start cls =>
    cases cls with
    | eof => exact .pure _
    | _ => exact .raise _ _
  | set | any => exact .raise _ _

end

theorem along_normalize (skip : Term) (e : Expr) (he : e.IsReadable) :
    Along ctx (Readably R) (normalize skip e) := by
  have hfuel (fuel : Nat) :
      ∀ skip e, e.IsReadable → Along ctx (Readably R) (normalizeTo fuel skip e) := by
    induction fuel with
    | zero => exact fun _ _ _ => .raise _ _
    | succ fuel ih => exact fun skip e => along_normalizeWith h ih skip
  exact Along.read.bind fun _ => hfuel _ skip e he

/-! ## §5 Grammars -/

theorem yields_resolveSpecializer_along (noSkip : Term)
    (entry : ExternalSpecializerDecl × ExternalGroup) (htoken : entry.1.token.IsReadable)
    (hgroup : entry.2 ∈ d.externalSpecializers) :
    Yields ctx d (resolveSpecializer noSkip entry) fun _ d' =>
      Readably R d d' ∧ d'.externalSpecializers = d.externalSpecializers := by
  refine Yields.bind (Q := fun _ d₁ =>
      Readably R d d₁ ∧ d₁.externalSpecializers = d.externalSpecializers)
    (fun phrases d₁ hrun => ?_) fun phrases d₁ ⟨hd₁, hsame⟩ => ?_
  · exact ⟨along_normalize h _ _ htoken d phrases d₁ hrun,
      (grows_normalize _ _ d phrases d₁ hrun).external_eq.2⟩
  · refine yields_get_bind ?_
    split
    next base _ =>
      let next : Draft := { d₁ with specializedBy := d₁.specializedBy ++ [base] }
      have hgroup₁ : entry.2 ∈ next.externalSpecializers := hsame.symm ▸ hgroup
      have hnext : SparesTokens d₁ next := .of_eq rfl rfl rfl rfl rfl
      refine yields_modify_bind ?_
      intro u d' hrun
      obtain ⟨hspares, hsame'⟩ :=
        yields_setOrigins _ hgroup₁ entry.2.tokens (fun _ hp => hp) u d' hrun
      have hlater := h.readably (trans_of SparesTokens hnext hspares)
      exact ⟨trans_of (Readably R) hd₁ hlater, hsame'.trans hsame⟩
    next => exact yields_raise _ _

theorem yields_resolveSpecializers_along (noSkip : Term)
    (entries : List (ExternalSpecializerDecl × ExternalGroup))
    (htokens : ∀ entry ∈ entries, entry.1.token.IsReadable)
    (hgroups : ∀ entry ∈ entries, entry.2 ∈ d.externalSpecializers) :
    Yields ctx d (entries.forM (resolveSpecializer noSkip)) fun _ d' => Readably R d d' := by
  induction entries generalizing d with
  | nil => exact yields_pure (refl_of (Readably R) d)
  | cons entry entries ih =>
    obtain ⟨htoken, htokens⟩ := List.forall_mem_cons.mp htokens
    obtain ⟨hgroup, hgroups⟩ := List.forall_mem_cons.mp hgroups
    refine (yields_resolveSpecializer_along h noSkip entry htoken hgroup).bind
      fun _ d₁ ⟨hd₁, hsame⟩ => ?_
    exact fun u d' hrun => trans_of (Readably R) hd₁ (ih htokens (hsame ▸ hgroups) u d' hrun)

theorem along_buildScopeSkip (noSkip : Term) {entry : ScopedSkip × Term}
    (hskip : entry.1.expr.IsReadable) :
    Along ctx (Readably R) (buildScopeSkip noSkip entry) := by
  refine Along.get.bind fun d => .ite ?_ (.pure _)
  refine h.modify_bind (fun _ => .of_eq rfl rfl rfl rfl rfl) fun _ => .ite ?_ (.pure _)
  exact (along_normalize h _ _ hskip).bind fun _ => h.spare (spares_addRules _ _ _)

theorem along_buildTop {entry : ScopedRule} (hrule : entry.rule.body.IsReadable) :
    Along ctx (Readably R) (buildTop entry) := by
  refine (h.spare (spares_declareName _)).bind fun _ => ?_
  refine (h.spare (silently_markUsed _).spares).bind fun _ => ?_
  refine (along_ruleInfo h _ _ _).bind fun info => ?_
  have hadd : Along ctx SparesTokens (modifyGet fun d : Draft =>
      (fun p : Term × TermTable => (p.1, { d with terms := p.2 })) (d.terms.add {
        name := "@top", kind := .top, nodeName := info.name, props := info.props })) := by
    intro d _ _ hadd
    cases hadd
    exact ⟨(TermTable.size_add d.terms _).symm ▸ Nat.le_succ _, rfl, rfl, fun _ ht => .inl ht,
      fun _ hs => .inl hs⟩
  refine (h.spare hadd).bind fun t => ?_
  have hrules : Along ctx (Readably R)
      (do addRules t entry.skip (← normalize entry.skip entry.rule.body)) :=
    (along_normalize h _ _ hrule).bind fun _ => h.spare (spares_addRules _ _ _)
  split
  · exact (h.spare (silently_nameTerm _ _).spares).bind fun _ => hrules
  · exact hrules

theorem along_buildExported {entry : ScopedRule} (hrule : entry.rule.body.IsReadable) :
    Along ctx (Readably R) (buildExported entry) := by
  refine Along.get.bind fun d => .ite ?_ (.pure _)
  refine (along_buildRule h (along_normalize h) hrule (List.forall_mem_nil _) _ _).bind
    fun _ => .ite ?_ (.pure _)
  exact h.spare (silently_markUsed _).spares

/-- The steps after the main skip expression. -/
theorem along_steps (noSkip : Term) {scopes : List (ScopedSkip × Term)}
    {tops rules : List ScopedRule} {specializers : List ExternalSpecializerDecl}
    (hscopes : ∀ p ∈ scopes, p.1.IsReadable) (htops : ∀ s ∈ tops, s.rule.body.IsReadable)
    (hrules : ∀ s ∈ rules, s.rule.body.IsReadable)
    (hspecializers : ∀ s ∈ specializers, s.token.IsReadable) :
    Along ctx (Readably R) (do
      scopes.forM (buildScopeSkip noSkip)
      if tops.isEmpty then raise .missingTop none
      (tops.mergeSort fun a b => a.rule.id.start ≤ b.rule.id.start).forM buildTop
      (specializers.zip (← get).externalSpecializers).forM (resolveSpecializer noSkip)
      rules.forM buildExported) := by
  refine (Along.forM fun p hp => along_buildScopeSkip h _ (hscopes p hp).skip).bind fun _ =>
    .when (.raise _ _) fun _ => (Along.forM fun s hs => along_buildTop h ?_).bind fun _ => ?_
  · exact htops s (List.mem_mergeSort.mp hs)
  intro d
  refine yields_get_bind ?_
  refine (yields_resolveSpecializers_along h noSkip _ (fun entry hentry => ?_)
    fun entry hentry => ?_).bind fun _ d₁ hd₁ => ?_
  · exact hspecializers _ (List.of_mem_zip hentry).1
  · exact (List.of_mem_zip hentry).2
  · have hlast : Along ctx (Readably R) (rules.forM buildExported) :=
      .forM fun s hs => along_buildExported h (hrules s hs)
    exact fun u d' hrun => trans_of (Readably R) hd₁ (hlast d₁ u d' hrun)

variable (hdecl : ctx.decl.IsReadable)
include hdecl

theorem along_buildRules : Along ctx (Readably R) buildRules := by
  have hskip (name : String) : Along ctx (Readably R) (newSkip name) := h.spare (spares_newTerm _)
  refine along_read_bind ((hskip _).bind fun noSkip => ?_)
  refine .either (hskip _) (.pure _) fun mainSkip => ?_
  refine (h.spare (spares_scopeSkips _ _ _ _ _)).bind fun skips => ?_
  have hscopes : ∀ p ∈ ctx.decl.scopedSkips.zip skips, p.1.IsReadable :=
    fun p hp => hdecl.scopes p.1 (List.of_mem_zip hp).1
  have hrules := isReadable_of_scoped mainSkip hdecl.rules fun p hp => (hscopes p hp).rules
  have htops := isReadable_of_scoped mainSkip hdecl.tops fun p hp => (hscopes p hp).tops
  have hsteps := along_steps h noSkip hscopes htops hrules hdecl.specializers
  refine (Along.forM fun _ _ => h.spare (spares_declareName _)).bind fun _ => ?_
  refine h.modify_bind (fun d => ?_) fun _ => ?_
  · exact { SparesTokens.of_eq (d := d) rfl rfl rfl rfl rfl with
      scope := fun s hs => .inr (hrules s hs) }
  dsimp only
  split
  next main hmain =>
    refine (along_normalize h _ _ (hdecl.mainSkip main hmain)).bind fun _ => ?_
    exact (h.spare (spares_addRules _ _ _)).bind fun _ => hsteps
  next => exact hsteps

/-- What building a token keeps, working through all declarations keeps. -/
theorem yields_blueprint_along (hd : HasReadableScope d) :
    Yields ctx d blueprint fun b _ => R d b.draft := by
  have hblueprint : Yields ctx d blueprint fun b _ => Readably R d b.draft := by
    refine yields_read_bind ?_
    refine (Along.forM fun _ _ => h.spare (spares_declareName _)).yields_bind
      (refl_of (Readably R) d) fun _ d₁ hd₁ => ?_
    refine (h.spare spares_declareExternals).yields_bind hd₁ fun _ d₂ hd₂ => ?_
    refine (along_buildRules h hdecl).yields_bind hd₂ fun _ d₃ hd₃ => ?_
    refine (h.spare silently_warnUnused.spares).yields_bind hd₃ fun _ d₄ hd₄ => ?_
    have hranks (ranks : List TokenRank) (entry : TokenPrecedence) :
        Along ctx (Readably R) (readPrecedence ranks entry) :=
      h.spare (silently_readPrecedence ranks entry).spares
    refine (Along.foldlM hranks _).yields_bind hd₄ fun _ d₅ hd₅ => ?_
    have hconflict (entry : TokenConflictDecl) : Along ctx (Readably R) (readConflict entry) :=
      h.spare (silently_readConflict entry).spares
    refine (Along.mapM fun entry _ => hconflict entry).yields_bind hd₅ fun _ d₆ hd₆ => ?_
    refine (h.spare silently_defineGroups.spares).yields_bind hd₆ fun _ d₇ hd₇ => ?_
    refine yields_modify_bind (yields_get_bind (yields_pure ?_))
    refine trans_of (Readably R) hd₇ (h.readably ?_)
    exact .of_eq rfl rfl rfl rfl rfl
  exact fun b d' hrun => (hblueprint b d' hrun hd).2

end

end Build

/-- What building a token keeps holds of the draft that a grammar text leads to, since the empty
one. -/
theorem Blueprint.along_of_ofSource {R : Draft → Draft → Prop} [IsPreorder Draft R]
    {source : Text.Source} {b : Blueprint} {journal : Journal}
    (h : ofSource source = (.ok b, journal))
    (htracks : b.decl.IsReadable → Build.Tracks ⟨source, b.decl⟩ R) : R {} b.draft := by
  rw [ofSource] at h
  split at h
  next => cases h
  next decl hparse =>
    split at h
    next hrun =>
      cases h
      obtain ⟨s⟩ := Build.yields_blueprint b _ hrun
      obtain rfl : b.decl = decl := s.decl_eq
      have hdecl := GrammarDecl.isReadable_parse hparse
      have hscope : Draft.HasReadableScope {} := List.forall_mem_nil _
      exact Build.yields_blueprint_along (htracks hdecl) hdecl hscope b _ hrun
    next => cases h

end GrammarCompiler
