/-
GrammarCompiler.Proofs.Stages — the drafts between the steps of a build.

Names and external tokens are declared first, and symbols for what is skipped are
created. So far there are no rules. Then what is skipped, the top rules and what
is exported are worked through one after another, and each symbol gets its rules
at one time only.

  §1 Opening — names and external tokens.
  §2 Steps   — what each step comes down to.
  §3 Stages  — the steps in order.
  §4 Rules   — what holds of the draft that declarations lead to.
-/
import GrammarCompiler.Proofs.Growth
import Mathlib.Data.List.Nodup

namespace GrammarCompiler

/-! ## §1 Opening -/

namespace Draft

/-- The names of external tokens. -/
def externalNames (d : Draft) : List String :=
  (d.externalTokens ++ d.externalSpecializers).flatMap fun e => e.tokens.map Prod.fst

/-- A draft in which names are declared and symbols created, while nothing is built. -/
structure Opening (decl : GrammarDecl) (d : Draft) : Prop where
  tidy : d.Tidy decl
  rules_eq : d.rules = []
  ruleInstances_eq : d.ruleInstances = []
  repeatInstances_eq : d.repeatInstances = []
  tops_eq : d.terms.tops = []
  external : ∀ n ∈ d.externalNames, n ∈ d.names.map DeclaredName.name
  external_eq : decl.externalTokens = [] → decl.externalSpecializers = [] →
    d.externalTokens = [] ∧ d.externalSpecializers = []

/-- More names are declared, while nothing is built. -/
structure Opens (decl : GrammarDecl) (d d' : Draft) : Prop where
  names : d.names.map DeclaredName.name <+: d'.names.map DeclaredName.name
  opening : d.Opening decl → d'.Opening decl

instance (decl : GrammarDecl) : IsPreorder Draft (Opens decl) where
  refl _ := ⟨List.prefix_refl _, id⟩
  trans _ _ _ h h' := ⟨h.names.trans h'.names, h'.opening ∘ h.opening⟩

variable {decl : GrammarDecl} {d d' : Draft}

theorem Supplies.opens (h : Supplies decl d d') : Opens decl d d' := by
  have hdeclared := h.declared_eq
  simp only [declared, Prod.mk.injEq] at hdeclared
  obtain ⟨hrules, hinstances, hrepeats, _, hexternal, hexternal', _⟩ := hdeclared
  refine ⟨h.names, fun hd => ⟨h.tidy hd.tidy, hrules.trans hd.rules_eq,
    hinstances.trans hd.ruleInstances_eq, hrepeats.trans hd.repeatInstances_eq,
    (h.tops_eq rfl).trans hd.tops_eq, fun n hn => ?_, hexternal ▸ hexternal' ▸ hd.external_eq⟩⟩
  rw [externalNames, hexternal, hexternal'] at hn
  exact h.names.subset (hd.external n hn)

/-- Remembering external tokens whose names are declared. -/
theorem Opening.declare (hd : d.Opening decl)
    (hdecl : ¬(decl.externalTokens = [] ∧ decl.externalSpecializers = []))
    {tokens : List (String × Term)}
    (htokens : ∀ p ∈ tokens, p.1 ∈ d.names.map DeclaredName.name ∧ d.terms.IsToken p.2) :
    Opening decl { d with externalTokens := d.externalTokens ++ [⟨tokens⟩] } ∧
      Opening decl { d with externalSpecializers := d.externalSpecializers ++ [⟨tokens⟩] } := by
  have hterms {u : Term} (hu : u ∈ d.tokenTerms ∨ u ∈ tokens.map Prod.snd) : d.terms.IsToken u := by
    rcases hu with hu | hu
    · exact hd.tidy.tokens u hu
    · obtain ⟨p, hp, rfl⟩ := List.mem_map.mp hu
      exact (htokens p hp).2
  have hnames {n : String} (hn : n ∈ d.externalNames ∨ n ∈ tokens.map Prod.fst) :
      n ∈ d.names.map DeclaredName.name := by
    rcases hn with hn | hn
    · exact hd.external n hn
    · obtain ⟨p, hp, rfl⟩ := List.mem_map.mp hn
      exact (htokens p hp).1
  refine ⟨{ hd with tidy := { hd.tidy with tokens := fun u hu => hterms ?_ }
                    external := fun n hn => hnames ?_
                    external_eq := fun hnil hnil' => absurd ⟨hnil, hnil'⟩ hdecl },
    { hd with tidy := { hd.tidy with tokens := fun u hu => hterms ?_ }
              external := fun n hn => hnames ?_
              external_eq := fun hnil hnil' => absurd ⟨hnil, hnil'⟩ hdecl }⟩
  all_goals
    simp only [tokenTerms, externalNames, List.mem_append, List.flatMap_append,
      List.flatMap_cons, List.flatMap_nil, List.append_nil] at *
    tauto

end Draft

namespace Build

open Draft (Grows Supplies Quietly Enters Opens)

variable {α : Type} {ctx : Declared} {d : Draft}

theorem yields_declareName (id : Ident) : Yields ctx d (declareName id) fun _ d' =>
    Supplies ctx.decl d d' ∧
      d'.names.map DeclaredName.name = d.names.map DeclaredName.name ++ [id.name] := by
  refine yields_get_bind ?_
  split
  next => exact (yields_raise _ _).bind fun _ _ h => h
  next hnew =>
    intro _ d' h
    cases h
    have hnames : (d.names ++ [(⟨id.name, some id.start⟩ : DeclaredName)]).map DeclaredName.name =
        d.names.map DeclaredName.name ++ [id.name] := List.map_append
    refine ⟨⟨{ Grows.refl ctx.decl 0 d with names := ?_, tidy := ?_ }, rfl⟩, hnames⟩
    · exact hnames ▸ List.prefix_append _ _
    · refine fun hd => { hd with names := ?_ }
      rw [hnames]
      refine hd.names.append (List.nodup_singleton _) fun name hname hid => ?_
      obtain ⟨n, hn, rfl⟩ := List.mem_map.mp hname
      exact hnew (List.any_eq_true.mpr ⟨n, hn, beq_iff_eq.mpr (List.mem_singleton.mp hid)⟩)

theorem yields_declareNames (id : α → Ident) (l : List α) :
    Yields ctx d (l.forM fun a => declareName (id a)) fun _ d' => Supplies ctx.decl d d' ∧
      d'.names.map DeclaredName.name =
        d.names.map DeclaredName.name ++ l.map fun a => (id a).name := by
  induction l generalizing d with
  | nil => exact yields_pure ⟨refl_of (Supplies ctx.decl) d, (List.append_nil _).symm⟩
  | cons a l ih =>
    refine (yields_declareName (id a)).bind fun _ d₁ ⟨hd₁, hnames₁⟩ _ d' h => ?_
    obtain ⟨hd', hnames⟩ := ih _ d' h
    refine ⟨trans_of (Supplies ctx.decl) hd₁ hd', ?_⟩
    rw [hnames, hnames₁, List.append_assoc]
    rfl

/-- An external token is a terminal whose name is declared. -/
theorem yields_declareExternal (token : ExternalToken) :
    Yields ctx d (declareExternal token) fun found d' => Supplies ctx.decl d d' ∧
      found.1 ∈ d'.names.map DeclaredName.name ∧ d'.terms.IsToken found.2 := by
  refine (yields_declareName token.id).bind fun _ d₁ ⟨hd₁, hnames₁⟩ => ?_
  refine yields_read_bind (yields_check_bind fun info _ => ?_)
  refine (yields_newTerminal _ _ _ _).bind fun t d₂ ⟨hd₂, ht⟩ => ?_
  refine (silently_nameTerm _ _).quietly.yields.bind fun _ d₃ hd₃ => yields_pure ?_
  have hquiet := trans_of (Quietly ctx.decl) hd₂ hd₃
  refine ⟨trans_of (Supplies ctx.decl) hd₁ hquiet.toSupplies, hquiet.names.subset ?_,
    hd₃.isToken ht⟩
  exact hnames₁ ▸ List.mem_append_right _ (List.mem_singleton_self _)

theorem opens_declareExternals : Along ctx (Opens ctx.decl) declareExternals := by
  have hmany {f : ExternalToken → Build (String × Term)}
      (hf : ∀ token d, Yields ctx d (f token) fun found d' => Supplies ctx.decl d d' ∧
        found.1 ∈ d'.names.map DeclaredName.name ∧ d'.terms.IsToken found.2)
      (l : List ExternalToken) (d : Draft) :
      Yields ctx d (l.mapM f) fun found d' => Supplies ctx.decl d d' ∧ ∀ p ∈ found,
        p.1 ∈ d'.names.map DeclaredName.name ∧ d'.terms.IsToken p.2 := by
    induction l generalizing d with
    | nil => exact yields_pure ⟨refl_of (Supplies ctx.decl) d, nofun⟩
    | cons token l ih =>
      rw [List.mapM_cons]
      refine (hf token d).bind fun p d₁ ⟨hd₁, hname, hterm⟩ => ?_
      refine (ih d₁).bind fun found d₂ ⟨hd₂, hfound⟩ => yields_pure ?_
      refine ⟨trans_of (Supplies ctx.decl) hd₁ hd₂, List.forall_mem_cons.mpr ⟨⟨?_, ?_⟩, hfound⟩⟩
      · exact hd₂.names.subset hname
      · exact hd₂.isToken hterm
  change Along ctx (Opens ctx.decl) (ctx.decl.externalTokens.zipIdx.forM declareTokenizer >>=
    fun _ => ctx.decl.externalSpecializers.forM declareSpecializer)
  refine (Along.forM fun entry hentry => ?_).bind fun _ => .forM fun special hspecial => ?_
  · have hdecl : ¬(ctx.decl.externalTokens = [] ∧ ctx.decl.externalSpecializers = []) := by
      rintro ⟨hnil, -⟩
      rw [hnil] at hentry
      cases hentry
    intro d
    change Yields ctx d (declareTokenizer entry) fun _ d' => Opens ctx.decl d d'
    refine (hmany (fun token d => ?_) entry.1.tokens d).bind
      fun tokens d₁ ⟨hd₁, htokens⟩ _ d' h => ?_
    · refine (yields_declareExternal token).bind fun p d₁ ⟨hd₁, hname, hterm⟩ => ?_
      refine (quietly_setOrigin _ _).yields.bind fun _ d₂ hd₂ => yields_pure ?_
      exact ⟨trans_of (Supplies ctx.decl) hd₁ hd₂.toSupplies, hd₂.names.subset hname,
        hd₂.isToken hterm⟩
    · cases h
      exact ⟨hd₁.names, fun hd => ((hd₁.opens.opening hd).declare hdecl htokens).1⟩
  · have hdecl : ¬(ctx.decl.externalTokens = [] ∧ ctx.decl.externalSpecializers = []) :=
      fun hnil => List.ne_nil_of_mem hspecial hnil.2
    intro d
    change Yields ctx d (declareSpecializer special) fun _ d' => Opens ctx.decl d d'
    refine (hmany (fun token d => yields_declareExternal token) special.tokens d).bind
      fun tokens d₁ ⟨hd₁, htokens⟩ _ d' h => ?_
    cases h
    exact ⟨hd₁.names, fun hd => ((hd₁.opens.opening hd).declare hdecl htokens).2⟩

/-! ## §2 Steps -/

theorem yields_newSkip (name : String) : Yields ctx d (newSkip name) fun t d' =>
    Quietly ctx.decl d d' ∧ t.index = d.terms.size ∧ d'.terms.isTerminal t = false := by
  intro t d' h
  obtain ⟨hquiet, hindex, -, hkind⟩ := newTerm_ok (by simp) h
  exact ⟨hquiet, hindex, congrArg (· == .terminal) hkind⟩

theorem yields_scopeSkips (main : Option Expr) {mainSkip noSkip : Term}
    (hmain : d.terms.isTerminal mainSkip = false) (hno : d.terms.isTerminal noSkip = false)
    (known : List (Expr × Term)) (hknown : ∀ k ∈ known, d.terms.isTerminal k.2 = false)
    (scopes : List ScopedSkip) :
    Yields ctx d (scopeSkips main mainSkip noSkip known scopes) fun skips d' =>
      Quietly ctx.decl d d' ∧ ∀ t ∈ skips, d'.terms.isTerminal t = false := by
  induction scopes generalizing d known with
  | nil => exact yields_pure ⟨refl_of (Quietly ctx.decl) d, nofun⟩
  | cons s scopes ih =>
    have hrest {d₁ : Draft} {skip : Term} (hd₁ : Quietly ctx.decl d d₁)
        (hskip : d₁.terms.isTerminal skip = false) : Yields ctx d₁ (do
          return skip :: (← scopeSkips main mainSkip noSkip (known ++ [(s.expr, skip)]) scopes))
          fun skips d' => Quietly ctx.decl d d' ∧ ∀ t ∈ skips, d'.terms.isTerminal t = false := by
      refine (ih (hd₁.isTerminal hmain) (hd₁.isTerminal hno) _ fun k hk => ?_).bind
        fun skips d₂ ⟨hd₂, hskips⟩ => yields_pure ?_
      · rcases List.mem_append.mp hk with hk | hk
        · exact hd₁.isTerminal (hknown k hk)
        · exact List.mem_singleton.mp hk ▸ hskip
      · exact ⟨trans_of (Quietly ctx.decl) hd₁ hd₂,
          List.forall_mem_cons.mpr ⟨hd₂.isTerminal hskip, hskips⟩⟩
    have hrefl := refl_of (Quietly ctx.decl) d
    rw [scopeSkips]
    split
    next k hk => exact hrest hrefl (hknown _ (List.mem_of_find?_eq_some hk))
    next =>
      split
      · exact hrest hrefl hmain
      · split
        · exact hrest hrefl hno
        · exact (yields_newSkip _).bind fun skip d₁ hd₁ => hrest hd₁.1 hd₁.2.2

end Build

/-- A draft in which one more symbol is skipped somewhere. -/
def Draft.withSkip (d : Draft) (skip : Term) : Draft :=
  { d with skipTerms := d.skipTerms ++ [skip] }

namespace Build

open Draft (Grows Supplies Quietly Enters)

variable {ctx : Declared} {d : Draft}

/-- What is skipped in a scope gets its rules when it is first seen. -/
theorem yields_buildScopeSkip (noSkip : Term) (s : ScopedSkip) (skip : Term) :
    Yields ctx d (buildScopeSkip noSkip (s, skip)) fun _ d' =>
      (skip ∈ d.skipTerms ∧ d' = d) ∨
      (skip = noSkip ∧ d' = d.withSkip skip) ∨
      (skip ∉ d.skipTerms ∧ skip ≠ noSkip ∧ ∃ phrases d₁,
        normalize noSkip s.expr ctx (d.withSkip skip) = .ok phrases d₁ ∧
          d' = d₁.withRules skip noSkip phrases) := by
  refine yields_get_bind ?_
  split
  next hnew =>
    refine yields_modify_bind ?_
    have hnew : skip ∉ d.skipTerms := by simpa using hnew
    split
    next hne =>
      refine Yields.bind (fun _ _ h => h) fun phrases d₁ hd₁ => ?_
      rintro _ _ ⟨⟩
      exact .inr (.inr ⟨hnew, by simpa using hne, phrases, d₁, hd₁, rfl⟩)
    next heq => exact yields_pure (.inr (.inl ⟨by simpa using heq, rfl⟩))
  next hknown => exact yields_pure (.inl ⟨by simpa using hknown, rfl⟩)

/-- A top rule gets a new symbol at the top, and that gets its rules. -/
theorem yields_buildTop {low : Nat} (hlow : 0 < low) (skip : Term) (rule : RuleDecl) :
    Yields ctx d (buildTop ⟨skip, rule⟩) fun _ d' => ∃ t d₁ phrases d₂,
      Enters ctx.decl low d t d₁ ∧ d₁.terms.tops = d.terms.tops ++ [t] ∧
        normalize skip rule.body ctx d₁ = .ok phrases d₂ ∧
        d' = d₂.withRules t skip phrases := by
  refine (yields_declareName rule.id).bind fun _ d₁ ⟨hd₁, _⟩ => ?_
  refine (silently_markUsed _).quietly.yields.bind fun _ d₂ hd₂ => ?_
  refine (supplies_ruleInfo _ _ _).yields.bind fun info d₃ hd₃ => ?_
  have hd₃ := trans_of (Supplies ctx.decl) hd₁ (trans_of (Supplies ctx.decl) hd₂.toSupplies hd₃)
  let node : TermInfo :=
    { name := "@top", kind := .top, nodeName := info.name, props := info.props }
  have hsize := TermTable.size_add d₃.terms node
  have henter : Enters ctx.decl low d ⟨d₃.terms.size⟩
      { d₃ with terms := (d₃.terms.add node).2 } := by
    have hkind (t : Term) (ht : t.index < d₃.terms.size) :
        ((d₃.terms.add node).2.info t).kind = (d₃.terms.info t).kind :=
      congrArg TermInfo.kind (TermTable.info_add_of_lt node ht)
    refine ⟨(hd₃.toGrows.mono low).trans { Grows.refl ctx.decl low d₃ with
      size_le := ?_, kind_eq := hkind, tops_eq := ?_, rules := ?_, tidy := ?_ },
      hd₃.declared_eq, hd₃.size_le, ?_, ?_⟩
    · exact hsize.symm ▸ Nat.le_succ _
    · exact fun hzero => absurd hzero (Nat.ne_of_gt hlow)
    · exact ⟨[], (List.append_nil _).symm, nofun⟩
    · refine fun hd => { hd with
        tokens := fun u hu => ?_, lt_size := fun r hr => ?_, tops := fun u hu => ?_ }
      · obtain ⟨hlt, hterm⟩ := hd.tokens u hu
        exact ⟨hsize.symm ▸ Nat.lt_succ_of_lt hlt,
          (congrArg (· == .terminal) (hkind u hlt)).trans hterm⟩
      · exact hsize.symm ▸ Nat.lt_succ_of_lt (hd.lt_size r hr)
      · rcases List.mem_append.mp hu with hu | hu
        · have htop := hd.tops u hu
          exact (congrArg (· == .top) (hkind u (TermTable.lt_size_of_isTop htop))).trans htop
        · rw [List.mem_singleton.mp hu, TermTable.isTop, TermTable.info_add_self]
          rfl
    · exact hsize.symm ▸ Nat.lt_succ_self _
    · exact congrArg (fun i => i.kind == .terminal) (TermTable.info_add_self d₃.terms node)
  have htops : (d₃.terms.add node).2.tops = d.terms.tops ++ [⟨d₃.terms.size⟩] := by
    rw [← hd₃.tops_eq rfl]
    rfl
  -- What is left when the symbol is there.
  have hrest {d₄ : Draft} (hd₄ : Quietly ctx.decl { d₃ with terms := (d₃.terms.add node).2 } d₄) :
      Yields ctx d₄ (do addRules ⟨d₃.terms.size⟩ skip (← normalize skip rule.body)) fun _ d' =>
        ∃ t d₁ phrases d₂, Enters ctx.decl low d t d₁ ∧ d₁.terms.tops = d.terms.tops ++ [t] ∧
          normalize skip rule.body ctx d₁ = .ok phrases d₂ ∧
          d' = d₂.withRules t skip phrases := by
    refine Yields.bind (fun _ _ h => h) fun phrases d₅ hd₅ => ?_
    rintro _ _ ⟨⟩
    refine ⟨_, d₄, phrases, d₅, ?_, (hd₄.tops_eq rfl).trans htops, hd₅, rfl⟩
    exact {
      henter.toGrows.trans (hd₄.toGrows.mono low) with
      declared_eq := hd₄.declared_eq.trans henter.declared_eq
      size_le_index := henter.size_le_index
      index_lt := Nat.lt_of_lt_of_le henter.index_lt hd₄.size_le
      isTerminal := hd₄.isTerminal henter.isTerminal }
  refine Yields.bind (Q := fun t d₄ => t = ⟨d₃.terms.size⟩ ∧
    d₄ = { d₃ with terms := (d₃.terms.add node).2 }) ?_ ?_
  · rintro _ _ ⟨⟩
    exact ⟨rfl, rfl⟩
  · rintro _ _ ⟨rfl, rfl⟩
    dsimp only
    split
    · exact (silently_nameTerm _ _).quietly.yields.bind fun _ d₄ hd₄ => hrest hd₄
    · exact hrest (refl_of (Quietly ctx.decl) _)

/-- What an external specializer is for is worked through. -/
theorem yields_resolveSpecializer (noSkip : Term)
    (entry : ExternalSpecializerDecl × ExternalGroup) :
    Yields ctx d (resolveSpecializer noSkip entry) fun _ d' => ∃ phrases d₁,
      normalize noSkip entry.1.token ctx d = .ok phrases d₁ ∧ Quietly ctx.decl d₁ d' := by
  refine Yields.bind (fun _ _ h => h) fun phrases d₁ hd₁ => yields_get_bind ?_
  split
  next base _ =>
    refine yields_modify_bind fun _ d' h => ⟨phrases, d₁, hd₁, ?_⟩
    have hbase : Quietly ctx.decl d₁ { d₁ with specializedBy := d₁.specializedBy ++ [base] } :=
      .of_terms_eq rfl rfl rfl
    exact trans_of (Quietly ctx.decl) hbase
      (Along.forM (fun _ _ => quietly_setOrigin _ _) _ _ _ h)
  next => exact yields_raise _ _

/-- A rule that is exported and not used is built. -/
theorem yields_buildExported (skip : Term) (rule : RuleDecl) :
    Yields ctx d (buildExported ⟨skip, rule⟩) fun _ d' => d' = d ∨
      (isExported rule = true ∧ rule.params.isEmpty = true ∧ ∃ t d₁,
        buildRule normalize rule [] skip false ctx d = .ok t d₁ ∧ Quietly ctx.decl d₁ d') := by
  refine yields_get_bind ?_
  dsimp only
  split
  next hcondition =>
    simp only [Bool.and_eq_true] at hcondition
    refine Yields.bind (fun _ _ h => h) fun t d₁ hd₁ => fun _ d' h => ?_
    refine .inr ⟨hcondition.1.2, hcondition.2, t, d₁, hd₁, ?_⟩
    exact Along.ite (silently_markUsed _).quietly (.pure _) d₁ _ d' h
  next => exact yields_pure (.inl rfl)

end Build

/-! ## §3 Stages -/

/-- The rules that other rules can refer to, with what is skipped in them. -/
def GrammarDecl.scopedRules (decl : GrammarDecl) (mainSkip : Term) (skips : List Term) :
    List ScopedRule :=
  (decl.rules.map fun rule => ⟨mainSkip, rule⟩) ++
    (decl.scopedSkips.zip skips).flatMap fun (s, skip) => s.rules.map fun rule => ⟨skip, rule⟩

/-- The top rules, with what is skipped in them. -/
def GrammarDecl.scopedTops (decl : GrammarDecl) (mainSkip : Term) (skips : List Term) :
    List ScopedRule :=
  (decl.topRules.map fun rule => ⟨mainSkip, rule⟩) ++
    (decl.scopedSkips.zip skips).flatMap fun (s, skip) => s.topRules.map fun rule => ⟨skip, rule⟩

/-- A draft in which it is known which rules there are, and what is skipped. -/
def Draft.withScope (d : Draft) (noSkip mainSkip : Term) (scope : List ScopedRule) : Draft :=
  { d with
    noSkip, scope
    skipTerms := if mainSkip = noSkip then [mainSkip] else [noSkip, mainSkip] }

/-- A draft in which all names but those of top rules are declared. Rules have other names than
tokens, and no two of them have the same. -/
structure Draft.Opened (d : Draft) (decl : GrammarDecl) (noSkip mainSkip : Term)
    (skips : List Term) : Prop extends Draft.Opening decl d where
  scope_eq : d.scope = decl.scopedRules mainSkip skips
  skipTerms_eq : d.skipTerms = if mainSkip = noSkip then [mainSkip] else [noSkip, mainSkip]
  isTerminal : ∀ t ∈ noSkip :: mainSkip :: skips, d.terms.isTerminal t = false
  mainSkip_ne : decl.mainSkip.isSome = true ↔ mainSkip ≠ noSkip
  scope_names : (d.scope.map fun s => s.rule.id.name).Nodup
  scope_new : ∀ s ∈ d.scope, s.rule.id.name ∉ d.externalNames ∧
    ∀ r ∈ decl.tokenRules, r.id.name ≠ s.rule.id.name

/-- The drafts between the steps of working through all declarations: when names are declared,
and when the main skip expression, those of scopes, the top rules, external specializers and
exported rules have been worked through. -/
structure Stages (ctx : Declared) (b : Blueprint) where
  noSkip : Term
  mainSkip : Term
  skips : List Term
  groups : List ExternalGroup
  opened : Draft
  afterMain : Draft
  afterScopes : Draft
  afterTops : Draft
  afterSpecial : Draft
  afterExports : Draft
  isOpened : opened.Opened ctx.decl noSkip mainSkip skips
  skips_run : ∃ d d', d.terms.isTerminal noSkip = false ∧ d.terms.isTerminal mainSkip = false ∧
    Build.scopeSkips ctx.decl.mainSkip mainSkip noSkip [] ctx.decl.scopedSkips ctx d =
      .ok skips d'
  main : (∃ e phrases d, ctx.decl.mainSkip = some e ∧
      Build.normalize noSkip e ctx opened = .ok phrases d ∧
      afterMain = d.withRules mainSkip noSkip phrases) ∨
    (ctx.decl.mainSkip = none ∧ afterMain = opened)
  scopes : ((ctx.decl.scopedSkips.zip skips).forM (Build.buildScopeSkip noSkip)) ctx afterMain =
    .ok ⟨⟩ afterScopes
  top : (((ctx.decl.scopedTops mainSkip skips).mergeSort fun a b =>
      a.rule.id.start ≤ b.rule.id.start).forM Build.buildTop) ctx afterScopes =
    .ok ⟨⟩ afterTops
  special : ((ctx.decl.externalSpecializers.zip groups).forM (Build.resolveSpecializer noSkip))
    ctx afterTops = .ok ⟨⟩ afterSpecial
  exports : ((ctx.decl.scopedRules mainSkip skips).forM Build.buildExported) ctx afterSpecial =
    .ok ⟨⟩ afterExports
  final : Draft.Quietly ctx.decl afterExports b.draft
  decl_eq : b.decl = ctx.decl

namespace Build

open Draft (Grows Supplies Quietly Silently Opens)

variable {α β : Type} {ctx : Declared} {d d' : Draft}

/-- One of two actions, before another one. -/
theorem Yields.either {c : Prop} {_ : Decidable c} {m m' : Build α} {f : α → Build β}
    {Q : α → Draft → Prop} {S : β → Draft → Prop} (hm : c → Yields ctx d m Q)
    (hm' : ¬ c → Yields ctx d m' Q) (hf : ∀ a d₁, Q a d₁ → Yields ctx d₁ (f a) S) :
    Yields ctx d (if c then m >>= f else m' >>= f) S := by
  split
  · exact (hm ‹_›).bind hf
  · exact (hm' ‹_›).bind hf

/-- When the names of rules are declared and what is skipped where is known, no step has been
taken so far. -/
theorem opened_of_opening {d₃ d₄ : Draft} {noSkip mainSkip : Term} {skips : List Term}
    (hd : d.Opening ctx.decl)
    (htokens : ∀ r ∈ ctx.decl.tokenRules, r.id.name ∈ d.names.map DeclaredName.name)
    (hquiet : Quietly ctx.decl d d₃) (hd₄ : Supplies ctx.decl d₃ d₄)
    (hnames : d₄.names.map DeclaredName.name = d₃.names.map DeclaredName.name ++
      (ctx.decl.scopedRules mainSkip skips).map fun s => s.rule.id.name)
    (hskips : ∀ t ∈ noSkip :: mainSkip :: skips, d₃.terms.isTerminal t = false)
    (hne : ctx.decl.mainSkip.isSome = true ↔ mainSkip ≠ noSkip) :
    (d₄.withScope noSkip mainSkip (ctx.decl.scopedRules mainSkip skips)).Opened
      ctx.decl noSkip mainSkip skips := by
  have hsupplies := trans_of (Supplies ctx.decl) hquiet.toSupplies hd₄
  have hopening := hsupplies.opens.opening hd
  have hnoted : d₃.names.map DeclaredName.name = d.names.map DeclaredName.name :=
    congrArg (fun noted => noted.2.2) hquiet.noted_eq
  rw [hnoted] at hnames
  obtain ⟨_, hnodup, hdisjoint⟩ := List.nodup_append'.mp (hnames ▸ hopening.tidy.names)
  have hexternal : d₄.externalNames = d.externalNames := by
    rw [Draft.externalNames, hsupplies.external_eq.1, hsupplies.external_eq.2,
      Draft.externalNames]
  refine { hopening with
    tidy := { hopening.tidy with }, scope_eq := rfl, skipTerms_eq := rfl
    isTerminal := fun t ht => ?_, mainSkip_ne := hne, scope_names := hnodup
    scope_new := fun s hs => ⟨fun hname => ?_, fun r hr heq => ?_⟩ }
  · exact hd₄.isTerminal (hskips t ht)
  · exact hdisjoint (hd.external _ (hexternal ▸ hname)) (List.mem_map_of_mem hs)
  · exact hdisjoint (heq ▸ htokens r hr) (List.mem_map_of_mem hs)

/-- The steps after the main skip expression. -/
theorem yields_steps {opened : Draft} {noSkip mainSkip : Term} {skips : List Term}
    (hopened : opened.Opened ctx.decl noSkip mainSkip skips)
    (hskips : ∃ d d', d.terms.isTerminal noSkip = false ∧ d.terms.isTerminal mainSkip = false ∧
      scopeSkips ctx.decl.mainSkip mainSkip noSkip [] ctx.decl.scopedSkips ctx d = .ok skips d')
    (hmain : (∃ e phrases d₀, ctx.decl.mainSkip = some e ∧
        normalize noSkip e ctx opened = .ok phrases d₀ ∧
        d = d₀.withRules mainSkip noSkip phrases) ∨
      (ctx.decl.mainSkip = none ∧ d = opened)) :
    Yields ctx d (do
      (ctx.decl.scopedSkips.zip skips).forM (buildScopeSkip noSkip)
      if (ctx.decl.scopedTops mainSkip skips).isEmpty then raise .missingTop none
      ((ctx.decl.scopedTops mainSkip skips).mergeSort fun a b =>
        a.rule.id.start ≤ b.rule.id.start).forM buildTop
      (ctx.decl.externalSpecializers.zip (← get).externalSpecializers).forM
        (resolveSpecializer noSkip)
      (ctx.decl.scopedRules mainSkip skips).forM buildExported) fun _ d' =>
        ∀ b : Blueprint, b.decl = ctx.decl → Quietly ctx.decl d' b.draft →
          Nonempty (Stages ctx b) := by
  refine Yields.bind (fun _ _ h => h) fun _ d₁ hscopes => ?_
  split
  · exact (yields_raise _ _).bind fun _ _ h => h
  refine Yields.bind (fun _ _ h => h) fun _ d₂ htops => yields_get_bind ?_
  refine Yields.bind (fun _ _ h => h) fun _ d₃ hspecial _ d₄ hexports b hdecl hfinal => ?_
  exact ⟨⟨noSkip, mainSkip, skips, _, opened, d, d₁, d₂, d₃, d₄, hopened, hskips, hmain, hscopes,
    htops, hspecial, hexports, hfinal, hdecl⟩⟩

/-- Building rules goes through stages. -/
theorem yields_buildRules (hd : d.Opening ctx.decl)
    (htokens : ∀ r ∈ ctx.decl.tokenRules, r.id.name ∈ d.names.map DeclaredName.name) :
    Yields ctx d buildRules fun _ d' => ∀ b : Blueprint, b.decl = ctx.decl →
      Quietly ctx.decl d' b.draft → Nonempty (Stages ctx b) := by
  refine yields_read_bind ((yields_newSkip _).bind fun noSkip d₁ ⟨hd₁, _, hno⟩ => ?_)
  refine Yields.either (Q := fun mainSkip d₂ => Quietly ctx.decl d₁ d₂ ∧
      d₂.terms.isTerminal mainSkip = false ∧ (ctx.decl.mainSkip.isSome ↔ mainSkip ≠ noSkip))
    (fun hsome => ?_) (fun hnone => ?_) fun mainSkip d₂ ⟨hd₂, hmain, hne⟩ => ?_
  · intro mainSkip d₂ h
    obtain ⟨hd₂, hindex, hmain⟩ := yields_newSkip _ _ _ h
    refine ⟨hd₂, hmain, iff_of_true hsome fun heq => ?_⟩
    have hlt := TermTable.lt_size_of_isTerminal hno
    rw [← heq, hindex] at hlt
    exact Nat.lt_irrefl _ hlt
  · exact yields_pure ⟨refl_of (Quietly ctx.decl) d₁, hno, iff_of_false hnone (absurd rfl)⟩
  have hno₂ := hd₂.isTerminal hno
  refine Yields.bind (fun _ _ h => h) fun skips d₃ hrun => ?_
  obtain ⟨hd₃, hskips⟩ := yields_scopeSkips _ hmain hno₂ [] nofun _ skips d₃ hrun
  have hquiet := trans_of (Quietly ctx.decl) hd₁ (trans_of (Quietly ctx.decl) hd₂ hd₃)
  refine (yields_declareNames (fun s : ScopedRule => s.rule.id) _).bind
    fun _ d₄ ⟨hd₄, hnames⟩ => yields_modify_bind ?_
  have hopened := opened_of_opening hd htokens hquiet hd₄ hnames (fun t ht => ?_) hne
  on_goal 2 =>
    rcases List.mem_cons.mp ht with rfl | ht
    · exact hd₃.isTerminal hno₂
    rcases List.mem_cons.mp ht with rfl | ht
    · exact hd₃.isTerminal hmain
    · exact hskips t ht
  change Yields ctx (d₄.withScope noSkip mainSkip (ctx.decl.scopedRules mainSkip skips)) _ _
  dsimp only
  split
  next e he =>
    refine Yields.bind (fun _ _ h => h) fun phrases d₅ hd₅ => yields_modify_bind ?_
    exact yields_steps hopened ⟨d₂, d₃, hno₂, hmain, hrun⟩ (.inl ⟨e, phrases, d₅, he, hd₅, rfl⟩)
  next hnone =>
    exact yields_steps hopened ⟨d₂, d₃, hno₂, hmain, hrun⟩
      (.inr ⟨Option.eq_none_iff_forall_ne_some.mpr hnone, rfl⟩)

theorem silently_warnUnused : Along ctx (Silently ctx.decl) warnUnused := by
  refine Along.get.bind fun d => .forM fun n _ => ?_
  split
  · exact .pure ()
  · exact silently_warn _ _

theorem silently_readPrecedence (ranks : List TokenRank) (decl : TokenPrecedence) :
    Along ctx (Silently ctx.decl) (readPrecedence ranks decl) := by
  refine Along.get.bind fun d => (Along.foldlM (fun state item => ?_) _).bind fun _ => .pure _
  exact .when (silently_warn _ _) fun _ => .pure _

theorem silently_readConflict (decl : TokenConflictDecl) :
    Along ctx (Silently ctx.decl) (readConflict decl) := by
  have htoken (e : Expr) : Along ctx (Silently ctx.decl) (conflictToken e) :=
    Along.get.bind fun d => .when (silently_warn _ _) fun _ => .pure _
  exact (htoken _).bind fun _ => (htoken _).bind fun _ => .pure _

/-- Marking the members of a group only changes props. -/
theorem silently_markGroup {group : GroupDef} (h : d.markGroup group = .ok d') :
    Silently ctx.decl d d' := by
  rw [Draft.markGroup] at h
  cases hm : d.members group with
  | error e =>
    rw [hm] at h
    cases h
  | ok members =>
    rw [hm] at h
    cases h
    clear hm
    induction members generalizing d with
    | nil => exact refl_of (Silently ctx.decl) d
    | cons t members ih =>
      have hmark : Silently ctx.decl d
          { d with terms := d.terms.modify t (Draft.addGroup group.group) } :=
        silently_modifyTerm (t := t) (f := Draft.addGroup group.group) (fun _ => rfl) d ⟨⟩ _ rfl
      exact trans_of (Silently ctx.decl) hmark ih

theorem silently_defineGroups : Along ctx (Silently ctx.decl) defineGroups := by
  refine Along.get.bind fun d => (Along.forIn fun group _ _ => ?_).bind fun _ =>
    Along.get.bind fun _ => .forM fun _ _ => silently_warn _ _
  intro d step d' h
  obtain ⟨_, _, ⟨⟩, h⟩ := exists_ok_of_bind h
  obtain ⟨marked, d₁, h₁, h⟩ := exists_ok_of_bind h
  cases hm : d.markGroup group with
  | error e =>
    rw [hm] at h₁
    cases h₁
  | ok found =>
    rw [hm] at h₁
    cases h₁
    cases h
    exact silently_markGroup hm

/-- Working through all declarations goes through stages. -/
theorem yields_blueprint : Yields ctx {} blueprint fun b _ => Nonempty (Stages ctx b) := by
  have hopening : Draft.Opening ctx.decl {} :=
    ⟨⟨nofun, nofun, nofun, .nil, .nil, nofun⟩, rfl, rfl, rfl, rfl, nofun, fun _ _ => ⟨rfl, rfl⟩⟩
  refine yields_read_bind ((yields_declareNames RuleDecl.id _).bind fun _ d₁ ⟨hd₁, hnames⟩ => ?_)
  refine opens_declareExternals.yields.bind fun _ d₂ hd₂ => ?_
  have hopening₂ := hd₂.opening (hd₁.opens.opening hopening)
  refine (yields_buildRules hopening₂ fun r hr => hd₂.names.subset ?_).bind fun _ d₃ hstages => ?_
  · exact hnames ▸ List.mem_append_right _ (List.mem_map_of_mem hr)
  refine silently_warnUnused.quietly.yields.bind fun _ d₄ hd₄ => ?_
  refine (Along.foldlM silently_readPrecedence _).quietly.yields.bind fun ranks d₅ hd₅ => ?_
  refine (Along.mapM fun entry _ => silently_readConflict entry).quietly.yields.bind
    fun conflicts d₆ hd₆ => ?_
  refine silently_defineGroups.quietly.yields.bind fun _ d₇ hd₇ => ?_
  refine yields_modify_bind (yields_get_bind (yields_pure (hstages _ rfl ?_)))
  have hquiet := trans_of (Quietly ctx.decl) hd₄ (trans_of (Quietly ctx.decl) hd₅
    (trans_of (Quietly ctx.decl) hd₆ hd₇))
  have hnote (journal : Journal) : Quietly ctx.decl d₇ { d₇ with journal } :=
    .of_terms_eq rfl rfl rfl
  exact trans_of (Quietly ctx.decl) hquiet (hnote _)

end Build

/-! ## §4 Rules -/

namespace Draft

variable {decl : GrammarDecl} {skips : List Term} {opened d d' : Draft} {t : Term}

/-- Symbols that are there and have no rules get none while other things are worked through. -/
theorem Grows.name_ne (h : Grows decl 0 d d') (ht : t.index < d.terms.size)
    (hnone : ∀ r ∈ d.rules, r.name ≠ t) : ∀ r ∈ d'.rules, r.name ≠ t := by
  obtain ⟨new, hrules, hnew⟩ := h.rules
  intro r hr heq
  rw [hrules] at hr
  rcases List.mem_append.mp hr with hr | hr
  · exact hnone r hr heq
  · rcases hnew r hr with hlt | hle
    · exact Nat.not_lt_zero _ hlt
    · exact Nat.not_lt.mpr (heq ▸ hle) ht

theorem grows_withSkip (d : Draft) (skip : Term) : Grows decl 0 d (d.withSkip skip) where
  __ := Grows.refl decl 0 d
  skipTerms := List.prefix_append _ _
  tidy hd := { hd with }

/-- `Reaches decl skips opened d`: the steps have come from `opened` to `d`, and what is still to
be skipped somewhere has no rules. -/
structure Reaches (decl : GrammarDecl) (skips : List Term) (opened d : Draft) : Prop where
  grows : Grows decl opened.terms.size opened d
  lt_size : ∀ t ∈ skips, t.index < opened.terms.size
  pending : ∀ t ∈ skips, t ∈ d.skipTerms ∨ ∀ r ∈ d.rules, r.name ≠ t

theorem Reaches.of_grows (h : Reaches decl skips opened d) (hd : Grows decl 0 d d') :
    Reaches decl skips opened d' where
  grows := h.grows.trans (hd.mono _)
  lt_size := h.lt_size
  pending t ht := (h.pending t ht).imp (hd.skipTerms.subset ·)
    (hd.name_ne (Nat.lt_of_lt_of_le (h.lt_size t ht) h.grows.size_le))

/-- What is skipped gets its rules. -/
theorem Reaches.withRules (h : Reaches decl skips opened d) (ht : t.index < opened.terms.size)
    (hmem : t ∈ d.skipTerms) (hnone : ∀ r ∈ d.rules, r.name ≠ t) (skip : Term)
    (phrases : List Phrase) : Reaches decl skips opened (d.withRules t skip phrases) where
  grows := h.grows.withRules (.inl ht) (Nat.lt_of_lt_of_le ht h.grows.size_le) (fun _ => hnone) _ _
  lt_size := h.lt_size
  pending u hu := by
    by_cases heq : u = t
    · exact .inl (heq ▸ hmem)
    · refine (h.pending u hu).imp_right fun hold r hr => ?_
      rcases List.mem_append.mp hr with hr | hr
      · exact hold r hr
      · exact name_of_mem_rulesFrom hr ▸ Ne.symm heq

end Draft

namespace Build

open Draft (Grows Reaches)

variable {ctx : Declared} {skips : List Term} {opened d d' : Draft}

theorem reaches_buildScopeSkip (noSkip : Term) (s : ScopedSkip) {skip : Term}
    (hskip : skip ∈ skips) (hd : Reaches ctx.decl skips opened d) :
    Yields ctx d (buildScopeSkip noSkip (s, skip)) fun _ d' =>
      Reaches ctx.decl skips opened d' := by
  intro _ d' h
  have hwith : Grows ctx.decl 0 d (d.withSkip skip) := Draft.grows_withSkip d skip
  rcases yields_buildScopeSkip noSkip s skip _ d' h with ⟨_, rfl⟩ | ⟨_, rfl⟩ |
    ⟨hnew, _, phrases, d₁, hnormal, rfl⟩
  · exact hd
  · exact hd.of_grows hwith
  · have hgrows := grows_normalize _ _ _ _ _ hnormal
    have hlt := hd.lt_size skip hskip
    have hmem : skip ∈ (d.withSkip skip).skipTerms :=
      List.mem_append_right _ (List.mem_singleton_self _)
    refine ((hd.of_grows hwith).of_grows hgrows).withRules hlt (hgrows.skipTerms.subset hmem) ?_ _ _
    exact hgrows.name_ne (Nat.lt_of_lt_of_le hlt hd.grows.size_le)
      ((hd.pending skip hskip).resolve_left hnew)

/-- What every action in a list keeps, all of them keep. -/
theorem forM_induction {α : Type} {P : Draft → Prop} {f : α → Build PUnit} {l : List α}
    (hf : ∀ a ∈ l, ∀ d, P d → Yields ctx d (f a) fun _ d' => P d') (hd : P d)
    (h : l.forM f ctx d = .ok ⟨⟩ d') : P d' := by
  induction l generalizing d with
  | nil =>
    cases h
    exact hd
  | cons a l ih =>
    obtain ⟨_, d₁, h₁, h₂⟩ := exists_ok_of_bind h
    exact ih (fun b hb => hf b (List.mem_cons_of_mem a hb))
      (hf a List.mem_cons_self d hd _ _ h₁) h₂

end Build

namespace Stages

open Build
open Draft (Grows Reaches)

variable {ctx : Declared} {b : Blueprint}

theorem lt_size (s : Stages ctx b) {t : Term} (ht : t ∈ s.noSkip :: s.mainSkip :: s.skips) :
    t.index < s.opened.terms.size :=
  TermTable.lt_size_of_isTerminal (s.isOpened.isTerminal t ht)

theorem reaches_main (s : Stages ctx b) : Reaches ctx.decl s.skips s.opened s.afterMain := by
  have hopened : Reaches ctx.decl s.skips s.opened s.opened :=
    ⟨.refl _ _ _, fun t ht => s.lt_size (.tail _ (.tail _ ht)),
      fun t _ => .inr (s.isOpened.rules_eq ▸ nofun)⟩
  rcases s.main with ⟨e, phrases, d, hmain, hnormal, heq⟩ | ⟨_, heq⟩
  · have hgrows := grows_normalize _ _ _ _ _ hnormal
    have hlt := s.lt_size (.tail _ (.head _))
    have hne := s.isOpened.mainSkip_ne.mp (hmain ▸ rfl)
    rw [heq]
    refine (hopened.of_grows hgrows).withRules hlt (hgrows.skipTerms.subset ?_)
      (hgrows.name_ne hlt (s.isOpened.rules_eq ▸ nofun)) _ _
    rw [s.isOpened.skipTerms_eq, if_neg hne]
    exact .tail _ (.head _)
  · exact heq ▸ hopened

theorem reaches_scopes (s : Stages ctx b) : Reaches ctx.decl s.skips s.opened s.afterScopes :=
  forM_induction (fun entry hentry _ hd =>
    reaches_buildScopeSkip s.noSkip entry.1 (List.of_mem_zip hentry).2 hd) s.reaches_main s.scopes

/-- Later drafts come of the one in which names are declared. -/
theorem grows (s : Stages ctx b) :
    Grows ctx.decl s.opened.terms.size s.opened b.draft := by
  have hlow : 0 < s.opened.terms.size := Nat.zero_lt_of_lt (s.lt_size (.head _))
  have htop (entry : ScopedRule) :
      Along ctx (Grows ctx.decl s.opened.terms.size) (buildTop entry) := by
    intro d _ d' h
    obtain ⟨t, d₁, phrases, d₂, henter, _, hnormal, rfl⟩ :=
      yields_buildTop hlow entry.skip entry.rule _ d' h
    exact henter.grows (grows_normalize _ _ _ _ _ hnormal) _ _
  have hspecial (entry : ExternalSpecializerDecl × ExternalGroup) :
      Along ctx (Grows ctx.decl 0) (resolveSpecializer s.noSkip entry) := by
    intro d _ d' h
    obtain ⟨phrases, d₁, hnormal, hquiet⟩ := yields_resolveSpecializer s.noSkip entry _ d' h
    exact (grows_normalize _ _ _ _ _ hnormal).trans hquiet.toGrows
  have hexport (entry : ScopedRule) : Along ctx (Grows ctx.decl 0) (buildExported entry) := by
    intro d _ d' h
    rcases yields_buildExported entry.skip entry.rule _ d' h with rfl |
      ⟨_, _, t, d₁, hbuild, hquiet⟩
    · exact .refl _ _ _
    · exact (grows_buildRule grows_normalize _ _ _ _ _ _ _ hbuild).trans hquiet.toGrows
  have htops := Along.forM (fun entry _ => htop entry) _ _ _ s.top
  have hspecials := Along.forM (fun entry _ => hspecial entry) _ _ _ s.special
  have hexports := Along.forM (fun entry _ => hexport entry) _ _ _ s.exports
  exact s.reaches_scopes.grows.trans (htops.trans
    ((hspecials.trans (hexports.trans s.final.toGrows)).mono _))

end Stages

/-- The steps of working through a grammar text. -/
theorem Blueprint.exists_stages {source : Text.Source} {b : Blueprint} {journal : Journal}
    (h : Blueprint.ofSource source = (.ok b, journal)) :
    Nonempty (Stages ⟨source, b.decl⟩ b) := by
  rw [ofSource] at h
  split at h
  next => cases h
  next decl _ =>
    split at h
    next hrun =>
      cases h
      obtain ⟨s⟩ := Build.yields_blueprint b _ hrun
      obtain rfl : b.decl = decl := s.decl_eq
      exact ⟨s⟩
    next => cases h

/-- What is worked through is what the grammar text declares. -/
theorem Blueprint.parse_of_ofSource {source : Text.Source} {b : Blueprint} {journal : Journal}
    (h : Blueprint.ofSource source = (.ok b, journal)) :
    GrammarDecl.parse source = .ok b.decl := by
  rw [ofSource] at h
  split at h
  next => cases h
  next decl hparse =>
    split at h
    next hrun =>
      cases h
      obtain ⟨s⟩ := Build.yields_blueprint b _ hrun
      exact s.decl_eq ▸ hparse
    next => cases h

/-- The rules of a grammar text stand in stretches, and its tokens are terminals. -/
theorem Blueprint.tidy_of_ofSource {source : Text.Source} {b : Blueprint} {journal : Journal}
    (h : Blueprint.ofSource source = (.ok b, journal)) : b.draft.Tidy b.decl :=
  have ⟨s⟩ := exists_stages h
  s.grows.tidy s.isOpened.tidy

end GrammarCompiler
