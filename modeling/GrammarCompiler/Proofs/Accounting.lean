/-
GrammarCompiler.Proofs.Accounting — what the symbols of a draft are built from.

What is skipped, the top rules and the rest are worked through one after another.
When that is done, each symbol with rules has those of what it was built from: an
expression that is skipped, the body of a rule, a repeat, or a rule in place.

  §1 Skipping — which scopes share a symbol for what they skip.
  §2 Steps    — what has its rules after each step.
  §3 Symbols  — the account of all symbols.
-/
import GrammarCompiler.Proofs.Flattening

namespace GrammarCompiler

/-! ## §1 Skipping -/

theorem Expr.shown_of_isEmpty {e : Expr} (h : e.isEmpty = true) : e.shown = "()" := by
  cases e with
  | sequence start elements markers => exact if_pos h
  | _ => cases h

/-- Expressions with one symbol print alike. Those with the symbol of the main skip expression
print like it, and those with the symbol for skipping nothing like one that is empty. -/
structure SharesAlike (main : Option Expr) (mainSkip noSkip : Term)
    (known : List (Expr × Term)) : Prop where
  same : ∀ p ∈ known, ∀ q ∈ known, p.2 = q.2 → p.1.shown = q.1.shown
  main : ∀ p ∈ known, p.2 = mainSkip → ∀ e ∈ main, e.shown = p.1.shown
  empty : ∀ p ∈ known, p.2 = noSkip → ∃ q ∈ known, q.1.isEmpty = true ∧ q.1.shown = p.1.shown

namespace SharesAlike

variable {main : Option Expr} {mainSkip noSkip : Term} {known : List (Expr × Term)}

/-- One more expression that prints like those that have its symbol. -/
theorem snoc (h : SharesAlike main mainSkip noSkip known) {e : Expr} {skip : Term}
    (hsame : ∀ p ∈ known, p.2 = skip → p.1.shown = e.shown)
    (hmain : skip = mainSkip → ∀ e' ∈ main, e'.shown = e.shown)
    (hempty : skip = noSkip →
      e.isEmpty = true ∨ ∃ q ∈ known, q.1.isEmpty = true ∧ q.1.shown = e.shown) :
    SharesAlike main mainSkip noSkip (known ++ [(e, skip)]) where
  same p hp q hq heq := by
    rcases List.mem_append.mp hp with hp | hp <;> rcases List.mem_append.mp hq with hq | hq
    · exact h.same p hp q hq heq
    · obtain rfl := List.mem_singleton.mp hq
      exact hsame p hp heq
    · obtain rfl := List.mem_singleton.mp hp
      exact (hsame q hq heq.symm).symm
    · rw [List.mem_singleton.mp hp, List.mem_singleton.mp hq]
  main p hp heq := by
    rcases List.mem_append.mp hp with hp | hp
    · exact h.main p hp heq
    · obtain rfl := List.mem_singleton.mp hp
      exact hmain heq
  empty p hp heq := by
    rcases List.mem_append.mp hp with hp | hp
    · obtain ⟨q, hq, hrest⟩ := h.empty p hp heq
      exact ⟨q, List.mem_append_left _ hq, hrest⟩
    · obtain rfl := List.mem_singleton.mp hp
      rcases hempty heq with hempty | ⟨q, hq, hrest⟩
      · exact ⟨_, List.mem_append_right _ (List.mem_singleton_self _), hempty, rfl⟩
      · exact ⟨q, List.mem_append_left _ hq, hrest⟩

end SharesAlike

namespace Build

variable {ctx : Declared} {d : Draft}

/-- Scopes share a symbol only if what they skip prints alike. -/
theorem sharesAlike_scopeSkips {main : Option Expr} {mainSkip noSkip : Term}
    (hmain : mainSkip.index < d.terms.size) (hno : noSkip.index < d.terms.size)
    (hne : main.isSome = true → mainSkip ≠ noSkip) {known : List (Expr × Term)}
    (hknown : SharesAlike main mainSkip noSkip known)
    (hlt : ∀ p ∈ known, p.2.index < d.terms.size) (scopes : List ScopedSkip) :
    Yields ctx d (scopeSkips main mainSkip noSkip known scopes) fun skips _ =>
      skips.length = scopes.length ∧
        SharesAlike main mainSkip noSkip (known ++ (scopes.map ScopedSkip.expr).zip skips) := by
  induction scopes generalizing d known with
  | nil => exact yields_pure ⟨rfl, by rwa [List.map_nil, List.zip_nil_left, List.append_nil]⟩
  | cons s scopes ih =>
    have hrest {d₁ : Draft} {skip : Term} (hsize : d.terms.size ≤ d₁.terms.size)
        (hskip : skip.index < d₁.terms.size)
        (hshares : SharesAlike main mainSkip noSkip (known ++ [(s.expr, skip)])) :
        Yields ctx d₁ (do
          return skip :: (← scopeSkips main mainSkip noSkip (known ++ [(s.expr, skip)]) scopes))
          fun skips _ => skips.length = (s :: scopes).length ∧ SharesAlike main mainSkip noSkip
            (known ++ ((s :: scopes).map ScopedSkip.expr).zip skips) := by
      refine Yields.bind (ih (Nat.lt_of_lt_of_le hmain hsize) (Nat.lt_of_lt_of_le hno hsize)
        hshares fun p hp => ?_) fun skips d₂ hd₂ => yields_pure ?_
      · rcases List.mem_append.mp hp with hp | hp
        · exact Nat.lt_of_lt_of_le (hlt p hp) hsize
        · rw [List.mem_singleton.mp hp]
          exact hskip
      · obtain ⟨hlength, hall⟩ := hd₂
        rw [List.append_assoc] at hall
        exact ⟨congrArg Nat.succ hlength, hall⟩
    rw [scopeSkips]
    split
    next k skip hfind =>
      have hmem := List.mem_of_find?_eq_some hfind
      have hsame : k.shown = s.expr.shown := by simpa [Expr.same] using List.find?_some hfind
      refine hrest (Nat.le_refl _) (hlt _ hmem) (hknown.snoc (fun p hp heq => ?_)
        (fun heq e he => ?_) fun heq => .inr ?_)
      · exact (hknown.same p hp _ hmem heq).trans hsame
      · exact (hknown.main _ hmem heq e he).trans hsame
      · obtain ⟨q, hq, hempty, hshown⟩ := hknown.empty _ hmem heq
        exact ⟨q, hq, hempty, hshown.trans hsame⟩
    next hnew =>
      split
      next hany =>
        cases main with
        | none => cases hany
        | some e =>
          have hsame : e.shown = s.expr.shown := by simpa [Expr.same] using hany
          refine hrest (Nat.le_refl _) hmain (hknown.snoc (fun p hp heq => ?_)
            (fun _ e' he' => ?_) fun heq => absurd heq (hne rfl))
          · exact (hknown.main p hp heq e rfl).symm.trans hsame
          · rwa [← Option.some.inj he']
      next =>
        split
        next hempty =>
          refine hrest (Nat.le_refl _) hno (hknown.snoc (fun p hp heq => ?_)
            (fun heq e he => ?_) fun _ => .inl hempty)
          · obtain ⟨q, _, hq, hshown⟩ := hknown.empty p hp heq
            rw [← hshown, Expr.shown_of_isEmpty hq, Expr.shown_of_isEmpty hempty]
          · exact absurd heq.symm (hne (he ▸ rfl))
        next =>
          refine (yields_newSkip _).bind fun skip d₁ hd₁ => ?_
          obtain ⟨hd₁, hindex, hskip⟩ := hd₁
          have hnew {t : Term} (ht : t.index < d.terms.size) : t ≠ skip := by
            rintro rfl
            exact Nat.ne_of_lt ht hindex
          exact hrest hd₁.size_le (TermTable.lt_size_of_isTerminal hskip)
            (hknown.snoc (fun p hp heq => absurd heq (hnew (hlt p hp)))
              (fun heq => absurd heq.symm (hnew hmain)) fun heq => absurd heq.symm (hnew hno))

end Build

/-! ## §2 Steps -/

namespace Draft

/-- Everything that a draft remembers has its rules. Only that has rules, and so have some symbols
that are known, and those at the top. -/
structure Done (decl : GrammarDecl) (low : Nat) (known : List Term) (d : Draft) : Prop where
  ready : d.Ready decl
  rule : ∀ i ∈ d.ruleInstances, RuleDone decl low d i
  repeated : ∀ i ∈ d.repeatInstances, RepeatDone decl low d i
  comes : ∀ r ∈ d.rules, r.name ∈ known ∨ r.name ∈ d.terms.tops ∨ Comes decl low d r.name

variable {decl : GrammarDecl} {low low' : Nat} {known : List Term} {d d₁ d₂ d' : Draft}
  {skip t : Term}

theorem Done.anti (h : Done decl low known d) (hlow : low' ≤ low) : Done decl low' known d where
  ready := h.ready
  rule i hi := (h.rule i hi).mono (.refl decl _ d) hlow
  repeated i hi := (h.repeated i hi).mono (.refl decl _ d) hlow
  comes r hr := (h.comes r hr).imp_right fun hr => hr.imp_right fun hr =>
    hr.mono (.refl decl _ d) hlow

/-- After more has been worked through, and a known symbol or one at the top has got its rules,
everything has its rules again. -/
theorem Done.grows (h : Done decl low known d) (hin : Grows decl low d d₁)
    (hrules : d₁.ruleInstances = d.ruleInstances)
    (hrepeats : d₁.repeatInstances = d.repeatInstances)
    (hold : d₁.rules = d.rules) (hworks : Works decl d₁ d₂) (hlow : low ≤ d₁.terms.size)
    (hall : Grows decl low d d') (hnew : Grows decl d₁.terms.size d₂ d')
    (hrules' : d'.ruleInstances = d₂.ruleInstances)
    (hrepeats' : d'.repeatInstances = d₂.repeatInstances)
    (htops : ∀ t ∈ d.terms.tops, t ∈ d'.terms.tops)
    (hnames : ∀ r ∈ d'.rules, r ∈ d₂.rules ∨ r.name ∈ known ∨ r.name ∈ d'.terms.tops) :
    Done decl low known d' where
  ready := ((h.ready.of_grows hin hrules hrepeats).later hworks).of_grows hnew hrules' hrepeats'
  rule i hi := by
    rcases hworks.rule i (hrules' ▸ hi) with hi | hi
    · exact (h.rule i (hrules ▸ hi)).mono hall (Nat.le_refl _)
    · exact hi.mono hnew hlow
  repeated i hi := by
    rcases hworks.repeated i (hrepeats' ▸ hi) with hi | hi
    · exact (h.repeated i (hrepeats ▸ hi)).mono hall (Nat.le_refl _)
    · exact hi.mono hnew hlow
  comes r hr := by
    rcases hnames r hr with hr | hr | hr
    · rcases hworks.comes r hr with hr | hr
      · rcases h.comes r (hold ▸ hr) with hr | hr | hr
        · exact .inl hr
        · exact .inr (.inl (htops _ hr))
        · exact .inr (.inr (hr.mono hall (Nat.le_refl _)))
      · exact .inr (.inr (hr.mono hnew hlow))
    · exact .inl hr
    · exact .inr (.inl hr)

/-- Working through more. -/
theorem Done.works (h : Done decl low known d) (hlow : low ≤ d.terms.size)
    (hd' : Works decl d d') : Done decl low known d' :=
  h.grows (.refl decl low d) rfl rfl rfl hd' hlow (hd'.toGrows.mono low) (.refl decl _ d') rfl rfl
    (fun _ ht => hd'.tops_eq rfl ▸ ht) fun _ hr => .inl hr

/-- A known symbol, or one at the top, gets its rules. -/
theorem Done.withRules (h : Done decl low known d) (hin : Grows decl low d d₁)
    (hdeclared : d₁.rules = d.rules ∧ d₁.ruleInstances = d.ruleInstances ∧
      d₁.repeatInstances = d.repeatInstances)
    (hworks : Works decl d₁ d₂) (hlow : low ≤ d₁.terms.size)
    (htops : d.terms.tops <+: d₁.terms.tops)
    (hindex : t.index < low ∨ d.terms.size ≤ t.index) (hlt : t.index < d₁.terms.size)
    (hnone : ∀ r ∈ d₂.rules, r.name ≠ t) (ht : t ∈ known ∨ t ∈ d₁.terms.tops) (skip : Term)
    (phrases : List Phrase) : Done decl low known (d₂.withRules t skip phrases) := by
  have hlt₂ := Nat.lt_of_lt_of_le hlt hworks.size_le
  have htops₂ : d₂.terms.tops = d₁.terms.tops := hworks.tops_eq rfl
  refine h.grows hin hdeclared.2.1 hdeclared.2.2 hdeclared.1 hworks hlow
    ((hin.trans (hworks.toGrows.mono low)).withRules hindex hlt₂ (fun _ => hnone) skip phrases)
    ((Grows.refl decl _ d₂).withRules (.inl hlt) hlt₂ (fun _ => hnone) skip phrases) rfl rfl
    (fun u hu => ?_) fun r hr => ?_
  · exact htops₂.symm ▸ htops.subset hu
  · refine (List.mem_append.mp hr).imp_right fun hr => ?_
    rw [name_of_mem_rulesFrom hr]
    exact ht.imp_right fun ht => htops₂.symm ▸ ht

end Draft

namespace Build

open Draft (Grows Ready Works Done Flat Reaches)

variable {ctx : Declared} {low : Nat} {known : List Term} {d d' : Draft}

/-- Several actions, each of which works something through. -/
theorem works_forM {α : Type} {l : List α} {f : α → Build PUnit}
    (hf : ∀ a ∈ l, ∀ d₁, Works ctx.decl d d₁ → Yields ctx d₁ (f a) fun _ d₂ => Works ctx.decl d₁ d₂)
    (h : l.forM f ctx d = .ok ⟨⟩ d') : Works ctx.decl d d' := by
  refine forM_induction (P := Works ctx.decl d) (fun a ha d₁ hd₁ u d₂ h₂ => ?_)
    (refl_of (Works ctx.decl) d) h
  exact hd₁.trans (hf a ha d₁ hd₁ u d₂ h₂)

end Build

/-! ## §3 Symbols -/

/-- Something is found by what no other member of a list has in common with it. -/
theorem find?_eq_some_of_nodup {α β : Type} [BEq β] [LawfulBEq β] {l : List α} {f : α → β}
    (h : (l.map f).Nodup) {a : α} (ha : a ∈ l) : l.find? (fun x => f x == f a) = some a := by
  cases hfind : l.find? fun x => f x == f a with
  | none => exact absurd (beq_self_eq_true (f a)) (List.find?_eq_none.mp hfind a ha)
  | some x =>
    have hx : f x = f a := by simpa using List.find?_some hfind
    rw [List.inj_on_of_nodup_map h (List.mem_of_find?_eq_some hfind) ha hx]

namespace GrammarDecl

variable (decl : GrammarDecl) (mainSkip : Term) {skips : List Term}

theorem map_rule_flatMap {scopes : List ScopedSkip} (h : skips.length = scopes.length)
    (f : ScopedSkip → List RuleDecl) :
    ((scopes.zip skips).flatMap fun p => (f p.1).map fun rule => ScopedRule.mk p.2 rule).map
      ScopedRule.rule = scopes.flatMap f := by
  induction scopes generalizing skips with
  | nil => rfl
  | cons s scopes ih =>
    cases skips with
    | nil => cases h
    | cons skip skips =>
      rw [List.zip_cons_cons, List.flatMap_cons, List.map_append, ih (Nat.succ.inj h), List.map_map,
        List.flatMap_cons]
      exact congrArg (· ++ _) (List.map_id _)

theorem map_rule_scopedRules (h : skips.length = decl.scopedSkips.length) :
    (decl.scopedRules mainSkip skips).map ScopedRule.rule = decl.allRules := by
  have hscopes := map_rule_flatMap h ScopedSkip.rules
  rw [scopedRules, List.map_append, List.map_map, allRules, ← hscopes]
  exact congrArg (· ++ _) (List.map_id _)

theorem map_rule_scopedTops (h : skips.length = decl.scopedSkips.length) :
    ((decl.scopedTops mainSkip skips).mergeSort fun a b =>
      a.rule.id.start ≤ b.rule.id.start).map ScopedRule.rule = decl.allTops := by
  have hscopes := map_rule_flatMap h ScopedSkip.topRules
  have htops : (decl.scopedTops mainSkip skips).map ScopedRule.rule =
      decl.topRules ++ decl.scopedSkips.flatMap ScopedSkip.topRules := by
    rw [scopedTops, List.map_append, List.map_map, ← hscopes]
    exact congrArg (· ++ _) (List.map_id _)
  rw [List.map_mergeSort (s := fun a b : RuleDecl => decide (a.id.start ≤ b.id.start))
    fun _ _ _ _ => rfl, htops, allTops]

/-- What is skipped somewhere, with the symbols for it. -/
def skipPairs (skips : List Term) : List (Expr × Term) :=
  decl.mainSkip.toList.map (fun e => (e, mainSkip)) ++
    (decl.scopedSkips.map ScopedSkip.expr).zip skips

variable {decl mainSkip}

theorem mem_skipExprs_of_pair {p : Expr × Term} (hp : p ∈ decl.skipPairs mainSkip skips) :
    p.1 ∈ decl.skipExprs := by
  rcases List.mem_append.mp hp with hp | hp
  · obtain ⟨e, he, rfl⟩ := List.mem_map.mp hp
    exact List.mem_append_left _ he
  · exact List.mem_append_right _ (List.of_mem_zip hp).1

theorem occurs_of_mem_skipExprs {e : Expr} (he : e ∈ decl.skipExprs) : decl.Occurs e :=
  .root (List.mem_append_left _ (List.mem_append_left _ (List.mem_append_left _ he)))

end GrammarDecl

namespace Draft

variable {decl : GrammarDecl} {low : Nat} {noSkip t u : Term} {pairs : List (Expr × Term)}
  {d d' : Draft}

/-- A symbol for something to skip has its rules. -/
def SkipDone (decl : GrammarDecl) (low : Nat) (noSkip : Term) (pairs : List (Expr × Term))
    (d : Draft) (t : Term) : Prop :=
  ∃ p ∈ pairs, p.2 = t ∧ ∃ parts, Flat decl low d noSkip p.1 parts ∧ d.HasRules 0 t parts

theorem SkipDone.mono (ht : SkipDone decl low noSkip pairs d t) (h : Grows decl 0 d d') :
    SkipDone decl low noSkip pairs d' t := by
  obtain ⟨p, hp, heq, parts, hflat, hrules⟩ := ht
  exact ⟨p, hp, heq, parts, hflat.mono (h.mono low) (Nat.le_refl _), hrules.mono h (Nat.le_refl _)⟩

/-- A symbol keeps its rules when another one gets rules. -/
theorem SkipDone.withRules (ht : SkipDone decl low noSkip pairs d t) (hne : t ≠ u)
    (hlow : u.index < low) (hlt : u.index < d.terms.size) (hnone : ∀ r ∈ d.rules, r.name ≠ u)
    (skip : Term) (phrases : List Phrase) :
    SkipDone decl low noSkip pairs (d.withRules u skip phrases) t := by
  obtain ⟨p, hp, heq, parts, hflat, hrules⟩ := ht
  have hgrows := (Grows.refl decl low d).withRules (.inl hlow) hlt (fun _ => hnone) skip phrases
  refine ⟨p, hp, heq, parts, hflat.mono hgrows (Nat.le_refl _), { hrules with partsOf_eq := ?_ }⟩
  have hnew : (rulesFrom d.rules.length u skip phrases).filter (fun r => r.name == t) = [] := by
    refine List.filter_eq_nil_iff.mpr fun r hr heq => hne ?_
    rw [← beq_iff_eq.mp heq, name_of_mem_rulesFrom hr]
  rw [← hrules.partsOf_eq, partsOf, Draft.withRules, List.filter_append, hnew, List.append_nil,
    partsOf]

end Draft

namespace Stages

open Build
open Draft (Grows Reaches Ready Done SkipDone Works Stands)

variable {ctx : Declared} {b : Blueprint} (s : Stages ctx b) {d d' : Draft}

/-- What is skipped, with the symbols for it. -/
def pairs : List (Expr × Term) := ctx.decl.skipPairs s.mainSkip s.skips

/-- The symbols for what is skipped, apart from the one for skipping nothing. -/
def skipTerms : List Term := (s.pairs.map Prod.snd).filter (· ≠ s.noSkip)

variable {s} in
theorem mem_skipTerms {p : Expr × Term} (hp : p ∈ s.pairs) (hne : p.2 ≠ s.noSkip) :
    p.2 ∈ s.skipTerms :=
  List.mem_filter.mpr ⟨List.mem_map_of_mem hp, decide_eq_true hne⟩

variable {s} in
theorem mem_skips {p : Expr × Term} (hp : p ∈ s.pairs) :
    p.2 ∈ s.noSkip :: s.mainSkip :: s.skips := by
  rcases List.mem_append.mp hp with hp | hp
  · obtain ⟨e, _, rfl⟩ := List.mem_map.mp hp
    exact .tail _ (.head _)
  · exact .tail _ (.tail _ (List.of_mem_zip hp).2)

theorem shares : s.skips.length = ctx.decl.scopedSkips.length ∧
    SharesAlike ctx.decl.mainSkip s.mainSkip s.noSkip
      ((ctx.decl.scopedSkips.map ScopedSkip.expr).zip s.skips) := by
  obtain ⟨d, d', hno, hmain, hrun⟩ := s.skips_run
  have hempty : SharesAlike ctx.decl.mainSkip s.mainSkip s.noSkip [] := ⟨nofun, nofun, nofun⟩
  exact sharesAlike_scopeSkips (TermTable.lt_size_of_isTerminal hmain)
    (TermTable.lt_size_of_isTerminal hno) s.isOpened.mainSkip_ne.mp hempty nofun _ _ _ hrun

/-- Names refer to the rules of the declarations. -/
theorem ready_opened : s.opened.Ready ctx.decl where
  __ := s.isOpened.tidy
  scope name entry hentry := by
    rw [s.isOpened.scope_eq] at hentry
    rw [GrammarDecl.rule?, ← ctx.decl.map_rule_scopedRules s.mainSkip s.shares.1, List.find?_map]
    exact congrArg (Option.map ScopedRule.rule) hentry
  rule_lt := s.isOpened.ruleInstances_eq ▸ nofun
  repeat_lt := s.isOpened.repeatInstances_eq ▸ nofun
  eof_lt := Nat.zero_lt_of_lt (s.lt_size (.head _))

theorem done_opened (low : Nat) : s.opened.Done ctx.decl low s.skipTerms where
  ready := s.ready_opened
  rule := s.isOpened.ruleInstances_eq ▸ nofun
  repeated := s.isOpened.repeatInstances_eq ▸ nofun
  comes := s.isOpened.rules_eq ▸ nofun

/-- While what is skipped is worked through: everything has its rules, and so have the symbols for
what has been seen. -/
structure Skipping (d : Draft) : Prop where
  reaches : Reaches ctx.decl s.skips s.opened d
  done : d.Done ctx.decl s.opened.terms.size s.skipTerms
  skip : ∀ t ∈ d.skipTerms, t = s.noSkip ∨
    d.SkipDone ctx.decl s.opened.terms.size s.noSkip s.pairs t
  subset : ∀ t ∈ d.skipTerms, t ∈ s.noSkip :: s.mainSkip :: s.skips
  tops_eq : d.terms.tops = []
  name_ne : ∀ r ∈ d.rules, r.name ≠ s.noSkip

variable {s}

/-- Something to skip is worked through, and its symbol gets the phrases for rules. -/
theorem done_skip {inside d' : Draft} {p : Expr × Term} {phrases : List Phrase}
    (hd : d.Done ctx.decl s.opened.terms.size s.skipTerms)
    (hopened : Grows ctx.decl s.opened.terms.size s.opened d) (hin : Grows ctx.decl 0 d inside)
    (hdeclared : inside.rules = d.rules ∧ inside.ruleInstances = d.ruleInstances ∧
      inside.repeatInstances = d.repeatInstances)
    (hp : p ∈ s.pairs) (hne : p.2 ≠ s.noSkip) (hnone : ∀ r ∈ d.rules, r.name ≠ p.2)
    (hno : ∀ r ∈ d.rules, r.name ≠ s.noSkip)
    (hrun : normalize s.noSkip p.1 ctx inside = .ok phrases d') :
    Works ctx.decl inside d' ∧ (∀ r ∈ d'.rules, r.name ≠ p.2) ∧
      (d'.withRules p.2 s.noSkip phrases).Done ctx.decl s.opened.terms.size s.skipTerms ∧
      (d'.withRules p.2 s.noSkip phrases).SkipDone ctx.decl s.opened.terms.size s.noSkip s.pairs
        p.2 ∧ ∀ r ∈ (d'.withRules p.2 s.noSkip phrases).rules, r.name ≠ s.noSkip := by
  have hlt : p.2.index < s.opened.terms.size := s.lt_size (mem_skips hp)
  have hsize := Nat.le_trans hopened.size_le hin.size_le
  have hltIn := Nat.lt_of_lt_of_le hlt hsize
  have hready := hd.ready.of_grows hin hdeclared.2.1 hdeclared.2.2
  obtain ⟨hworks, hflat⟩ := flattens_normalize s.noSkip p.1 inside
    (GrammarDecl.occurs_of_mem_skipExprs (GrammarDecl.mem_skipExprs_of_pair hp)) hready phrases d'
    hrun
  have hnone' : ∀ r ∈ d'.rules, r.name ≠ p.2 :=
    hworks.toGrows.name_ne hltIn (hdeclared.1 ▸ hnone)
  have hlt' := Nat.lt_of_lt_of_le hltIn hworks.size_le
  refine ⟨hworks, hnone', hd.withRules (hin.mono _) hdeclared hworks hsize ?_ (.inl hlt) hltIn
    hnone' (.inl (mem_skipTerms hp hne)) _ _, ⟨p, hp, rfl, phrases.map Phrase.parts, ?_, ?_⟩,
    List.forall_mem_append.mpr ⟨?_, fun r hr => Draft.name_of_mem_rulesFrom hr ▸ hne⟩⟩
  · exact hin.tops_eq rfl ▸ List.prefix_refl _
  · refine hflat.mono ?_ hsize
    exact (Grows.refl ctx.decl _ d').withRules (.inl hltIn) hlt' (fun _ => hnone') _ _
  · have hterminal := (hopened.trans (hin.mono _)).isTerminal
      (s.isOpened.isTerminal p.2 (mem_skips hp))
    exact ⟨Nat.zero_le _, hlt', hworks.isTerminal hterminal,
      Draft.partsOf_withRules hnone' s.noSkip phrases⟩
  · exact hworks.toGrows.name_ne (Nat.lt_of_lt_of_le (s.lt_size (.head _)) hsize)
      (hdeclared.1 ▸ hno)

theorem skipping_main : s.Skipping s.afterMain := by
  have hreaches := s.reaches_main
  rcases s.main with ⟨e, phrases, d, hmain, hrun, heq⟩ | ⟨hnone, heq⟩
  · have hpair : (e, s.mainSkip) ∈ s.pairs :=
      List.mem_append_left _ (List.mem_map_of_mem (Option.mem_toList.mpr hmain))
    have hne : s.mainSkip ≠ s.noSkip := s.isOpened.mainSkip_ne.mp (hmain ▸ rfl)
    obtain ⟨hworks, _, hdone, hskip, hno⟩ := s.done_skip (s.done_opened _) (.refl _ _ _)
      (.refl _ _ _) ⟨rfl, rfl, rfl⟩ hpair hne (s.isOpened.rules_eq ▸ nofun)
      (s.isOpened.rules_eq ▸ nofun) hrun
    have hskips : (d.withRules s.mainSkip s.noSkip phrases).skipTerms = [s.noSkip, s.mainSkip] :=
      hworks.skipTerms_eq.trans (s.isOpened.skipTerms_eq.trans (if_neg hne))
    rw [heq] at hreaches ⊢
    refine ⟨hreaches, hdone, fun t ht => ?_, fun t ht => ?_,
      (hworks.tops_eq rfl).trans s.isOpened.tops_eq, hno⟩
    · rcases List.mem_cons.mp (hskips ▸ ht) with rfl | ht
      · exact .inl rfl
      · rw [List.mem_singleton.mp ht]
        exact .inr hskip
    · exact List.mem_append_left s.skips (hskips ▸ ht)
  · have hno : s.mainSkip = s.noSkip := by
      by_contra hne
      have hsome := s.isOpened.mainSkip_ne.mpr hne
      rw [hnone] at hsome
      cases hsome
    rw [heq] at hreaches ⊢
    have hskips : s.opened.skipTerms = [s.mainSkip] := s.isOpened.skipTerms_eq.trans (if_pos hno)
    refine ⟨hreaches, s.done_opened _, fun t ht => .inl ?_, fun t ht => .tail _ ?_,
      s.isOpened.tops_eq, s.isOpened.rules_eq ▸ nofun⟩
    · exact (List.mem_singleton.mp (hskips ▸ ht)).trans hno
    · exact List.mem_append_left s.skips (hskips ▸ ht)

/-- A scope is worked through. -/
theorem Skipping.buildScopeSkip (hd : s.Skipping d) {entry : ScopedSkip × Term}
    (hentry : entry ∈ ctx.decl.scopedSkips.zip s.skips) :
    Yields ctx d (buildScopeSkip s.noSkip entry) fun _ d' =>
      s.Skipping d' ∧ Grows ctx.decl s.opened.terms.size d d' ∧ entry.2 ∈ d'.skipTerms := by
  intro _ d' h
  obtain ⟨scope, skip⟩ := entry
  have hskips : skip ∈ s.skips := (List.of_mem_zip hentry).2
  have hwith : Grows ctx.decl 0 d (d.withSkip skip) := Draft.grows_withSkip d skip
  have hreaches := reaches_buildScopeSkip s.noSkip scope hskips hd.reaches _ d' h
  rcases yields_buildScopeSkip s.noSkip scope skip _ d' h with ⟨hmem, rfl⟩ | ⟨rfl, rfl⟩ |
    ⟨hnew, hne, phrases, d₁, hrun, rfl⟩
  · exact ⟨hd, .refl _ _ _, hmem⟩
  · refine ⟨⟨hreaches, ?_, fun t ht => ?_, List.forall_mem_append.mpr ⟨hd.subset, ?_⟩, hd.tops_eq,
      hd.name_ne⟩, hwith.mono _, List.mem_append_right _ (List.mem_singleton_self _)⟩
    · exact hd.done.grows (hwith.mono _) rfl rfl rfl (refl_of (Works ctx.decl) _)
        hreaches.grows.size_le (hwith.mono _) (.refl _ _ _) rfl rfl (fun _ ht => ht)
        fun _ hr => .inl hr
    · rcases List.mem_append.mp ht with ht | ht
      · exact (hd.skip t ht).imp_right (·.mono hwith)
      · exact .inl (List.mem_singleton.mp ht)
    · exact List.forall_mem_singleton.mpr (.head _)
  · have hpair : (scope.expr, skip) ∈ s.pairs := by
      refine List.mem_append_right _ ?_
      rw [List.zip_map_left]
      exact List.mem_map_of_mem hentry
    obtain ⟨hworks, hnone, hdone, hskip, hno⟩ := s.done_skip hd.done hd.reaches.grows hwith
      ⟨rfl, rfl, rfl⟩ hpair hne
      ((hd.reaches.pending skip hskips).resolve_left hnew) hd.name_ne hrun
    have hlt := hd.reaches.lt_size skip hskips
    have hlt₁ := Nat.lt_of_lt_of_le (Nat.lt_of_lt_of_le hlt hd.reaches.grows.size_le)
      (hwith.trans hworks.toGrows).size_le
    have hall : (d₁.withRules skip s.noSkip phrases).skipTerms = d.skipTerms ++ [skip] :=
      hworks.skipTerms_eq
    refine ⟨⟨hreaches, hdone, fun t ht => ?_, ?_, (hworks.tops_eq rfl).trans hd.tops_eq, hno⟩,
      ?_, ?_⟩
    · rcases List.mem_append.mp (hall ▸ ht) with ht | ht
      · have hother : t ≠ skip := fun heq => hnew (heq ▸ ht)
        exact (hd.skip t ht).imp_right fun ht =>
          (ht.mono (hwith.trans hworks.toGrows)).withRules hother hlt hlt₁ hnone _ _
      · rw [List.mem_singleton.mp ht]
        exact .inr hskip
    · exact hall ▸ List.forall_mem_append.mpr
        ⟨hd.subset, List.forall_mem_singleton.mpr (.tail _ (.tail _ hskips))⟩
    · exact ((hwith.trans hworks.toGrows).mono _).withRules (.inl hlt) hlt₁ (fun _ => hnone) _ _
    · exact hall ▸ List.mem_append_right _ (List.mem_singleton_self _)

theorem skipping_scopes {l : List (ScopedSkip × Term)}
    (hl : ∀ entry ∈ l, entry ∈ ctx.decl.scopedSkips.zip s.skips) (hd : s.Skipping d)
    (h : l.forM (buildScopeSkip s.noSkip) ctx d = .ok ⟨⟩ d') :
    s.Skipping d' ∧ Grows ctx.decl s.opened.terms.size d d' ∧
      ∀ entry ∈ l, entry.2 ∈ d'.skipTerms := by
  induction l generalizing d with
  | nil =>
    cases h
    exact ⟨hd, .refl _ _ _, nofun⟩
  | cons entry l ih =>
    obtain ⟨hentry, hl⟩ := List.forall_mem_cons.mp hl
    obtain ⟨_, d₁, h₁, h₂⟩ := Build.exists_ok_of_bind h
    obtain ⟨hd₁, hgrows₁, hmem⟩ := hd.buildScopeSkip hentry _ _ h₁
    obtain ⟨hd', hgrows, hall⟩ := ih hl hd₁ h₂
    exact ⟨hd', hgrows₁.trans hgrows,
      List.forall_mem_cons.mpr ⟨hgrows.skipTerms.subset hmem, hall⟩⟩

variable (s)

/-- When what is skipped has been worked through: everything has its rules, and so have the symbols
for what is skipped. -/
structure Settled (d : Draft) : Prop where
  done : d.Done ctx.decl 1 s.skipTerms
  skip : ∀ p ∈ s.pairs, p.2 = s.noSkip ∨ ∃ q ∈ s.pairs, q.2 = p.2 ∧
    d.Stands ctx.decl 1 s.noSkip p.2 q.1
  mem_skipTerms : ∀ t, t ∈ d.skipTerms ↔ t ∈ s.noSkip :: s.mainSkip :: s.skips
  name_ne : ∀ r ∈ d.rules, r.name ≠ s.noSkip
  noSkip_lt : s.noSkip.index < d.terms.size

/-- The end of the input is a terminal, so symbols with rules are behind it. -/
theorem settled_scopes (heof : b.draft.terms.isTerminal .eof = true) :
    s.Settled s.afterScopes ∧ s.afterScopes.terms.tops = [] := by
  obtain ⟨hskipping, hgrows, hscopes⟩ := skipping_scopes (fun _ h => h) s.skipping_main s.scopes
  have hlow : 1 ≤ s.opened.terms.size := Nat.one_le_of_lt (s.lt_size (.head _))
  have hno : s.noSkip ∈ s.opened.skipTerms ∧ s.mainSkip ∈ s.opened.skipTerms := by
    rw [s.isOpened.skipTerms_eq]
    split
    next heq => exact ⟨heq ▸ .head _, .head _⟩
    next => exact ⟨.head _, .tail _ (.head _)⟩
  have hmem : ∀ t ∈ s.noSkip :: s.mainSkip :: s.skips, t ∈ s.afterScopes.skipTerms := by
    have hopened := hskipping.reaches.grows.skipTerms.subset
    refine List.forall_mem_cons.mpr ⟨hopened hno.1, List.forall_mem_cons.mpr ⟨hopened hno.2, ?_⟩⟩
    intro t ht
    have hsnd := List.map_snd_zip (Nat.le_of_eq s.shares.1)
    obtain ⟨entry, hentry, rfl⟩ := List.mem_map.mp (hsnd.symm ▸ ht)
    exact hscopes entry hentry
  refine ⟨⟨hskipping.done.anti hlow, fun p hp => ?_, fun t => ⟨hskipping.subset t, hmem t⟩,
    hskipping.name_ne, ?_⟩, hskipping.tops_eq⟩
  on_goal 2 => exact Nat.lt_of_lt_of_le (s.lt_size (.head _)) hskipping.reaches.grows.size_le
  refine (hskipping.skip p.2 (hmem p.2 (mem_skips hp))).imp_right ?_
  rintro ⟨q, hq, heq, parts, hflat, hrules⟩
  refine ⟨q, hq, heq, parts, hflat.mono (.refl _ _ _) hlow, { hrules with le_index := ?_ }⟩
  have hterminal := s.grows.isTerminal (s.isOpened.isTerminal p.2 (mem_skips hp))
  refine Nat.one_le_iff_ne_zero.mpr fun hzero => ?_
  obtain heq : p.2 = .eof := congrArg Term.mk hzero
  rw [heq, heof] at hterminal
  cases hterminal

variable {s}

/-- A top rule is worked through. -/
theorem Settled.buildTop (hd : s.Settled d) {entry : ScopedRule}
    (hentry : entry.rule ∈ ctx.decl.allTops) :
    Yields ctx d (buildTop entry) fun _ d' => s.Settled d' ∧ Grows ctx.decl 1 d d' ∧
      ∃ t, d'.terms.tops = d.terms.tops ++ [t] ∧
        d'.Stands ctx.decl 1 entry.skip t entry.rule.body := by
  intro _ d' h
  obtain ⟨t, d₁, phrases, d₂, henter, htops, hrun, rfl⟩ :=
    yields_buildTop Nat.one_pos entry.skip entry.rule _ d' h
  have hdeclared := henter.declared_eq
  simp only [Draft.declared, Prod.mk.injEq] at hdeclared
  have hoccurs : ctx.decl.Occurs entry.rule.body :=
    .root (List.mem_append_left _ (List.mem_append_left _
      (List.mem_append_right _ (List.mem_map_of_mem hentry))))
  have hready := hd.done.ready.of_grows henter.toGrows hdeclared.2.1 hdeclared.2.2.1
  obtain ⟨hworks, hflat⟩ :=
    flattens_normalize entry.skip entry.rule.body d₁ hoccurs hready phrases d₂ hrun
  have htidy := hd.done.ready.toTidy
  have hlow : 1 ≤ d₁.terms.size := Nat.one_le_of_lt henter.index_lt
  have hgrows := henter.grows hworks.toGrows entry.skip phrases
  have htops' : d₂.terms.tops = d.terms.tops ++ [t] := (hworks.tops_eq rfl).trans htops
  have hskips : d₂.skipTerms = d.skipTerms := hworks.skipTerms_eq.trans hdeclared.2.2.2.2.2.2
  have hno : ∀ r ∈ d₂.rules, r.name ≠ s.noSkip := hworks.toGrows.name_ne
    (Nat.lt_of_lt_of_le hd.noSkip_lt henter.size_le) (hdeclared.1 ▸ hd.name_ne)
  refine ⟨⟨?_, fun p hp => (hd.skip p hp).imp_right ?_, fun u => ?_,
    List.forall_mem_append.mpr ⟨hno, fun r hr heq => ?_⟩,
    Nat.lt_of_lt_of_le hd.noSkip_lt hgrows.size_le⟩, hgrows, t, htops', ?_⟩
  · refine hd.done.withRules henter.toGrows ⟨hdeclared.1, hdeclared.2.1, hdeclared.2.2.1⟩ hworks
      hlow ?_ (.inr henter.size_le_index) henter.index_lt (henter.name_ne hworks.toGrows htidy)
      (.inr ?_) _ _
    · exact htops ▸ List.prefix_append _ _
    · exact htops ▸ List.mem_append_right _ (List.mem_singleton_self _)
  · rintro ⟨q, hq, heq, ht⟩
    exact ⟨q, hq, heq, ht.mono hgrows (Nat.le_refl _)⟩
  · change u ∈ d₂.skipTerms ↔ _
    rw [hskips]
    exact hd.mem_skipTerms u
  · rw [Draft.name_of_mem_rulesFrom hr] at heq
    exact Nat.not_lt.mpr henter.size_le_index (heq ▸ hd.noSkip_lt)
  · refine ⟨phrases.map Phrase.parts, hflat.mono (henter.later htidy hworks.toGrows _ _) hlow,
      (henter.hasRules htidy hworks.toGrows _ _).mono (.refl ctx.decl _ _) ?_⟩
    exact Nat.one_le_of_lt hd.done.ready.eof_lt

theorem settled_tops {l : List ScopedRule} (hl : ∀ entry ∈ l, entry.rule ∈ ctx.decl.allTops)
    (hd : s.Settled d) (h : l.forM buildTop ctx d = .ok ⟨⟩ d') :
    s.Settled d' ∧ Grows ctx.decl 1 d d' ∧ ∃ ts, d'.terms.tops = d.terms.tops ++ ts ∧
      List.Forall₂ (fun t entry => d'.Stands ctx.decl 1 entry.skip t entry.rule.body) ts l := by
  induction l generalizing d with
  | nil =>
    cases h
    exact ⟨hd, .refl _ _ _, [], (List.append_nil _).symm, .nil⟩
  | cons entry l ih =>
    obtain ⟨hentry, hl⟩ := List.forall_mem_cons.mp hl
    obtain ⟨_, d₁, h₁, h₂⟩ := Build.exists_ok_of_bind h
    obtain ⟨hd₁, hgrows₁, t, htops₁, ht⟩ := hd.buildTop hentry _ _ h₁
    obtain ⟨hd', hgrows, ts, htops, hts⟩ := ih hl hd₁ h₂
    refine ⟨hd', hgrows₁.trans hgrows, t :: ts, ?_, .cons (ht.mono hgrows (Nat.le_refl _)) hts⟩
    rw [htops, htops₁, List.append_assoc, List.singleton_append]

theorem Settled.works (hd : s.Settled d) (h : Works ctx.decl d d') : s.Settled d' where
  done := hd.done.works (Nat.one_le_of_lt hd.done.ready.eof_lt) h
  skip p hp := by
    refine (hd.skip p hp).imp_right ?_
    rintro ⟨q, hq, heq, ht⟩
    exact ⟨q, hq, heq, ht.mono (h.toGrows.mono 1) (Nat.le_refl _)⟩
  mem_skipTerms t := h.skipTerms_eq ▸ hd.mem_skipTerms t
  name_ne := h.toGrows.name_ne hd.noSkip_lt hd.name_ne
  noSkip_lt := Nat.lt_of_lt_of_le hd.noSkip_lt h.size_le

variable (s)

/-- External specializers and exported rules are worked through. -/
theorem works_final (hd : s.afterTops.Ready ctx.decl)
    (hscope : s.afterTops.scope = s.opened.scope) : Works ctx.decl s.afterTops b.draft := by
  have hspecial : Works ctx.decl s.afterTops s.afterSpecial := by
    refine works_forM (fun entry hentry d₁ hd₁ _ d' h => ?_) s.special
    obtain ⟨phrases, d₂, hrun, hquiet⟩ := yields_resolveSpecializer s.noSkip entry _ d' h
    have hoccurs : ctx.decl.Occurs entry.1.token :=
      .root (List.mem_append_left _ (List.mem_append_right _
        (List.mem_map_of_mem (List.of_mem_zip hentry).1)))
    have hworks := (flattens_normalize s.noSkip entry.1.token d₁ hoccurs (hd.later hd₁) _ _ hrun).1
    exact hworks.trans hquiet.toSupplies.works
  have hexports : Works ctx.decl s.afterSpecial s.afterExports := by
    refine works_forM (fun entry hentry d₁ hd₁ _ d' h => ?_) s.exports
    rcases yields_buildExported entry.skip entry.rule _ d' h with rfl |
      ⟨hexported, hparams, t, d₂, hrun, hquiet⟩
    · exact refl_of (Works ctx.decl) _
    have hrule : entry.rule ∈ ctx.decl.allRules := by
      rw [← ctx.decl.map_rule_scopedRules s.mainSkip s.shares.1]
      exact List.mem_map_of_mem hentry
    have hoccurs : ctx.decl.Occurs entry.rule.body := by
      refine .root (List.mem_append_right _ (List.mem_map_of_mem (List.mem_filter.mpr ⟨hrule, ?_⟩)))
      rw [hexported, hparams]
      rfl
    have hfind : d₁.scope.find? (fun r => r.rule.id.name == entry.rule.id.name) = some entry := by
      have heq : d₁.scope = s.opened.scope :=
        hd₁.scope_eq.trans (hspecial.scope_eq.trans hscope)
      rw [heq]
      exact find?_eq_some_of_nodup s.isOpened.scope_names (s.isOpened.scope_eq ▸ hentry)
    have hworks := (works_buildRule flattens_normalize ((hd.later hspecial).later hd₁) hfind
      rfl hoccurs (.inl rfl) _ _ hrun).1
    exact hworks.trans hquiet.toSupplies.works
  exact hspecial.trans (hexports.trans s.final.toSupplies.works)

end Stages

/-- What the symbols of a blueprint are built from: what is skipped, the bodies of top rules, and
all that the draft remembers. -/
structure Blueprint.Account (b : Blueprint) (noSkip mainSkip : Term) (skips : List Term) :
    Prop where
  done : b.draft.Done b.decl 1
    (((b.decl.skipPairs mainSkip skips).map Prod.snd).filter (· ≠ noSkip))
  skip : ∀ p ∈ b.decl.skipPairs mainSkip skips, p.2 = noSkip ∨
    ∃ q ∈ b.decl.skipPairs mainSkip skips, q.2 = p.2 ∧ b.draft.Stands b.decl 1 noSkip p.2 q.1
  tops : List.Forall₂ (fun t entry => b.draft.Stands b.decl 1 entry.skip t entry.rule.body)
    b.draft.terms.tops
    ((b.decl.scopedTops mainSkip skips).mergeSort fun a b => a.rule.id.start ≤ b.rule.id.start)
  mem_skipTerms : ∀ t, t ∈ b.draft.skipTerms ↔ t ∈ noSkip :: mainSkip :: skips
  name_ne : ∀ r ∈ b.draft.rules, r.name ≠ noSkip
  scope_eq : b.draft.scope = b.decl.scopedRules mainSkip skips
  length_eq : skips.length = b.decl.scopedSkips.length
  shares : SharesAlike b.decl.mainSkip mainSkip noSkip
    ((b.decl.scopedSkips.map ScopedSkip.expr).zip skips)
  mainSkip_ne : b.decl.mainSkip.isSome = true → mainSkip ≠ noSkip
  scope_new : ∀ s ∈ b.draft.scope, s.rule.id.name ∉ b.draft.externalNames ∧
    ∀ r ∈ b.decl.tokenRules, r.id.name ≠ s.rule.id.name
  eof : b.draft.terms.isTerminal .eof = true

/-- The stages of a build account for all symbols. -/
theorem Stages.account {source : Text.Source} {b : Blueprint} (s : Stages ⟨source, b.decl⟩ b)
    (heof : b.draft.terms.isTerminal .eof = true) : b.Account s.noSkip s.mainSkip s.skips := by
  obtain ⟨hscopes, hnone⟩ := s.settled_scopes heof
  have hallTops := b.decl.map_rule_scopedTops s.mainSkip s.shares.1
  obtain ⟨htops, hgrows, ts, hts, hall⟩ := Stages.settled_tops (fun entry hentry =>
    hallTops ▸ List.mem_map_of_mem (f := ScopedRule.rule) hentry) hscopes s.top
  have hscope : s.afterTops.scope = s.opened.scope :=
    hgrows.scope_eq.trans s.reaches_scopes.grows.scope_eq
  have hworks := s.works_final htops.done.ready hscope
  have hall' := htops.works hworks
  have hscopeEq : b.draft.scope = s.opened.scope := s.grows.scope_eq
  refine ⟨hall'.done, hall'.skip, ?_, hall'.mem_skipTerms, hall'.name_ne,
    hscopeEq.trans s.isOpened.scope_eq, s.shares.1, s.shares.2, s.isOpened.mainSkip_ne.mp,
    fun entry hentry => ?_, heof⟩
  · rw [hworks.tops_eq rfl, hts, hnone, List.nil_append]
    exact hall.imp fun _ _ ht => ht.mono (hworks.toGrows.mono 1) (Nat.le_refl _)
  · rw [Draft.externalNames, s.grows.external_eq.1, s.grows.external_eq.2]
    exact s.isOpened.scope_new entry (hscopeEq ▸ hentry)

section

variable {source : Text.Source} {b : Blueprint} {journal : Journal}
  (h : Blueprint.ofSource source = (.ok b, journal))
include h

theorem Blueprint.isTerminal_eof : b.draft.terms.isTerminal .eof = true :=
  (since_of_ofSource h).isTerminal_eq .eof (by decide)

/-- All symbols of a grammar text are accounted for. -/
theorem Blueprint.exists_account : ∃ noSkip mainSkip skips, b.Account noSkip mainSkip skips := by
  obtain ⟨s⟩ := exists_stages h
  exact ⟨s.noSkip, s.mainSkip, s.skips, s.account (isTerminal_eof h)⟩

/-- What is skipped is no terminal. -/
theorem Blueprint.isTerminal_of_mem_skipTerms {t : Term} (ht : t ∈ b.draft.skipTerms) :
    b.draft.terms.isTerminal t = false := by
  obtain ⟨s⟩ := exists_stages h
  have hmem := ((s.account (isTerminal_eof h)).mem_skipTerms t).mp ht
  exact s.grows.isTerminal (s.isOpened.isTerminal t hmem)

end

end GrammarCompiler
