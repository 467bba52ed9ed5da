/-
GrammarCompiler.Proofs.Scoping — what is skipped in states.

Every rule stands in a scope, which says what is skipped between its parts, and simplifying
rules leaves this alone. What is skipped in a state comes from the rules of its items. So it
is something that the grammar text declares, in every state.

  §1 Drafts — rules that are worked through.
  §2 Rules  — rules that are simplified.
  §3 Items  — closures.
  §4 States — the search for states.
  §5 Builds — the states that a build ends with.
-/
import GrammarCompiler.Proofs.Accounting
import GrammarCompiler.Proofs.Borrowing
import GrammarCompiler.Proofs.Containing
import GrammarCompiler.Proofs.Masking

namespace GrammarCompiler

variable {skips : List Term}

/-! ## §1 Drafts -/

namespace Draft

/-- What is skipped between the parts of rules is one of several symbols, also for rules that can
still be entered. -/
structure SkipsAmong (skips : List Term) (d : Draft) : Prop where
  rules : ∀ r ∈ d.rules, r.skip ∈ skips
  scope : ∀ s ∈ d.scope, s.skip ∈ skips

/-- Nothing else is skipped later on. -/
def KeepsSkips (skips : List Term) (d d' : Draft) : Prop :=
  d.SkipsAmong skips → d'.SkipsAmong skips

instance (skips : List Term) : IsPreorder Draft (KeepsSkips skips) where
  refl _ := id
  trans _ _ _ h h' := h' ∘ h

variable {decl : GrammarDecl} {low : Nat} {d d' : Draft} {t skip : Term}

theorem keepsSkips_of_declared (h : d'.declared = d.declared) : KeepsSkips skips d d' := by
  simp only [declared, Prod.mk.injEq] at h
  exact fun hd => ⟨h.1 ▸ hd.rules, h.2.2.2.1 ▸ hd.scope⟩

theorem Supplies.keepsSkips (h : Supplies decl d d') : KeepsSkips skips d d' :=
  keepsSkips_of_declared h.declared_eq

theorem Enters.keepsSkips (h : Enters decl low d t d') : KeepsSkips skips d d' :=
  keepsSkips_of_declared h.declared_eq

theorem SkipsAmong.withRules (hd : d.SkipsAmong skips) (hskip : skip ∈ skips) (t : Term)
    (phrases : List Phrase) : (d.withRules t skip phrases).SkipsAmong skips where
  rules r hr := by
    rcases List.mem_append.mp hr with hr | hr
    · exact hd.rules r hr
    · obtain ⟨_, _, rfl⟩ := List.mem_map.mp hr
      exact hskip
  scope := hd.scope

end Draft

namespace Build

open Draft (KeepsSkips SkipsAmong Supplies)

variable {ctx : Declared} {skip : Term}

section

variable {again : Normalizer}
  (hagain : ∀ skip ∈ skips, ∀ e, Along ctx (KeepsSkips skips) (again skip e))
include hagain

theorem keepsSkips_buildRule (rule : RuleDecl) (args : List Expr) (hskip : skip ∈ skips)
    (inPlace : Bool) : Along ctx (KeepsSkips skips) (buildRule again rule args skip inPlace) := by
  intro d t d' h hd
  obtain ⟨body, d₁, phrases, d₂, d₃, _, henter, _, hbody, hd₃, hd'⟩ :=
    yields_buildRule rule args skip inPlace t d' h
  have hd₁ : SkipsAmong skips
      (if inPlace then d₁ else d₁.withInstance ⟨rule.id.name, args, t⟩) := by
    have hd₁ := henter.keepsSkips hd
    split
    · exact hd₁
    · exact ⟨hd₁.rules, hd₁.scope⟩
  have hd₃ := hd₃.keepsSkips (hagain skip hskip body _ _ _ hbody hd₁)
  exact hd'.keepsSkips (hd₃.withRules hskip t phrases)

theorem keepsSkips_resolve (start : Nat) (name : String) (args : List Expr) :
    Along ctx (KeepsSkips skips) (resolve again start name args) := by
  intro d t d' h hd
  rcases yields_resolve start name args t d' h with ⟨_, _, _, rfl⟩ | ⟨hd', _⟩ | ⟨hd', _⟩ |
    ⟨_, d₁, skip, rule, hd₁, hfind, _, hbuild⟩
  · exact hd
  · exact hd'.keepsSkips hd
  · exact hd'.keepsSkips hd
  · have hd₁ := hd₁.keepsSkips hd
    have hskip := hd₁.scope _ (List.mem_of_find?_eq_some hfind)
    exact keepsSkips_buildRule hagain rule args hskip false d₁ t d' hbuild hd₁

theorem keepsSkips_repeatTerm (hskip : skip ∈ skips) (body : Expr) :
    Along ctx (KeepsSkips skips) (repeatTerm again skip body) := by
  intro d t d' h hd
  rcases yields_repeatTerm skip body t d' h with ⟨_, _, _, rfl⟩ |
    ⟨_, d₁, phrases, d₂, _, henter, hbody, rfl⟩
  · exact hd
  · have hd₁ := henter.keepsSkips hd
    exact SkipsAmong.withRules (hagain skip hskip body _ _ _ hbody ⟨hd₁.rules, hd₁.scope⟩) hskip t _

theorem keepsSkips_normalizeWith (hskip : skip ∈ skips) (e : Expr) :
    Along ctx (KeepsSkips skips) (normalizeWith again skip e) := by
  have hinner (e : Expr) := hagain skip hskip e
  unfold normalizeWith
  split
  · exact (hinner _).bind fun _ => .pure _
  · exact (keepsSkips_repeatTerm hagain hskip _).bind fun _ => .pure _
  · exact (keepsSkips_repeatTerm hagain hskip _).bind fun _ => .pure _
  · exact (Along.mapM fun e _ => hinner e).bind fun _ => .pure _
  · exact (Along.mapM fun e _ => hinner e).bind fun _ => Along.read.bind fun _ =>
      (Along.check _).bind fun _ => .pure _
  · exact ((supplies_literalToken _).mono Supplies.keepsSkips).bind fun _ => .pure _
  · exact (keepsSkips_resolve hagain _ _ _).bind fun _ => .pure _
  · refine Along.read.bind fun _ => (Along.check _).bind fun _ => (hinner _).bind fun _ =>
      Along.bind (fun d t d' h => ?_) fun _ => .pure _
    exact (yields_specializeToken _ _ _ _ _ _ t d' h).1.keepsSkips
  · exact (keepsSkips_buildRule hagain _ _ hskip true).bind fun _ => .pure _
  · exact .pure _
  all_goals exact .raise _ _

end

theorem keepsSkips_normalizeTo (fuel : Nat) : ∀ skip ∈ skips, ∀ e,
    Along ctx (KeepsSkips skips) (normalizeTo fuel skip e) := by
  induction fuel with
  | zero => exact fun _ _ _ => .raise _ _
  | succ fuel ih => exact fun _ hskip e => keepsSkips_normalizeWith ih hskip e

theorem keepsSkips_normalize : ∀ skip ∈ skips, ∀ e,
    Along ctx (KeepsSkips skips) (normalize skip e) :=
  fun skip hskip e => Along.read.bind fun _ => keepsSkips_normalizeTo _ skip hskip e

theorem keepsSkips_buildScopeSkip {noSkip : Term} (hno : noSkip ∈ skips)
    (entry : ScopedSkip × Term) :
    Along ctx (KeepsSkips skips) (buildScopeSkip noSkip entry) := by
  intro d _ d' h hd
  have hwith : (d.withSkip entry.2).SkipsAmong skips := ⟨hd.rules, hd.scope⟩
  rcases yields_buildScopeSkip noSkip entry.1 entry.2 _ d' h with ⟨_, rfl⟩ | ⟨_, rfl⟩ |
    ⟨_, _, phrases, d₁, hnormal, rfl⟩
  · exact hd
  · exact hwith
  · exact SkipsAmong.withRules (keepsSkips_normalize _ hno _ _ _ _ hnormal hwith) hno _ _

theorem keepsSkips_buildTop {entry : ScopedRule} (hskip : entry.skip ∈ skips) :
    Along ctx (KeepsSkips skips) (buildTop entry) := by
  intro d _ d' h hd
  obtain ⟨t, d₁, phrases, d₂, henter, _, hnormal, rfl⟩ :=
    yields_buildTop Nat.one_pos entry.skip entry.rule _ d' h
  have hd₂ := keepsSkips_normalize _ hskip _ _ _ _ hnormal (henter.keepsSkips hd)
  exact hd₂.withRules hskip t phrases

theorem keepsSkips_resolveSpecializer {noSkip : Term} (hno : noSkip ∈ skips)
    (entry : ExternalSpecializerDecl × ExternalGroup) :
    Along ctx (KeepsSkips skips) (resolveSpecializer noSkip entry) := by
  intro d _ d' h hd
  obtain ⟨phrases, d₁, hnormal, hquiet⟩ := yields_resolveSpecializer noSkip entry _ d' h
  exact hquiet.keepsSkips (keepsSkips_normalize _ hno _ _ _ _ hnormal hd)

theorem keepsSkips_buildExported {entry : ScopedRule} (hskip : entry.skip ∈ skips) :
    Along ctx (KeepsSkips skips) (buildExported entry) := by
  intro d _ d' h hd
  rcases yields_buildExported entry.skip entry.rule _ d' h with rfl | ⟨_, _, t, d₁, hbuild, hquiet⟩
  · exact hd
  · exact hquiet.keepsSkips
      (keepsSkips_buildRule keepsSkips_normalize _ _ hskip _ _ _ _ hbuild hd)

end Build

/-- In the rules of a grammar the main skip expression holds, or that of a scope. -/
theorem skip_mem_of_scoped {mainSkip : Term} (main : List RuleDecl) (scopes : List ScopedSkip)
    (rules : ScopedSkip → List RuleDecl) : ∀ entry ∈ main.map (ScopedRule.mk mainSkip) ++
      (scopes.zip skips).flatMap (fun p => (rules p.1).map (ScopedRule.mk p.2)),
      entry.skip ∈ mainSkip :: skips := by
  intro entry h
  rcases List.mem_append.mp h with h | h
  · obtain ⟨_, _, rfl⟩ := List.mem_map.mp h
    exact .head _
  · obtain ⟨p, hp, h⟩ := List.mem_flatMap.mp h
    obtain ⟨_, _, rfl⟩ := List.mem_map.mp h
    exact .tail _ (List.of_mem_zip hp).2

/-- The steps of a build skip nothing else than what is declared. -/
theorem Stages.skipsAmong {ctx : Declared} {b : Blueprint} (s : Stages ctx b) :
    b.draft.SkipsAmong (s.noSkip :: s.mainSkip :: s.skips) := by
  have hno : s.noSkip ∈ s.noSkip :: s.mainSkip :: s.skips := .head _
  have hrules : ∀ entry ∈ ctx.decl.scopedRules s.mainSkip s.skips,
      entry.skip ∈ s.noSkip :: s.mainSkip :: s.skips := fun entry hentry =>
    .tail _ (skip_mem_of_scoped ctx.decl.rules ctx.decl.scopedSkips ScopedSkip.rules entry hentry)
  have htops : ∀ entry ∈ ctx.decl.scopedTops s.mainSkip s.skips,
      entry.skip ∈ s.noSkip :: s.mainSkip :: s.skips := fun entry hentry =>
    .tail _ (skip_mem_of_scoped ctx.decl.topRules ctx.decl.scopedSkips ScopedSkip.topRules entry
      hentry)
  have hopened : s.opened.SkipsAmong (s.noSkip :: s.mainSkip :: s.skips) :=
    ⟨s.isOpened.rules_eq ▸ nofun, s.isOpened.scope_eq ▸ hrules⟩
  have hmain : s.afterMain.SkipsAmong (s.noSkip :: s.mainSkip :: s.skips) := by
    rcases s.main with ⟨e, phrases, d, _, hnormal, heq⟩ | ⟨_, heq⟩
    · exact heq ▸ Draft.SkipsAmong.withRules
        (Build.keepsSkips_normalize _ hno _ _ _ _ hnormal hopened) hno _ _
    · exact heq ▸ hopened
  have hscopes := Build.Along.forM
    (fun entry _ => Build.keepsSkips_buildScopeSkip hno entry) _ _ _ s.scopes hmain
  have htop := Build.Along.forM (fun entry hentry =>
    Build.keepsSkips_buildTop (htops entry (List.mem_mergeSort.mp hentry))) _ _ _ s.top hscopes
  have hspecial := Build.Along.forM
    (fun entry _ => Build.keepsSkips_resolveSpecializer hno entry) _ _ _ s.special htop
  have hexports := Build.Along.forM (fun entry hentry =>
    Build.keepsSkips_buildExported (hrules entry hentry)) _ _ _ s.exports hspecial
  exact s.final.keepsSkips hexports

/-- What is skipped between the parts of a rule is declared. -/
theorem Blueprint.skip_mem_skipTerms {source : Text.Source} {b : Blueprint} {journal : Journal}
    (h : ofSource source = (.ok b, journal)) : ∀ r ∈ b.draft.rules, r.skip ∈ b.draft.skipTerms := by
  intro r hr
  obtain ⟨s⟩ := exists_stages h
  exact ((s.account (isTerminal_eof h)).mem_skipTerms _).mpr (s.skipsAmong.rules r hr)

/-! ## §2 Rules -/

/-- Simplified rules skip what the rules of the draft skip. -/
theorem Blueprint.exists_skip_of_simplified {b : Blueprint} {r : Rule} (hr : r ∈ b.simplified) :
    ∃ s ∈ b.draft.rules, r.skip = s.skip := by
  obtain ⟨s, hs, hskip⟩ := (Merging.renews_applyAll _ _ _).exists_skip hr
  have hinlined := (Inlining.runs_ofRules b.draft.terms
    (b.draft.skipTerms ++ b.draft.terms.tops) b.draft.rules.length b.draft.rules).preserves
      (Q := fun rules => ∀ r ∈ rules, ∃ s ∈ b.draft.rules, r.skip = s.skip)
      (fun chosen count rules hrules r hr => by
        obtain ⟨s, hs, hskip⟩ := (chosen.renews_applyAll count rules).exists_skip hr
        obtain ⟨s', hs', hskip'⟩ := hrules s hs
        exact ⟨s', hs', hskip.trans hskip'⟩)
      (fun r hr => ⟨r, hr, rfl⟩)
  obtain ⟨s', hs', hskip'⟩ := hinlined s hs
  exact ⟨s', hs', hskip.trans hskip'⟩

/-! ## §3 Items -/

/-- What may be skipped at an item, in its rule or behind it, is one of several symbols. -/
structure Item.SkipsAmong (skips : List Term) (i : Item) : Prop where
  rule : i.rule.skip ∈ skips
  ahead : i.skipAhead ∈ skips

namespace Item.SkipsAmong

variable {i : Item} (hi : i.SkipsAmong skips)
include hi

theorem skip_mem : i.skip ∈ skips := by
  unfold Item.skip
  split
  · exact hi.ahead
  · exact hi.rule

theorem advance : i.advance.SkipsAmong skips :=
  ⟨hi.rule, hi.ahead⟩

theorem request {g : Grammar} {table : FirstTable} {q : Closing.Request}
    (hq : Closing.Request.ofItem? g table i = some q) : q.skip ∈ skips := by
  unfold Closing.Request.ofItem? at hq
  split at hq
  · cases hq
  · split at hq
    · cases hq
    · cases hq
      dsimp only
      split
      · exact hi.ahead
      · exact hi.rule

end Item.SkipsAmong

section

variable {g : Grammar} {table : FirstTable} (hg : ∀ r ∈ g.rules, r.skip ∈ skips)
include hg

theorem closure_skipsAmong {kernel items : List Item} (h : closure g table kernel = .ok items)
    (hk : ∀ k ∈ kernel, k.SkipsAmong skips) : ∀ i ∈ items, i.SkipsAmong skips := by
  obtain ⟨c, hc, rfl⟩ := Closing.closure_ok h
  intro i hi
  rcases Closing.mem_items.mp hi with ⟨hi, _⟩ | hi
  · exact hk i hi
  refine hc.entries_induction (P := Item.SkipsAmong skips) (fun j q hj hq r hr => ?_)
    (fun j q _ _ s hs => ⟨hs.rule, hs.ahead⟩) i hi
  unfold Closing.newItem
  cases hf : kernel.find? fun i => i.dot == 0 && i.rule == r with
  | some k => exact hk k (List.mem_of_find?_eq_some hf)
  | none => exact ⟨hg r (Closing.mem_rulesFor.mp hr).1, (hj.elim (hk j) id).request hq⟩

/-! ## §4 States -/

namespace Search

/-- What is skipped in the states found so far is one of several symbols. -/
def SkipsAmong (skips : List Term) (s : Search) : Prop :=
  ∀ seed ∈ s.seeds, seed.skip ∈ skips ∧ ∀ i ∈ seed.items, i.SkipsAmong skips

omit hg in
/-- What is skipped at all items of a kernel is skipped at the first one. -/
theorem commonSkip_mem {none skip : Term} {kernel : List Item} (hne : kernel ≠ [])
    (hk : ∀ k ∈ kernel, k.SkipsAmong skips) (h : commonSkip g none kernel = .ok skip) :
    skip ∈ skips := by
  obtain ⟨first, rest, rfl⟩ := List.exists_cons_of_ne_nil hne
  rw [commonSkip] at h
  split at h
  · cases h
  · cases h
    exact (hk first (.head _)).skip_mem

theorem skipsAmong_stateOf {kernel : List Item} {start : Option Term} {s s' : Search} {q : Nat}
    (hne : kernel ≠ []) (hk : ∀ k ∈ kernel, k.SkipsAmong skips)
    (h : stateOf g table kernel start s = .ok (q, s')) (hs : s.SkipsAmong skips) :
    s'.SkipsAmong skips := by
  have hsorted : ∀ k ∈ Item.sort kernel, k.SkipsAmong skips :=
    fun k hk' => hk k (Item.mem_sort.mp hk')
  have hne : Item.sort kernel ≠ [] := fun hnil =>
    hne (List.length_eq_zero_iff.mp ((List.length_mergeSort kernel).symm.trans (congrArg _ hnil)))
  unfold stateOf at h
  dsimp only at h
  obtain ⟨skip, hskip, h⟩ := exists_ok_of_bind h
  split at h
  · cases h
    exact hs
  · obtain ⟨items, hclosed, h⟩ := exists_ok_of_bind h
    cases h
    intro seed hseed
    rcases Array.mem_push.mp hseed with hseed | rfl
    · exact hs seed hseed
    · exact ⟨commonSkip_mem hne hsorted hskip, closure_skipsAmong hg hclosed hsorted⟩

omit hg in
theorem applyCut_ne_nil {items : List Item} (hne : items ≠ []) : applyCut items ≠ [] := by
  have hmax : (items.map cutLevel).foldl max 0 ∈ 0 :: items.map cutLevel := List.max?_mem rfl
  unfold applyCut
  dsimp only
  split
  · exact hne
  next hlevel =>
    obtain ⟨i, hi, heq⟩ := List.mem_map.mp ((List.mem_cons.mp hmax).resolve_left hlevel)
    exact List.ne_nil_of_mem (List.mem_filter.mpr ⟨hi, beq_iff_eq.mpr heq⟩)

omit hg in
/-- A symbol that some item reads next leads to a kernel. -/
theorem kernelFor_ne_nil {items : List Item} {symbol : Term}
    (h : ∃ i ∈ items, i.next? = some symbol) : kernelFor g items symbol ≠ [] := by
  obtain ⟨i, hi, hnext⟩ := h
  have hne : ((items.filter fun i => i.next? == some symbol).map Item.advance) ≠ [] :=
    List.ne_nil_of_mem (List.mem_map_of_mem (List.mem_filter.mpr ⟨hi, beq_iff_eq.mpr hnext⟩))
  unfold kernelFor
  dsimp only
  split
  · exact applyCut_ne_nil hne
  · exact hne

omit hg in
theorem seeds_addAction (context : List Item) (new : Cause) (causes : Array Cause) (s : Search) :
    (addAction g context new causes s).2.seeds = s.seeds := by
  unfold addAction
  split
  · split <;> rfl
  · rfl

theorem skipsAmong_readSymbol {items context : List Item} {symbol : Term} {r r' : Reading}
    {s s' : Search} (hnext : ∃ i ∈ items, i.next? = some symbol)
    (hitems : ∀ i ∈ items, i.SkipsAmong skips)
    (h : readSymbol g table context (r, s)
      (symbol, items.filter fun i => i.next? == some symbol) = .ok (r', s'))
    (hs : s.SkipsAmong skips) : s'.SkipsAmong skips := by
  obtain ⟨q, next, hstate, hcases⟩ := readSymbol_ok h
  have hkernel : ∀ k ∈ kernelFor g items symbol, k.SkipsAmong skips := by
    intro k hk
    obtain ⟨i, hi, _, rfl⟩ := mem_kernelFor hk
    exact (hitems i hi).advance
  have hnext := skipsAmong_stateOf hg (kernelFor_ne_nil hnext) hkernel hstate hs
  rcases hcases with ⟨_, _, rfl, _⟩ | ⟨_, rfl, _⟩
  · rw [SkipsAmong, seeds_addAction]
    exact hnext
  · exact hnext

theorem skipsAmong_readSymbols {items context : List Item} {next : List (Term × List Item)}
    (hsub : next ⊆ byNext items) (hitems : ∀ i ∈ items, i.SkipsAmong skips) {r r' : Reading}
    {s s' : Search} (h : next.foldlM (readSymbol g table context) (r, s) = .ok (r', s'))
    (hs : s.SkipsAmong skips) : s'.SkipsAmong skips := by
  induction next generalizing r s with
  | nil =>
    cases h
    exact hs
  | cons entry next ih =>
    obtain ⟨symbol, reading⟩ := entry
    rw [List.foldlM_cons] at h
    obtain ⟨⟨r₁, s₁⟩, hstep, hfold⟩ := exists_ok_of_bind h
    obtain ⟨hentry, hrest⟩ := List.cons_subset.mp hsub
    obtain ⟨rfl, hnext⟩ := mem_byNext hentry
    exact ih hrest hfold (skipsAmong_readSymbol hg hnext hitems hstep hs)

omit hg in
theorem seeds_addReductions (context : List Item) (news : List Cause) (r : Reading) (s : Search) :
    (news.foldl (addReduction g context) (r, s)).2.seeds = s.seeds := by
  induction news generalizing r s with
  | nil => rfl
  | cons new news ih => exact (ih _ _).trans (seeds_addAction context new r.causes s)

/-- Reading on from a state. What is skipped in it is what it was found with. -/
theorem skipsAmong_readState {seed : Seed} {s s' : Search} {st : State}
    (h : readState g table seed s = .ok (st, s'))
    (hseed : seed.skip ∈ skips ∧ ∀ i ∈ seed.items, i.SkipsAmong skips)
    (hs : s.SkipsAmong skips) : st.skip ∈ skips ∧ s'.SkipsAmong skips := by
  unfold readState at h
  dsimp only at h
  obtain ⟨⟨r, s₁⟩, hread, h⟩ := exists_ok_of_bind h
  cases h
  refine ⟨hseed.1, ?_⟩
  rw [SkipsAmong, seeds_addReductions]
  exact skipsAmong_readSymbols hg (List.Subset.refl _) hseed.2 hread hs

theorem skipsAmong_readOn {count : Nat} {states states' : Array State} {s s' : Search}
    (h : readOn g table count states s = .ok (states', s'))
    (hstates : ∀ st ∈ states, st.skip ∈ skips) (hs : s.SkipsAmong skips) :
    (∀ st ∈ states', st.skip ∈ skips) ∧ s'.SkipsAmong skips := by
  induction count generalizing states s with
  | zero =>
    cases h
    exact ⟨hstates, hs⟩
  | succ count ih =>
    unfold readOn at h
    split at h
    · cases h
      exact ⟨hstates, hs⟩
    next seed hseed =>
      obtain ⟨⟨st, s₁⟩, hread, h⟩ := exists_ok_of_bind h
      obtain ⟨hst, hs₁⟩ := skipsAmong_readState hg hread (hs seed (Array.mem_of_getElem? hseed)) hs
      refine ih h (fun st' hst' => ?_) hs₁
      rcases Array.mem_push.mp hst' with hst' | rfl
      · exact hstates st' hst'
      · exact hst

theorem skip_mem_run {rounds count : Nat} {states states' : Array State} {s : Search}
    {clashes : List Clash} (h : run g table rounds count states s = .ok (states', clashes))
    (hstates : ∀ st ∈ states, st.skip ∈ skips) (hs : s.SkipsAmong skips) :
    ∀ st ∈ states', st.skip ∈ skips := by
  induction rounds generalizing count states s with
  | zero => cases h
  | succ rounds ih =>
    unfold run at h
    obtain ⟨⟨states₁, s₁⟩, hread, h⟩ := exists_ok_of_bind h
    obtain ⟨hstates₁, hs₁⟩ := skipsAmong_readOn hg hread hstates hs
    dsimp only at h
    split at h
    · cases h
      exact hstates₁
    · exact ih h hstates₁ hs₁

theorem skipsAmong_addEntry {noSkip start : Term} {s s' : Search}
    (h : addEntry g table noSkip s start = .ok s') (hs : s.SkipsAmong skips) :
    s'.SkipsAmong skips := by
  unfold addEntry at h
  dsimp only at h
  split at h
  · cases h
    exact hs
  next hne =>
    obtain ⟨⟨q, next⟩, hstate, h⟩ := exists_ok_of_bind h
    cases h
    refine skipsAmong_stateOf hg (fun hnil => hne (List.isEmpty_iff.mpr hnil)) (fun k hk => ?_)
      hstate hs
    obtain ⟨r, hr, rfl⟩ := List.mem_map.mp hk
    obtain ⟨first, rest, hfirst⟩ := List.exists_cons_of_ne_nil (List.ne_nil_of_mem hr)
    have hmem : first ∈ g.rulesFor start := hfirst ▸ List.mem_cons_self
    refine ⟨hg r (Closing.mem_rulesFor.mp hr).1, ?_⟩
    simpa [hfirst] using hg first (Closing.mem_rulesFor.mp hmem).1

theorem skipsAmong_addEntries {starts : List Term} {noSkip : Term} {s s' : Search}
    (h : starts.foldlM (addEntry g table noSkip) s = .ok s') (hs : s.SkipsAmong skips) :
    s'.SkipsAmong skips := by
  induction starts generalizing s with
  | nil =>
    cases h
    exact hs
  | cons start starts ih =>
    rw [List.foldlM_cons] at h
    obtain ⟨s₁, hstep, h⟩ := exists_ok_of_bind h
    exact ih h (skipsAmong_addEntry hg hstep hs)

end Search

/-- What is skipped in the states of an automaton is what is skipped in the rules of its
grammar. -/
theorem skip_mem_of_fullAutomaton {starts : List Term} {noSkip : Term} {a : Automaton}
    (h : fullAutomaton g table starts noSkip = .ok a) : ∀ st ∈ a, st.skip ∈ skips := by
  unfold fullAutomaton at h
  dsimp only at h
  obtain ⟨s, hentries, h⟩ := exists_ok_of_bind h
  obtain ⟨⟨states, clashes⟩, hrun, h⟩ := exists_ok_of_bind h
  have hs : s.SkipsAmong skips :=
    Search.skipsAmong_addEntries hg hentries fun seed hseed => by simp [Search.start] at hseed
  have hstates := Search.skip_mem_run hg hrun (fun _ hst => by simp at hst) hs
  dsimp only at h
  split at h
  · cases h
    intro st hst
    obtain ⟨st', hst', rfl⟩ := Array.mem_map.mp hst
    exact hstates st' hst'
  · cases h

end

/-! ## §5 Builds -/

theorem Automaton.Regroups.skip_mem {a a' : Automaton} (h : a.Regroups a')
    (ha : ∀ st ∈ a, st.skip ∈ skips) : ∀ st ∈ a', st.skip ∈ skips := by
  intro st hst
  have hmem : st.ungrouped ∈ a.map State.ungrouped := h ▸ Array.mem_map_of_mem hst
  obtain ⟨st', hst', heq⟩ := Array.mem_map.mp hmem
  have hskip : st'.ungrouped.skip = st.ungrouped.skip := congrArg State.skip heq
  exact hskip ▸ ha st' hst'

namespace Collapse

variable {g : Grammar} {states : Automaton}

theorem skip_mergeStates (f : Nat → Nat) (members : List State) :
    (mergeStates g f members).skip = (members.headD default).skip := by
  have hfoldl : ∀ into : State, (members.foldl (absorb g f) into).skip = into.skip := by
    induction members with
    | nil => exact fun _ => rfl
    | cons s members ih => exact fun into => ih _
  exact hfoldl _

/-- The state of a cluster skips what its first member skips. -/
theorem skip_mem_collapse (h : ∀ st ∈ states, st.skip ∈ skips) :
    ∀ st ∈ (collapse g states).1, st.skip ∈ skips := by
  intro st hst
  obtain ⟨p, hp, rfl⟩ := Array.mem_iff_getElem.mp hst
  have hp' : p < (clustering g states).clusters.size := by simpa [collapse, clustering] using hp
  have hstate : (collapse g states).1[p] = (collapse g states).1.state p := by
    rw [Automaton.state, Array.getElem?_eq_getElem hp, Option.getD_some]
  obtain ⟨i, hi⟩ := List.exists_mem_of_ne_nil _
    (((settled_clustering g states).arranged.taken p).mpr hp')
  obtain ⟨first, rest, hmembers⟩ : ∃ first rest, membersOf g states p = first :: rest :=
    List.exists_cons_of_ne_nil (List.ne_nil_of_mem (List.mem_map_of_mem hi))
  have hfirst : first ∈ membersOf g states p := hmembers ▸ List.mem_cons_self
  obtain ⟨j, hj, _, rfl⟩ := exists_of_mem_membersOf hfirst
  rw [hstate, state_collapse hp', filterMap_members, skip_mergeStates, hmembers,
    List.headD_cons, Automaton.state, Array.getElem?_eq_getElem hj, Option.getD_some]
  exact h _ (Array.getElem_mem hj)

end Collapse

namespace Identical

variable {g : Grammar}

theorem skip_mem_keep {k : Kept} {s : State} (hs : s.skip ∈ skips)
    (hk : ∀ st ∈ k.states, st.skip ∈ skips) : ∀ st ∈ (keep g k s).states, st.skip ∈ skips := by
  have hadd (into : State) : (addItems into s).skip = into.skip := by
    unfold addItems
    split <;> rfl
  intro st hst
  unfold keep at hst
  split at hst
  · obtain ⟨p, hp, rfl⟩ := Array.mem_iff_getElem.mp hst
    rw [Array.size_modify] at hp
    rw [Array.getElem_modify]
    split
    · exact (hadd _).symm ▸ hk _ (Array.getElem_mem hp)
    · exact hk _ (Array.getElem_mem hp)
  · rcases Array.mem_push.mp hst with hst | rfl
    · exact hk st hst
    · exact hs

theorem skip_mem_rounds (fuel : Nat) {states : Automaton} (h : ∀ st ∈ states, st.skip ∈ skips) :
    ∀ st ∈ rounds g fuel states, st.skip ∈ skips := by
  induction fuel generalizing states with
  | zero => exact h
  | succ fuel ih =>
    have hkept : ∀ st ∈ (states.foldl (keep g) ⟨#[], #[]⟩).states, st.skip ∈ skips :=
      Array.foldl_induction (fun _ (k : Kept) => ∀ st ∈ k.states, st.skip ∈ skips)
        (fun _ hst => by simp at hst) fun i _ hk => skip_mem_keep (h _ (Array.getElem_mem i.2)) hk
    unfold rounds
    dsimp only
    split
    · exact h
    · refine ih fun st hst => ?_
      obtain ⟨st', hst', rfl⟩ := Array.mem_map.mp hst
      exact hkept st' hst'

end Identical

/-- What is skipped in the states of a build is declared. -/
theorem Compile.skip_mem_of_assembly {source : Text.Source} {b : Blueprint}
    {journal j j' : Journal} {a : Assembly} (hsource : Blueprint.ofSource source = (.ok b, journal))
    (h : assembly b j = .ok a j') : ∀ st ∈ a.automaton, st.skip ∈ b.draft.skipTerms := by
  obtain ⟨_, rules, _, _, full, states, hrules, _, hgrammar, hfull, hgroups, hautomaton⟩ :=
    exists_stages_of_assembly h
  obtain rfl : rules = b.simplified := simplify_eq hrules
  have hg : ∀ r ∈ a.grammar.rules, r.skip ∈ b.draft.skipTerms := by
    intro r hr
    rw [hgrammar] at hr
    obtain ⟨s, hs, hskip⟩ := Blueprint.exists_skip_of_simplified (List.mem_of_mem_filter hr)
    exact hskip ▸ Blueprint.skip_mem_skipTerms hsource s hs
  have hstates := hgroups.skip_mem (skip_mem_of_fullAutomaton hg hfull)
  rw [hautomaton]
  exact Identical.skip_mem_rounds _ (Collapse.skip_mem_collapse hstates)

end GrammarCompiler
