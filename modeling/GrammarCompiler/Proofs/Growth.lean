/-
GrammarCompiler.Proofs.Growth — what working through declarations adds to a draft.

What a draft remembers is only ever added to, so what is found once is found
again. Rules are added for one symbol at a time, and for each symbol once: while
an expression is worked through, only symbols that are created on the way get
rules. So in the end the rules of each symbol stand next to each other.

  §1 Stretches — rules of which those for one symbol stand together.
  §2 Growth    — what may change from one draft to a later one.
  §3 Actions   — how actions combine, and those that change symbols only.
  §4 Tokens    — actions that also remember tokens.
  §5 Rules     — what entering a rule or a repeat comes down to.
-/
import GrammarCompiler.Proofs.Drafting
import Mathlib.Order.Defs.Unbundled

namespace GrammarCompiler

/-! ## §1 Stretches -/

/-- Rules of which those for one symbol stand together. -/
inductive InStretches : List Rule → Prop where
  | nil : InStretches []
  | append {rules stretch : List Rule} {t : Term} (before : InStretches rules)
      (named : ∀ r ∈ stretch, r.name = t) (new : ∀ r ∈ rules, r.name ≠ t) :
      InStretches (rules ++ stretch)

/-! ## §2 Growth -/

/-- A symbol that is there, and is a terminal. -/
structure TermTable.IsToken (terms : TermTable) (t : Term) : Prop where
  lt_size : t.index < terms.size
  isTerminal : terms.isTerminal t = true

theorem TermTable.lt_size_of_isTop {terms : TermTable} {t : Term} (h : terms.isTop t = true) :
    t.index < terms.size := by
  by_contra hle
  rw [isTop, info, Array.getElem?_eq_none (Nat.le_of_not_lt hle)] at h
  cases h

namespace Draft

/-- The terminals that a draft remembers. -/
def tokenTerms (d : Draft) : List Term :=
  d.tokenInstances.map TokenInstance.term ++
    (d.externalTokens ++ d.externalSpecializers).flatMap (fun e => e.tokens.map Prod.snd) ++
    d.specializations.flatMap fun s => s.cases.map Specialization.term

/-- What holds of every draft: tokens are terminals and belong to token rules or literals, rules
are for symbols that are there and stand in stretches, no name is declared twice, and the symbols
at the top are of that kind. -/
structure Tidy (decl : GrammarDecl) (d : Draft) : Prop where
  tokens : ∀ t ∈ d.tokenTerms, d.terms.IsToken t
  keys : ∀ i ∈ d.tokenInstances, ∀ name args, i.key = .rule name args →
    ∃ r ∈ decl.tokenRules, r.id.name = name
  lt_size : ∀ r ∈ d.rules, r.name.index < d.terms.size
  stretches : InStretches d.rules
  names : (d.names.map DeclaredName.name).Nodup
  tops : ∀ t ∈ d.terms.tops, d.terms.isTop t = true

/-- What is remembered of rules, repeats and declarations. -/
def declared (d : Draft) :=
  (d.rules, d.ruleInstances, d.repeatInstances, d.scope, d.externalTokens,
    d.externalSpecializers, d.skipTerms)

/-- What is remembered of tokens and names. -/
def noted (d : Draft) :=
  (d.tokenInstances, d.specializations, d.names.map DeclaredName.name)

/-- `Grows decl low d d'`: what is there stays, and what is added stands behind it. New rules are
for new symbols, or for some of the first `low` ones. -/
structure Grows (decl : GrammarDecl) (low : Nat) (d d' : Draft) : Prop where
  size_le : d.terms.size ≤ d'.terms.size
  kind_eq : ∀ t : Term, t.index < d.terms.size →
    (d'.terms.info t).kind = (d.terms.info t).kind
  tops_eq : low = 0 → d'.terms.tops = d.terms.tops
  rules : ∃ new, d'.rules = d.rules ++ new ∧
    ∀ r ∈ new, r.name.index < low ∨ d.terms.size ≤ r.name.index
  ruleInstances : d.ruleInstances <+: d'.ruleInstances
  repeatInstances : d.repeatInstances <+: d'.repeatInstances
  tokenInstances : d.tokenInstances <+: d'.tokenInstances
  cases : ∀ base p s, (d.casesOf base).find? p = some s → (d'.casesOf base).find? p = some s
  names : d.names.map DeclaredName.name <+: d'.names.map DeclaredName.name
  scope_eq : d'.scope = d.scope
  external_eq : d'.externalTokens = d.externalTokens ∧
    d'.externalSpecializers = d.externalSpecializers
  skipTerms : d.skipTerms <+: d'.skipTerms
  tidy : d.Tidy decl → d'.Tidy decl

/-- Only symbols, tokens and names are added. -/
structure Supplies (decl : GrammarDecl) (d d' : Draft) : Prop extends Grows decl 0 d d' where
  declared_eq : d'.declared = d.declared

/-- Only symbols are added, and other things that make no difference here. -/
structure Quietly (decl : GrammarDecl) (d d' : Draft) : Prop extends Supplies decl d d' where
  noted_eq : d'.noted = d.noted

/-- The tokens that external tokenizers read. -/
def externalTerms (d : Draft) : List Term :=
  d.origins.filterMap fun (t, origin) =>
    match origin with
    | .external _ => some t
    | .specializes _ => none

/-- The terminals that are not for the main tokenizer to read: those that are known to come from
somewhere else, and those of external declarations and the cases of tokens, which will be. -/
def foreignTerms (d : Draft) : List Term :=
  d.origins.map Prod.fst ++
    (d.externalTokens ++ d.externalSpecializers).flatMap (fun e => e.tokens.map Prod.snd) ++
    d.specializations.flatMap fun s => s.cases.map Specialization.term

/-- The same, and the automaton and the origins of tokens stay what they are. -/
structure Silently (decl : GrammarDecl) (d d' : Draft) : Prop extends Quietly decl d d' where
  tokens_eq : d'.tokens = d.tokens
  origins_eq : d'.origins = d.origins

variable {decl : GrammarDecl} {low : Nat} {d d' d'' : Draft}

theorem Grows.refl (decl : GrammarDecl) (low : Nat) (d : Draft) : Grows decl low d d where
  size_le := Nat.le_refl _
  kind_eq _ _ := rfl
  tops_eq _ := rfl
  rules := ⟨[], (List.append_nil _).symm, nofun⟩
  ruleInstances := List.prefix_refl _
  repeatInstances := List.prefix_refl _
  tokenInstances := List.prefix_refl _
  cases _ _ _ h := h
  names := List.prefix_refl _
  scope_eq := rfl
  external_eq := ⟨rfl, rfl⟩
  skipTerms := List.prefix_refl _
  tidy h := h

theorem Grows.trans (h : Grows decl low d d') (h' : Grows decl low d' d'') :
    Grows decl low d d'' where
  size_le := Nat.le_trans h.size_le h'.size_le
  kind_eq t ht := (h'.kind_eq t (Nat.lt_of_lt_of_le ht h.size_le)).trans (h.kind_eq t ht)
  tops_eq hlow := (h'.tops_eq hlow).trans (h.tops_eq hlow)
  rules := by
    obtain ⟨new, heq, hnew⟩ := h.rules
    obtain ⟨new', heq', hnew'⟩ := h'.rules
    refine ⟨new ++ new', by rw [heq', heq, List.append_assoc], fun r hr => ?_⟩
    rcases List.mem_append.mp hr with hr | hr
    · exact hnew r hr
    · exact (hnew' r hr).imp_right (Nat.le_trans h.size_le)
  ruleInstances := h.ruleInstances.trans h'.ruleInstances
  repeatInstances := h.repeatInstances.trans h'.repeatInstances
  tokenInstances := h.tokenInstances.trans h'.tokenInstances
  cases base p s hs := h'.cases base p s (h.cases base p s hs)
  names := h.names.trans h'.names
  scope_eq := h'.scope_eq.trans h.scope_eq
  external_eq :=
    ⟨h'.external_eq.1.trans h.external_eq.1, h'.external_eq.2.trans h.external_eq.2⟩
  skipTerms := h.skipTerms.trans h'.skipTerms
  tidy hd := h'.tidy (h.tidy hd)

theorem Grows.weaken {low' : Nat} (h : Grows decl low d d') (hle : low ≤ low') :
    Grows decl low' d d' where
  __ := h
  tops_eq hzero := h.tops_eq (Nat.le_zero.mp (hzero ▸ hle))
  rules := by
    obtain ⟨new, heq, hnew⟩ := h.rules
    exact ⟨new, heq, fun r hr => (hnew r hr).imp_left fun hlt => Nat.lt_of_lt_of_le hlt hle⟩

theorem Grows.mono (h : Grows decl 0 d d') (low : Nat) : Grows decl low d d' :=
  h.weaken (Nat.zero_le low)

instance (decl : GrammarDecl) (low : Nat) : IsPreorder Draft (Grows decl low) where
  refl := .refl decl low
  trans _ _ _ := .trans

instance (decl : GrammarDecl) : IsPreorder Draft (Supplies decl) where
  refl d := ⟨.refl decl 0 d, rfl⟩
  trans _ _ _ h h' := ⟨h.toGrows.trans h'.toGrows, h'.declared_eq.trans h.declared_eq⟩

instance (decl : GrammarDecl) : IsPreorder Draft (Quietly decl) where
  refl d := ⟨⟨.refl decl 0 d, rfl⟩, rfl⟩
  trans _ _ _ h h' := ⟨⟨h.toGrows.trans h'.toGrows, h'.declared_eq.trans h.declared_eq⟩,
    h'.noted_eq.trans h.noted_eq⟩

instance (decl : GrammarDecl) : IsPreorder Draft (Silently decl) where
  refl d := ⟨refl_of (Quietly decl) d, rfl, rfl⟩
  trans _ _ _ h h' := ⟨trans_of (Quietly decl) h.toQuietly h'.toQuietly,
    h'.tokens_eq.trans h.tokens_eq, h'.origins_eq.trans h.origins_eq⟩

theorem Grows.isTerminal_eq (h : Grows decl low d d') {t : Term} (ht : t.index < d.terms.size) :
    d'.terms.isTerminal t = d.terms.isTerminal t :=
  congrArg (· == .terminal) (h.kind_eq t ht)

theorem Grows.isTerminal (h : Grows decl low d d') {t : Term}
    (ht : d.terms.isTerminal t = false) : d'.terms.isTerminal t = false :=
  (h.isTerminal_eq (TermTable.lt_size_of_isTerminal ht)).trans ht

theorem Silently.foreignTerms_eq (h : Silently decl d d') : d'.foreignTerms = d.foreignTerms := by
  have hdeclared := h.declared_eq
  have hnoted := h.noted_eq
  simp only [declared, noted, Prod.mk.injEq] at hdeclared hnoted
  obtain ⟨_, _, _, _, htokens, hspecializers, _⟩ := hdeclared
  obtain ⟨_, hcases, _⟩ := hnoted
  rw [foreignTerms, h.origins_eq, htokens, hspecializers, hcases, foreignTerms]

/-- Changes to symbols that keep their kind. -/
theorem Quietly.of_eq (hsize : d.terms.size ≤ d'.terms.size)
    (htops : d'.terms.tops = d.terms.tops)
    (hkind : ∀ t : Term, t.index < d.terms.size → (d'.terms.info t).kind = (d.terms.info t).kind)
    (hdeclared : d'.declared = d.declared) (hnoted : d'.noted = d.noted) : Quietly decl d d' := by
  simp only [declared, noted, Prod.mk.injEq] at hdeclared hnoted
  obtain ⟨hrules, hinstances, hrepeats, hscope, hexternal, hexternal', hskip⟩ := hdeclared
  obtain ⟨htokens, hcases, hnames⟩ := hnoted
  have hterms : d'.tokenTerms = d.tokenTerms := by
    rw [tokenTerms, htokens, hexternal, hexternal', hcases, tokenTerms]
  refine ⟨⟨⟨hsize, hkind, fun _ => htops, ⟨[], by rw [hrules, List.append_nil], nofun⟩, ?_, ?_, ?_,
    fun base p s hs => ?_, ?_, hscope, ⟨hexternal, hexternal'⟩, ?_, fun hd => ?_⟩, ?_⟩, ?_⟩
  · exact hinstances.symm ▸ List.prefix_refl _
  · exact hrepeats.symm ▸ List.prefix_refl _
  · exact htokens.symm ▸ List.prefix_refl _
  · rwa [casesOf, hcases, ← casesOf]
  · exact hnames.symm ▸ List.prefix_refl _
  · exact hskip.symm ▸ List.prefix_refl _
  · refine ⟨fun t ht => ?_, htokens.symm ▸ hd.keys, fun r hr => ?_, hrules ▸ hd.stretches,
      hnames ▸ hd.names, fun t ht => ?_⟩
    · obtain ⟨hlt, hterm⟩ := hd.tokens t (hterms ▸ ht)
      exact ⟨Nat.lt_of_lt_of_le hlt hsize, (congrArg (· == .terminal) (hkind t hlt)).trans hterm⟩
    · exact Nat.lt_of_lt_of_le (hd.lt_size r (hrules ▸ hr)) hsize
    · have htop := hd.tops t (htops ▸ ht)
      exact (congrArg (· == .top) (hkind t (TermTable.lt_size_of_isTop htop))).trans htop
  · simp only [declared, hrules, hinstances, hrepeats, hscope, hexternal, hexternal', hskip]
  · simp only [noted, htokens, hcases, hnames]

/-- Changes that have nothing to do with symbols, rules and tokens. -/
theorem Quietly.of_terms_eq (hterms : d'.terms = d.terms) (hdeclared : d'.declared = d.declared)
    (hnoted : d'.noted = d.noted) : Quietly decl d d' :=
  .of_eq (hterms ▸ Nat.le_refl _) (by rw [hterms]) (fun _ _ => by rw [hterms]) hdeclared hnoted

theorem Grows.isToken (h : Grows decl low d d') {t : Term} (ht : d.terms.IsToken t) :
    d'.terms.IsToken t :=
  ⟨Nat.lt_of_lt_of_le ht.lt_size h.size_le, (h.isTerminal_eq ht.lt_size).trans ht.isTerminal⟩

/-- A token that is found in a draft is found in later ones. -/
theorem Grows.tokenFor? (h : Grows decl low d d') {key : TokenKey} {t : Term}
    (ht : d.tokenFor? key = some t) : d'.tokenFor? key = some t := by
  obtain ⟨new, hnew⟩ := h.tokenInstances
  obtain ⟨i, hi, rfl⟩ := Option.map_eq_some_iff.mp ht
  rw [Draft.tokenFor?, ← hnew, List.find?_append, hi]
  rfl

end Draft

/-! ## §3 Actions -/

namespace Build

open Draft (Grows Supplies Quietly Silently)

variable {α β : Type} {ctx : Declared} {R : Draft → Draft → Prop}

/-- An action after which a draft is related in some way to what it was before. -/
def Along (ctx : Declared) (R : Draft → Draft → Prop) (m : Build α) : Prop :=
  ∀ d a d', m ctx d = .ok a d' → R d d'

theorem Along.mono {R' : Draft → Draft → Prop} {m : Build α} (h : Along ctx R m)
    (himp : ∀ {d d'}, R d d' → R' d d') : Along ctx R' m :=
  fun d a d' hm => himp (h d a d' hm)

theorem Along.of_modify {f : Draft → Draft} (hf : ∀ d, R d (f d)) :
    Along ctx R (modify f : Build PUnit) := by
  intro d _ _ h
  cases h
  exact hf d

theorem Along.raise (fault : GrammarFault) (start : Option Nat) :
    Along ctx R (Build.raise fault start : Build α) := by
  intro _ _ _ h
  cases h

namespace Along

variable [IsPreorder Draft R]

theorem pure (a : α) : Along ctx R (Pure.pure a : Build α) := by
  intro d _ _ h
  cases h
  exact refl_of R d

theorem get : Along ctx R (MonadState.get : Build Draft) := by
  intro d _ _ h
  cases h
  exact refl_of R d

theorem read : Along ctx R (MonadReader.read : Build Declared) := by
  intro d _ _ h
  cases h
  exact refl_of R d

theorem check (result : Except FaultAt α) : Along ctx R (Build.check result) := by
  cases result with
  | ok a => exact .pure a
  | error e => exact .raise e.1 e.2

theorem bind {m : Build α} {f : α → Build β} (hm : Along ctx R m) (hf : ∀ a, Along ctx R (f a)) :
    Along ctx R (m >>= f) := by
  intro d b d' h
  obtain ⟨a, d₁, h₁, h₂⟩ := exists_ok_of_bind h
  exact trans_of R (hm d a d₁ h₁) (hf a d₁ b d' h₂)

omit [IsPreorder Draft R] in
theorem check_bind {result : Except FaultAt α} {f : α → Build β}
    (hf : ∀ a, result = .ok a → Along ctx R (f a)) :
    Along ctx R (Build.check result >>= f) := by
  cases result with
  | ok a => exact hf a rfl
  | error e => rintro _ _ _ ⟨⟩

omit [IsPreorder Draft R] in
theorem ite {c : Prop} {_ : Decidable c} {m m' : Build α} (h : Along ctx R m)
    (h' : Along ctx R m') : Along ctx R (if c then m else m') := by
  split
  · exact h
  · exact h'

/-- A step that is only taken under a condition. -/
theorem when {c : Prop} {_ : Decidable c} {m : Build PUnit} {f : PUnit → Build α}
    (hm : Along ctx R m) (hf : ∀ u, Along ctx R (f u)) :
    Along ctx R (if c then m >>= f else f ⟨⟩) :=
  .ite (hm.bind hf) (hf ⟨⟩)

/-- One of two actions, before another one. -/
theorem either {c : Prop} {_ : Decidable c} {m m' : Build α} {f : α → Build β}
    (hm : Along ctx R m) (hm' : Along ctx R m') (hf : ∀ a, Along ctx R (f a)) :
    Along ctx R (if c then m >>= f else m' >>= f) :=
  .ite (hm.bind hf) (hm'.bind hf)

theorem forM {l : List α} {f : α → Build PUnit} (hf : ∀ a ∈ l, Along ctx R (f a)) :
    Along ctx R (l.forM f) := by
  induction l with
  | nil => exact .pure _
  | cons a l ih =>
    exact (hf a List.mem_cons_self).bind fun _ => ih fun b hb => hf b (List.mem_cons_of_mem a hb)

theorem mapM {l : List α} {f : α → Build β} (hf : ∀ a ∈ l, Along ctx R (f a)) :
    Along ctx R (l.mapM f) := by
  induction l with
  | nil => exact .pure _
  | cons a l ih =>
    obtain ⟨ha, hl⟩ := List.forall_mem_cons.mp hf
    rw [List.mapM_cons]
    exact ha.bind fun b => (ih hl).bind fun bs => .pure (b :: bs)

theorem foldlM {l : List α} {f : β → α → Build β} (hf : ∀ b a, Along ctx R (f b a)) (b : β) :
    Along ctx R (l.foldlM f b) := by
  induction l generalizing b with
  | nil => exact .pure _
  | cons a l ih =>
    rw [List.foldlM_cons]
    exact (hf b a).bind fun b => ih b

theorem forIn {l : List α} {b : β} {f : α → β → Build (ForInStep β)}
    (hf : ∀ a ∈ l, ∀ b, Along ctx R (f a b)) : Along ctx R (ForIn.forIn l b f) := by
  induction l generalizing b with
  | nil => exact .pure _
  | cons a l ih =>
    rw [List.forIn_cons]
    refine (hf a List.mem_cons_self b).bind fun step => ?_
    cases step with
    | done b => exact .pure b
    | yield b => exact ih fun a ha => hf a (List.mem_cons_of_mem _ ha)

end Along

/-- Whatever an action makes of a draft has a property. -/
def Yields (ctx : Declared) (d : Draft) (m : Build α) (Q : α → Draft → Prop) : Prop :=
  ∀ a d', m ctx d = .ok a d' → Q a d'

section Yields

variable {d : Draft} {Q : α → Draft → Prop} {S : β → Draft → Prop}

theorem Along.yields {m : Build α} (h : Along ctx R m) : Yields ctx d m fun _ d' => R d d' :=
  fun a d' hm => h d a d' hm

theorem Yields.bind {m : Build α} {f : α → Build β} (hm : Yields ctx d m Q)
    (hf : ∀ a d₁, Q a d₁ → Yields ctx d₁ (f a) S) : Yields ctx d (m >>= f) S := by
  intro b d' h
  obtain ⟨a, d₁, h₁, h₂⟩ := exists_ok_of_bind h
  exact hf a d₁ (hm a d₁ h₁) b d' h₂

theorem yields_pure {a : α} (h : Q a d) : Yields ctx d (pure a) Q := by
  intro _ _ heq
  cases heq
  exact h

theorem yields_pure_bind {a : α} {f : α → Build β} (hf : Yields ctx d (f a) S) :
    Yields ctx d (pure a >>= f) S :=
  hf

theorem yields_raise (fault : GrammarFault) (start : Option Nat) :
    Yields ctx d (Build.raise fault start) Q := by
  intro _ _ h
  cases h

theorem yields_get_bind {f : Draft → Build β} (hf : Yields ctx d (f d) S) :
    Yields ctx d (MonadState.get >>= f) S :=
  hf

theorem yields_read_bind {f : Declared → Build β} (hf : Yields ctx d (f ctx) S) :
    Yields ctx d (MonadReader.read >>= f) S :=
  hf

theorem yields_modify_bind {g : Draft → Draft} {f : PUnit → Build β}
    (hf : Yields ctx (g d) (f ⟨⟩) S) : Yields ctx d (modify g >>= f) S :=
  hf

theorem yields_check_bind {result : Except FaultAt α} {f : α → Build β}
    (hf : ∀ a, result = .ok a → Yields ctx d (f a) S) :
    Yields ctx d (Build.check result >>= f) S := by
  intro b d' h
  obtain ⟨a, d₁, h₁, h₂⟩ := exists_ok_of_bind h
  cases result with
  | ok a =>
    cases h₁
    exact hf a rfl b d' h₂
  | error e => cases h₁

/-- A step that is only taken under a condition, and changes little. -/
theorem Yields.when {c : Prop} {_ : Decidable c} {m : Build PUnit} {f : PUnit → Build β}
    [Std.Refl R] (hm : Along ctx R m) (hf : ∀ d₁, R d d₁ → Yields ctx d₁ (f ⟨⟩) S) :
    Yields ctx d (if c then m >>= f else f ⟨⟩) S := by
  split
  · exact hm.yields.bind fun _ d₁ hd₁ => hf d₁ hd₁
  · exact hf d (refl_of R d)

end Yields

theorem grows_of_supplies {m : Build α} (h : Along ctx (Supplies ctx.decl) m) :
    Along ctx (Grows ctx.decl 0) m :=
  h.mono (·.toGrows)

theorem supplies_of_quietly {m : Build α} (h : Along ctx (Quietly ctx.decl) m) :
    Along ctx (Supplies ctx.decl) m :=
  h.mono (·.toSupplies)

theorem Along.quietly {m : Build α} (h : Along ctx (Silently ctx.decl) m) :
    Along ctx (Quietly ctx.decl) m :=
  h.mono (·.toQuietly)

/-- Changes that have nothing to do with symbols, rules and tokens. -/
theorem quietly_modify {f : Draft → Draft} (hterms : ∀ d, (f d).terms = d.terms)
    (hdeclared : ∀ d, (f d).declared = d.declared) (hnoted : ∀ d, (f d).noted = d.noted) :
    Along ctx (Quietly ctx.decl) (modify f : Build PUnit) :=
  .of_modify fun d => .of_terms_eq (hterms d) (hdeclared d) (hnoted d)

theorem silently_modify {f : Draft → Draft} (hterms : ∀ d, (f d).terms = d.terms)
    (hdeclared : ∀ d, (f d).declared = d.declared) (hnoted : ∀ d, (f d).noted = d.noted)
    (htokens : ∀ d, (f d).tokens = d.tokens)
    (horigins : ∀ d, (f d).origins = d.origins) :
    Along ctx (Silently ctx.decl) (modify f : Build PUnit) :=
  .of_modify fun d =>
    ⟨.of_terms_eq (hterms d) (hdeclared d) (hnoted d), htokens d, horigins d⟩

/-- A new symbol comes behind all that are there. -/
theorem newTerm_ok {info : TermInfo} (hkind : info.kind ≠ .top) {ctx : Declared} {d d' : Draft}
    {t : Term} (h : newTerm info ctx d = .ok t d') :
    Quietly ctx.decl d d' ∧ t.index = d.terms.size ∧ d'.terms.size = d.terms.size + 1 ∧
      (d'.terms.info t).kind = info.kind := by
  cases h
  have hsize := TermTable.size_add d.terms { info with name := d.terms.freshName info.name }
  have hself := TermTable.info_add_self d.terms { info with name := d.terms.freshName info.name }
  refine ⟨.of_eq (hsize.symm ▸ Nat.le_succ _) ?_
    (fun _ ht => congrArg TermInfo.kind (TermTable.info_add_of_lt _ ht)) rfl rfl,
    rfl, hsize, congrArg (fun i => i.kind) hself⟩
  simp [hkind]

theorem silently_modifyTerm {t : Term} {f : TermInfo → TermInfo}
    (hkind : ∀ i, (f i).kind = i.kind) : Along ctx (Silently ctx.decl) (modifyTerm t f) :=
  .of_modify fun d => ⟨.of_eq (Nat.le_of_eq (TermTable.size_modify d.terms t f).symm) rfl
    (fun u _ => TermTable.apply_info_modify hkind u) rfl rfl, rfl, rfl⟩

theorem silently_warn (warning : Warning) (start : Option Nat) :
    Along ctx (Silently ctx.decl) (warn warning start) :=
  Along.read.bind fun _ =>
    silently_modify (fun _ => rfl) (fun _ => rfl) (fun _ => rfl) (fun _ => rfl) fun _ => rfl

theorem silently_markUsed (name : String) : Along ctx (Silently ctx.decl) (markUsed name) := by
  refine silently_modify (fun _ => rfl) (fun _ => rfl) (fun d => ?_) (fun _ => rfl) fun _ => rfl
  have hnames : (d.names.map fun n => if n.name == name then { n with unusedAt := none } else n).map
      DeclaredName.name = d.names.map DeclaredName.name := by
    rw [List.map_map]
    refine List.map_congr_left fun n _ => ?_
    rw [Function.comp]
    split <;> rfl
  exact congrArg (fun names => (d.tokenInstances, d.specializations, names)) hnames

theorem silently_nameTerm (name : String) (t : Term) :
    Along ctx (Silently ctx.decl) (nameTerm name t) :=
  silently_modify (fun _ => rfl) (fun _ => rfl) (fun _ => rfl) (fun _ => rfl) fun _ => rfl

theorem quietly_setOrigin (t : Term) (origin : TokenOrigin) :
    Along ctx (Quietly ctx.decl) (setOrigin t origin) :=
  quietly_modify (fun _ => rfl) (fun _ => rfl) fun _ => rfl

theorem silently_restrictToDialect (dialect : Option Nat) (t : Term) :
    Along ctx (Silently ctx.decl) (restrictToDialect dialect t) := by
  cases dialect with
  | none => exact .pure ()
  | some id =>
    exact silently_modify (fun _ => rfl) (fun _ => rfl) (fun _ => rfl) (fun _ => rfl) fun _ => rfl

theorem quietly_onTokens (action : TokenBuild.Action Unit) :
    Along ctx (Quietly ctx.decl) (onTokens action) := by
  refine Along.get.bind fun _ => (Along.check _).bind fun _ => .bind ?_ fun _ => ?_
  · exact quietly_modify (fun _ => rfl) (fun _ => rfl) fun _ => rfl
  · exact .forM fun name _ => (silently_markUsed name).quietly

theorem quietly_tokenEnd (t : Term) : Along ctx (Quietly ctx.decl) (tokenEnd t) := by
  intro _ _ _ h
  cases h
  exact .of_terms_eq rfl rfl rfl

theorem silently_preserve (t : Term) :
    Along ctx (Silently ctx.decl) (modifyTerm t fun i => { i with preserved := true }) :=
  silently_modifyTerm fun _ => rfl

theorem silently_exportNode (info : NodeInfo) (t : Term) :
    Along ctx (Silently ctx.decl) (exportNode info t) := by
  rw [exportNode]
  split
  · exact .pure ()
  · exact .when (silently_preserve t) fun _ => silently_nameTerm _ _

theorem quietly_tokenFuel (e : Expr) : Along ctx (Quietly ctx.decl) (tokenFuel e) :=
  Along.read.bind fun _ => .pure _

theorem silently_hasNodeName (t : Term) : Along ctx (Silently ctx.decl) (hasNodeName t) :=
  Along.get.bind fun _ => .pure _

theorem silently_addPropWord (t : Term) (prop word : String) :
    Along ctx (Silently ctx.decl) (addPropWord t prop word) := by
  refine silently_modifyTerm fun i => ?_
  split
  · rfl
  · split <;> rfl

theorem silently_registerRule (rule : RuleDecl) (inPlace : Bool) (info : NodeInfo) (t : Term) :
    Along ctx (Silently ctx.decl) (registerRule rule inPlace info t) := by
  have hname : Along ctx (Silently ctx.decl) (do
      let isNode := ((← get).terms.info t).isNode
      if (isNode || info.exported.isSome) && rule.params.isEmpty then
        if info.name.isNone then modifyTerm t fun i => { i with preserved := true }
        if !inPlace then nameTerm (info.exported.getD rule.id.name) t) :=
    Along.get.bind fun d => .ite
      (.when (silently_preserve t) fun _ => .ite (silently_nameTerm _ t) (.pure _)) (.pure _)
  rw [registerRule]
  refine .when (silently_modifyTerm fun _ => rfl) fun _ =>
    .ite (.bind ?_ fun _ => (silently_preserve t).bind fun _ => hname) hname
  exact silently_modify (fun _ => rfl) (fun _ => rfl) (fun _ => rfl) (fun _ => rfl) fun _ => rfl

/-- A new terminal is there. -/
theorem yields_newTerminal (name : String) (info : NodeInfo) (ctx : Declared) (d : Draft) :
    Yields ctx d (newTerminal name info) fun t d' =>
      Quietly ctx.decl d d' ∧ d'.terms.IsToken t := by
  refine Yields.bind (fun _ _ h => newTerm_ok (by simp) h)
    fun t d₁ ⟨hquiet, hindex, hsize, hkind⟩ => ?_
  refine (silently_restrictToDialect _ _).quietly.yields.bind fun _ d₂ hquiet' => yields_pure ?_
  exact ⟨trans_of (Quietly ctx.decl) hquiet hquiet',
    hquiet'.isToken ⟨by omega, beq_iff_eq.mpr hkind⟩⟩

/-! ## §4 Tokens -/

end Build

theorem TokenKey.same_self (key : TokenKey) : key.same key = true := by
  cases key <;> simp [same, Expr.allSame]

namespace Draft

variable {decl : GrammarDecl} {low : Nat} {d d' : Draft}

theorem casesOf_withTable (d : Draft) (base : Term) : (d.withTable base).casesOf = d.casesOf := by
  funext other
  rw [withTable]
  split
  · rfl
  · rename_i hnew
    rw [casesOf, casesOf, List.find?_append]
    cases hfind : d.specializations.find? fun t => t.base == other with
    | some table => rfl
    | none =>
      by_cases heq : base = other
      · simp [heq]
      · simp [heq]

/-- A new case stands behind those that are there. -/
theorem casesOf_addCase (d : Draft) (base : Term) (s : Specialization) (other : Term) :
    (d.addCase base s).casesOf other = if other = base ∧ d.specializations.any (·.base == base)
      then d.casesOf base ++ [s] else d.casesOf other := by
  have hbase : ((fun t : SpecializationTable => t.base == other) ∘ fun t =>
      if t.base == base then { t with cases := t.cases ++ [s] } else t) =
      fun t => t.base == other := by
    funext t
    rw [Function.comp]
    split <;> rfl
  rw [casesOf, addCase, List.find?_map, hbase]
  cases hfind : d.specializations.find? fun t => t.base == other with
  | none =>
    have hnone : ¬ (other = base ∧ d.specializations.any (·.base == base)) := by
      rintro ⟨rfl, hany⟩
      obtain ⟨t, ht, heq⟩ := List.any_eq_true.mp hany
      exact List.find?_eq_none.mp hfind t ht heq
    rw [if_neg hnone, casesOf, hfind]
    rfl
  | some table =>
    have hother : table.base = other := by simpa using List.find?_some hfind
    by_cases heq : other = base
    · have hany : d.specializations.any (·.base == base) = true :=
        List.any_eq_true.mpr ⟨table, List.mem_of_find?_eq_some hfind, by simp [hother, heq]⟩
      rw [if_pos ⟨heq, hany⟩, ← heq, casesOf, hfind]
      simp [hother]
    · rw [if_neg fun h => heq h.1, casesOf, hfind]
      simp [hother, heq]

/-- Remembering a token. -/
theorem supplies_rememberToken {t : Term} (ht : d.terms.IsToken t) {key : TokenKey}
    (hkey : ∀ name args, key = .rule name args → ∃ r ∈ decl.tokenRules, r.id.name = name) :
    Supplies decl d { d with tokenInstances := d.tokenInstances ++ [⟨key, t⟩] } where
  __ := Grows.refl decl 0 d
  tokenInstances := List.prefix_append _ _
  tidy hd := by
    refine ⟨fun u hu => ?_, fun i hi => ?_, hd.lt_size, hd.stretches, hd.names, hd.tops⟩
    on_goal 2 =>
      rcases List.mem_append.mp hi with hi | hi
      · exact hd.keys i hi
      · exact List.mem_singleton.mp hi ▸ hkey
    simp only [tokenTerms, List.map_append, List.mem_append, List.map_cons, List.map_nil,
      List.mem_singleton] at hu
    rcases hu with ((hu | rfl) | hu) | hu
    · exact hd.tokens u (List.mem_append_left _ (List.mem_append_left _ hu))
    · exact ht
    · exact hd.tokens u (List.mem_append_left _ (List.mem_append_right _ hu))
    · exact hd.tokens u (List.mem_append_right _ hu)
  declared_eq := rfl

theorem tokenFor?_remembered (d : Draft) {key : TokenKey} (hnone : d.tokenFor? key = none)
    (t : Term) : Draft.tokenFor? { d with tokenInstances := d.tokenInstances ++ [⟨key, t⟩] } key =
      some t := by
  rw [Draft.tokenFor?, List.find?_append, Option.map_eq_none_iff.mp hnone, Option.none_or]
  simp [TokenKey.same_self]

theorem Quietly.tokenFor?_eq (h : Quietly decl d d') (key : TokenKey) :
    d'.tokenFor? key = d.tokenFor? key := by
  have htokens : d'.tokenInstances = d.tokenInstances := congrArg Prod.fst h.noted_eq
  rw [Draft.tokenFor?, htokens, Draft.tokenFor?]

theorem Quietly.casesOf_eq (h : Quietly decl d d') : d'.casesOf = d.casesOf := by
  have hcases : d'.specializations = d.specializations :=
    congrArg (fun noted => noted.2.1) h.noted_eq
  funext base
  rw [casesOf, hcases, casesOf]

/-- The case that a token has for a text. -/
def caseFor? (d : Draft) (base : Term) (value : String) : Option Specialization :=
  (d.casesOf base).find? fun s => s.value == value

/-- Whether there is a table of cases for a token. -/
def HasTable (d : Draft) (base : Term) : Prop :=
  d.specializations.any (fun t => t.base == base) = true

theorem HasTable.withTable (d : Draft) (base : Term) : (d.withTable base).HasTable base := by
  rw [Draft.withTable]
  split
  next h => exact h
  next => exact List.any_eq_true.mpr ⟨⟨base, []⟩, by simp, by simp⟩

theorem HasTable.addCase {base : Term} (h : d.HasTable base) (s : Specialization) :
    (d.addCase base s).HasTable base := by
  obtain ⟨t, ht, heq⟩ := List.any_eq_true.mp h
  exact List.any_eq_true.mpr ⟨_, List.mem_map_of_mem ht, by simp [heq]⟩

theorem Quietly.hasTable_iff (h : Quietly decl d d') {base : Term} :
    d'.HasTable base ↔ d.HasTable base := by
  have hcases : d'.specializations = d.specializations :=
    congrArg (fun noted => noted.2.1) h.noted_eq
  rw [HasTable, hcases, HasTable]

theorem mem_tokenTerms_of_case {base : Term} {s : Specialization} (h : s ∈ d.casesOf base) :
    s.term ∈ d.tokenTerms := by
  rw [casesOf] at h
  cases hfind : d.specializations.find? fun table => table.base == base with
  | none =>
    rw [hfind] at h
    cases h
  | some table =>
    rw [hfind] at h
    refine List.mem_append_right _ (List.mem_flatMap.mpr ?_)
    exact ⟨table, List.mem_of_find?_eq_some hfind, List.mem_map_of_mem h⟩

theorem supplies_withTable (d : Draft) (base : Term) : Supplies decl d (d.withTable base) := by
  have hgrows : Grows decl 0 d (d.withTable base) := by
    rw [withTable]
    split
    · exact .refl decl 0 d
    · rename_i hnew
      refine { Grows.refl decl 0 d with
        cases := fun other p s hs => ?_
        tidy := fun hd =>
          ⟨fun u hu => hd.tokens u ?_, hd.keys, hd.lt_size, hd.stretches, hd.names, hd.tops⟩ }
      · have htable := congrFun (casesOf_withTable d base) other
        rw [withTable, if_neg hnew] at htable
        rwa [htable]
      · simpa [tokenTerms] using hu
  refine ⟨hgrows, ?_⟩
  rw [withTable]
  split <;> rfl

/-- Remembering a case. -/
theorem supplies_addCase {s : Specialization} (hs : d.Tidy decl → d.terms.IsToken s.term)
    (base : Term) :
    Supplies decl d (d.addCase base s) where
  __ := Grows.refl decl 0 d
  cases other p found hfound := by
    rw [casesOf_addCase]
    split
    · rename_i hbase
      rw [List.find?_append, ← hbase.1, hfound]
      rfl
    · exact hfound
  tidy hd := by
    refine ⟨fun u hu => ?_, hd.keys, hd.lt_size, hd.stretches, hd.names, hd.tops⟩
    have hcases : u ∈ d.tokenTerms ∨ u = s.term := by
      simp only [tokenTerms, addCase, List.mem_append, List.mem_flatMap, List.mem_map] at hu ⊢
      rcases hu with hu | ⟨_, ⟨table, htable, rfl⟩, c, hc, rfl⟩
      · exact .inl (.inl hu)
      · split at hc
        · rcases List.mem_append.mp hc with hc | hc
          · exact .inl (.inr ⟨table, htable, c, hc, rfl⟩)
          · exact .inr (congrArg Specialization.term (List.mem_singleton.mp hc))
        · exact .inl (.inr ⟨table, htable, c, hc, rfl⟩)
    rcases hcases with hu | rfl
    · exact hd.tokens u hu
    · exact hs hd
  declared_eq := rfl

end Draft

namespace Build

open Draft (Grows Supplies Quietly)

variable {α β : Type} {ctx : Declared} {d d' : Draft} {t : Term}

/-- A new terminal is remembered in the end. -/
theorem yields_rememberToken {key : TokenKey} {d₀ : Draft} (hd : Quietly ctx.decl d₀ d)
    (hnone : d₀.tokenFor? key = none) (ht : d.terms.IsToken t)
    (hkey : ∀ name args, key = .rule name args → ∃ r ∈ ctx.decl.tokenRules, r.id.name = name) :
    Yields ctx d (rememberToken key t) fun _ d' =>
      Supplies ctx.decl d₀ d' ∧ d'.tokenFor? key = some t := by
  intro _ _ h
  cases h
  refine ⟨trans_of (Supplies ctx.decl) hd.toSupplies (Draft.supplies_rememberToken ht hkey),
    Draft.tokenFor?_remembered d ?_ t⟩
  rw [hd.tokenFor?_eq, hnone]

/-- Builds the token of a literal. -/
def newLiteral (value : String) (info : NodeInfo) : Build Term := do
  let term ← newTerminal (Text.quoted value) info
  if let some name := info.exported then nameTerm name term
  let target ← tokenEnd term
  onTokens (TokenBuild.addLiteral value Draft.tokenStart target)
  rememberToken (.literal value) term
  return term

theorem yields_newLiteral (value : String) (info : NodeInfo)
    (hnone : d.tokenFor? (.literal value) = none) :
    Yields ctx d (newLiteral value info) fun t d' =>
      Supplies ctx.decl d d' ∧ d'.tokenFor? (.literal value) = some t := by
  -- What is left when the terminal has its name.
  have hbuild {d₁ : Draft} {t : Term} (hd₁ : Quietly ctx.decl d d₁) (ht : d₁.terms.IsToken t) :
      Yields ctx d₁ (do
        let target ← tokenEnd t
        onTokens (TokenBuild.addLiteral value Draft.tokenStart target)
        rememberToken (.literal value) t
        return t) fun t d' => Supplies ctx.decl d d' ∧ d'.tokenFor? (.literal value) = some t := by
    refine (quietly_tokenEnd t).yields.bind fun _ d₂ hd₂ => ?_
    refine (quietly_onTokens _).yields.bind fun _ d₃ hd₃ => ?_
    have hd₁₃ := trans_of (Quietly ctx.decl) hd₂ hd₃
    refine (yields_rememberToken (trans_of (Quietly ctx.decl) hd₁ hd₁₃) hnone
      (hd₁₃.isToken ht) nofun).bind ?_
    exact fun _ d' h => yields_pure h
  refine (yields_newTerminal _ _ _ _).bind fun t d₁ ⟨hd₁, ht⟩ => ?_
  split
  · refine (silently_nameTerm _ t).quietly.yields.bind fun _ d₂ hd₂ => ?_
    exact hbuild (trans_of (Quietly ctx.decl) hd₁ hd₂) (hd₂.isToken ht)
  · exact hbuild hd₁ ht

/-- A literal has a token afterwards. -/
theorem yields_literalToken (value : String) (ctx : Declared) (d : Draft) :
    Yields ctx d (literalToken value) fun t d' =>
      Supplies ctx.decl d d' ∧ d'.tokenFor? (.literal value) = some t := by
  refine yields_get_bind ?_
  split
  next hknown => exact yields_pure ⟨refl_of (Supplies ctx.decl) d, hknown⟩
  next hnew =>
  have hnone : d.tokenFor? (.literal value) = none := Option.eq_none_iff_forall_ne_some.mpr hnew
  refine yields_read_bind ?_
  dsimp only
  split
  · exact yields_check_bind fun info _ => yields_newLiteral value info hnone
  · exact yields_pure_bind (yields_newLiteral value {} hnone)

/-- A reference that has a token afterwards is to a token rule, and if there is such a rule, it
has one. -/
theorem yields_token? (start : Nat) (name : String) (args : List Expr) (ctx : Declared)
    (d : Draft) :
    Yields ctx d (token? start name args) fun found d' => Supplies ctx.decl d d' ∧
      (∀ t, found = some t → d'.tokenFor? (.rule name args) = some t) ∧
      (found = none → ∀ r ∈ ctx.decl.tokenRules, r.id.name ≠ name) := by
  refine yields_get_bind ?_
  split
  next hknown =>
    refine yields_pure ⟨refl_of (Supplies ctx.decl) d, fun t ht => ?_, nofun⟩
    cases ht
    exact hknown
  next hnew =>
  have hnone : d.tokenFor? (.rule name args) = none := Option.eq_none_iff_forall_ne_some.mpr hnew
  refine yields_read_bind ?_
  dsimp only
  split
  next rule hrule =>
    have hkey : ∀ name' args', TokenKey.rule name args = .rule name' args' →
        ∃ r ∈ ctx.decl.tokenRules, r.id.name = name' := by
      rintro _ _ ⟨⟩
      exact ⟨rule, List.mem_of_find?_eq_some hrule, by simpa using List.find?_some hrule⟩
    refine yields_check_bind fun info _ => ?_
    refine (yields_newTerminal _ _ _ _).bind fun t d₁ ⟨hd₁, ht⟩ => ?_
    refine Yields.when (silently_exportNode info t).quietly fun d₂ hd₂ => ?_
    refine (quietly_tokenEnd t).yields.bind fun _ d₃ hd₃ => ?_
    refine (quietly_tokenFuel _).yields.bind fun _ d₄ hd₄ => ?_
    refine (quietly_onTokens _).yields.bind fun _ d₅ hd₅ => ?_
    have hquiet := trans_of (Quietly ctx.decl) hd₂ (trans_of (Quietly ctx.decl) hd₃
      (trans_of (Quietly ctx.decl) hd₄ hd₅))
    refine (yields_rememberToken (trans_of (Quietly ctx.decl) hd₁ hquiet) hnone
      (hquiet.isToken ht) hkey).bind fun _ d' ⟨hd', hfound⟩ => yields_pure ?_
    refine ⟨hd', fun u hu => ?_, nofun⟩
    cases hu
    exact hfound
  next hmissing =>
    refine yields_pure ⟨refl_of (Supplies ctx.decl) d, nofun, fun _ r hr heq => ?_⟩
    have hno := List.find?_eq_none.mp (Option.eq_none_iff_forall_ne_some.mpr hmissing) r hr
    exact hno (beq_iff_eq.mpr heq)

theorem supplies_token? (start : Nat) (name : String) (args : List Expr) :
    Along ctx (Supplies ctx.decl) (token? start name args) :=
  fun d a d' h => (yields_token? start name args ctx d a d' h).1

theorem supplies_literalToken (value : String) :
    Along ctx (Supplies ctx.decl) (literalToken value) :=
  fun d a d' h => (yields_literalToken value ctx d a d' h).1

/-- What a text is specialized to, if the texts before it make the token `made`: that token, and
otherwise a new one or the one that it was specialized to before. -/
theorem yields_specializeValue (start : Nat) (kind : SpecializeKind) (info : NodeInfo)
    {base : Term} {made : Option Term} (value : String) (htable : d.HasTable base)
    (hmade : d.Tidy ctx.decl → ∀ u ∈ made, d.terms.IsToken u) :
    Yields ctx d (specializeValue start kind info base made value) fun found d' =>
      Supplies ctx.decl d d' ∧ d'.HasTable base ∧ ∃ s, found = some s.term ∧
        d'.caseFor? base value = some s ∧ ∀ u ∈ made, u = s.term := by
  refine yields_get_bind ?_
  dsimp only
  split
  next known hknown =>
    split
    next => exact yields_raise _ _
    next hclash =>
      refine yields_pure ⟨refl_of (Supplies ctx.decl) d, htable, known, rfl, hknown, ?_⟩
      rintro u rfl
      by_contra hne
      rw [clash?] at hclash
      split at hclash
      · cases hclash
      split at hclash
      · cases hclash
      split at hclash
      · cases hclash
      · simp [hne] at hclash
  next hunknown =>
    -- What is left when there is a token for the text.
    have hadd {d₁ : Draft} {t : Term} (hd₁ : Quietly ctx.decl d d₁)
        (ht : d₁.Tidy ctx.decl → d₁.terms.IsToken t) (hsame : ∀ u ∈ made, u = t) :
        Yields ctx d₁ (do
          modify fun d => d.addCase base ⟨value, t, kind, info.dialect, info.name⟩
          setOrigin t (.specializes base)
          exportNode info t
          return some t) fun found d' => Supplies ctx.decl d d' ∧ d'.HasTable base ∧
            ∃ s, found = some s.term ∧ d'.caseFor? base value = some s ∧
              ∀ u ∈ made, u = s.term := by
      refine yields_modify_bind ?_
      let s : Specialization := ⟨value, t, kind, info.dialect, info.name⟩
      have hcase : Supplies ctx.decl d (d₁.addCase base s) :=
        trans_of (Supplies ctx.decl) hd₁.toSupplies (Draft.supplies_addCase (s := s) ht base)
      have htable₁ : d₁.HasTable base := hd₁.hasTable_iff.mpr htable
      have hfound : (d₁.addCase base s).caseFor? base value = some s := by
        rw [Draft.caseFor?, Draft.casesOf_addCase, if_pos ⟨rfl, htable₁⟩, hd₁.casesOf_eq,
          List.find?_append, List.find?_eq_none.mpr fun c hc => ?_]
        · simp [s]
        · exact List.find?_eq_none.mp hunknown c hc
      refine (quietly_setOrigin _ _).yields.bind fun _ d₂ hd₂ => ?_
      refine (silently_exportNode _ _).quietly.yields.bind fun _ d₃ hd₃ => yields_pure ?_
      have hquiet := trans_of (Quietly ctx.decl) hd₂ hd₃
      exact ⟨trans_of (Supplies ctx.decl) hcase hquiet.toSupplies,
        hquiet.hasTable_iff.mpr (htable₁.addCase s), s, rfl, hquiet.cases _ _ _ hfound, hsame⟩
    split
    next u =>
      refine hadd (refl_of (Quietly ctx.decl) d) (hmade · u rfl) fun v hv => ?_
      exact (Option.some.inj hv).symm
    next =>
      exact (yields_newTerminal _ _ _ _).bind fun t d₁ ⟨hd₁, ht⟩ =>
        hadd hd₁ (fun _ => ht) nofun

/-- All texts of a specialization make the same token. -/
theorem yields_specializeValues (start : Nat) (kind : SpecializeKind) (info : NodeInfo)
    {base : Term} {made : Option Term} (values : List String) (htable : d.HasTable base)
    (hmade : d.Tidy ctx.decl → ∀ u ∈ made, d.terms.IsToken u) :
    Yields ctx d (values.foldlM (specializeValue start kind info base) made) fun found d' =>
      Supplies ctx.decl d d' ∧ (values = [] → found = made) ∧ ∀ t ∈ found,
        (∀ u ∈ made, u = t) ∧ ∀ v ∈ values, ∃ s, d'.caseFor? base v = some s ∧ s.term = t := by
  induction values generalizing d made with
  | nil =>
    refine yields_pure ⟨refl_of (Supplies ctx.decl) d, fun _ => rfl, fun t ht => ⟨?_, nofun⟩⟩
    rintro u hu
    exact Option.some.inj (hu.symm.trans ht)
  | cons value values ih =>
    rw [List.foldlM_cons]
    refine (yields_specializeValue start kind info value htable hmade).bind ?_
    rintro _ d₁ ⟨hd₁, htable₁, s, rfl, hs, hsame⟩ found d' h
    have htoken : d₁.Tidy ctx.decl → ∀ u ∈ some s.term, d₁.terms.IsToken u := by
      rintro hd u ⟨⟩
      exact hd.tokens _ (Draft.mem_tokenTerms_of_case (List.mem_of_find?_eq_some hs))
    obtain ⟨hd', _, hsome⟩ := ih htable₁ htoken found d' h
    refine ⟨trans_of (Supplies ctx.decl) hd₁ hd', nofun, fun t ht => ?_⟩
    obtain ⟨hmade', hcases⟩ := hsome t ht
    obtain rfl : s.term = t := hmade' _ rfl
    exact ⟨hsame, List.forall_mem_cons.mpr ⟨⟨s, hd'.cases _ _ _ hs, rfl⟩, hcases⟩⟩

/-- A specialization makes one token of all its texts. -/
theorem yields_specializeToken (start : Nat) (kind : SpecializeKind) (info : NodeInfo)
    (token content : Expr) (phrases : List Phrase) :
    Yields ctx d (specializeToken start kind info token content phrases) fun t d' =>
      Supplies ctx.decl d d' ∧ ∃ base values, singleTerminal? d.terms phrases = some base ∧
        content.literals? = some values ∧ values ≠ [] ∧
        ∀ v ∈ values, ∃ s, d'.caseFor? base v = some s ∧ s.term = t := by
  refine yields_get_bind ?_
  split
  next base hbase =>
    split
    next values hvalues =>
      refine yields_modify_bind ?_
      have hd₁ : Supplies ctx.decl d (d.withTable base) := Draft.supplies_withTable d base
      refine (yields_specializeValues start kind info values
        (Draft.HasTable.withTable d base) fun _ => (nofun : ∀ u ∈ (none : Option Term), _)).bind
        fun found d₂ ⟨hd₂, hnone, hfound⟩ => ?_
      cases found with
      | none => exact yields_raise _ _
      | some t =>
        exact yields_pure ⟨trans_of (Supplies ctx.decl) hd₁ hd₂, base, values, hbase, hvalues,
          fun hnil => (nomatch hnone hnil), (hfound t rfl).2⟩
    next => exact yields_raise _ _
  next => exact yields_raise _ _

/-! ## §5 Rules -/

theorem supplies_delimiterToken (depth : Nat) (e : Expr) :
    Along ctx (Supplies ctx.decl) (delimiterToken depth e) := by
  have hliteral (value : String) : Along ctx (Supplies ctx.decl) (do
      return some (← literalToken value, value) : Build (Option (Term × String))) :=
    (supplies_literalToken value).bind fun _ => .pure _
  induction depth generalizing e with
  | zero =>
    rw [delimiterToken.eq_def]
    split
    · exact hliteral _
    next h => cases h
    · exact .pure _
  | succ depth ih =>
    rw [delimiterToken.eq_def]
    split
    · exact hliteral _
    next h =>
      cases h
      refine Along.read.bind fun ctx => ?_
      dsimp only
      split
      · exact ih _
      · split
        · exact .pure _
        · exact (supplies_token? _ _ _).bind fun _ => .pure _
    · exact .pure _

theorem supplies_hasNodeName (t : Term) : Along ctx (Supplies ctx.decl) (hasNodeName t) :=
  supplies_of_quietly (silently_hasNodeName t).quietly

theorem supplies_delimiters? (e : Expr) : Along ctx (Supplies ctx.decl) (delimiters? e) := by
  unfold delimiters?
  split
  · refine (supplies_delimiterToken 8 _).bind fun found => ?_
    split
    · refine (supplies_hasNodeName _).bind fun named => .ite (.pure _) ?_
      split
      · refine (supplies_delimiterToken 8 _).bind fun found => ?_
        split
        · exact (supplies_hasNodeName _).bind fun _ => .ite (.pure _) (.pure _)
        · exact .pure _
      · exact .pure _
    · exact .pure _
  · exact .pure _

theorem supplies_ruleInfo (place : NodePlace) (rule : RuleDecl) (args : List Expr) :
    Along ctx (Supplies ctx.decl) (ruleInfo place rule args) := by
  have hmark (info : NodeInfo) : Along ctx (Supplies ctx.decl) (markDelimiters info rule.body) := by
    refine Along.read.bind fun _ => .ite ((supplies_delimiters? _).bind fun found => ?_) (.pure _)
    split
    · exact Along.get.bind fun _ => supplies_of_quietly
        ((silently_addPropWord _ _ _).bind fun _ => silently_addPropWord _ _ _).quietly
    · exact .pure _
  exact Along.read.bind fun _ => (Along.check _).bind fun _ => (hmark _).bind fun _ => .check _

end Build

namespace Draft

/-- A draft that remembers the symbol of one more rule. -/
def withInstance (d : Draft) (i : RuleInstance) : Draft :=
  { d with ruleInstances := d.ruleInstances ++ [i] }

/-- A draft that remembers the symbol of one more repeat. -/
def withRepeat (d : Draft) (i : RepeatInstance) : Draft :=
  { d with repeatInstances := d.repeatInstances ++ [i] }

/-- The rules for a symbol that are created for phrases. -/
def rulesFrom (next : Nat) (name skip : Term) (phrases : List Phrase) : List Rule :=
  phrases.zipIdx.map fun (body, i) => { toPhrase := body, id := next + i, name, skip }

/-- A draft with rules for a symbol, one for each of several phrases. -/
def withRules (d : Draft) (name skip : Term) (phrases : List Phrase) : Draft :=
  { d with rules := d.rules ++ rulesFrom d.rules.length name skip phrases }

theorem name_of_mem_rulesFrom {next : Nat} {name skip : Term} {phrases : List Phrase} {r : Rule}
    (hr : r ∈ rulesFrom next name skip phrases) : r.name = name := by
  obtain ⟨_, _, rfl⟩ := List.mem_map.mp hr
  rfl

/-- `Enters decl low d t d'`: the symbol `t` is created, which is no terminal. -/
structure Enters (decl : GrammarDecl) (low : Nat) (d : Draft) (t : Term) (d' : Draft) : Prop
    extends Grows decl low d d' where
  declared_eq : d'.declared = d.declared
  size_le_index : d.terms.size ≤ t.index
  index_lt : t.index < d'.terms.size
  isTerminal : d'.terms.isTerminal t = false

variable {decl : GrammarDecl} {low : Nat} {d d₁ d₂ : Draft} {t : Term}

theorem grows_withInstance (d : Draft) (i : RuleInstance) : Grows decl 0 d (d.withInstance i) where
  __ := Grows.refl decl 0 d
  ruleInstances := List.prefix_append _ _
  tidy hd := ⟨hd.tokens, hd.keys, hd.lt_size, hd.stretches, hd.names, hd.tops⟩

theorem grows_withRepeat (d : Draft) (i : RepeatInstance) : Grows decl 0 d (d.withRepeat i) where
  __ := Grows.refl decl 0 d
  repeatInstances := List.prefix_append _ _
  tidy hd := ⟨hd.tokens, hd.keys, hd.lt_size, hd.stretches, hd.names, hd.tops⟩

/-- Rules for a symbol that has none. -/
theorem tidy_withRules (hd : d.Tidy decl) (hlt : t.index < d.terms.size)
    (hnew : ∀ r ∈ d.rules, r.name ≠ t) (skip : Term) (phrases : List Phrase) :
    (d.withRules t skip phrases).Tidy decl := by
  refine ⟨hd.tokens, hd.keys, fun r hr => ?_,
    .append hd.stretches (fun _ => name_of_mem_rulesFrom) hnew, hd.names, hd.tops⟩
  rcases List.mem_append.mp hr with hr | hr
  · exact hd.lt_size r hr
  · exact name_of_mem_rulesFrom hr ▸ hlt

/-- Rules for one of the first `low` symbols that has none so far, or for a new one. -/
theorem Grows.withRules (h : Grows decl low d d₁)
    (hindex : t.index < low ∨ d.terms.size ≤ t.index) (hlt : t.index < d₁.terms.size)
    (hnew : d.Tidy decl → ∀ r ∈ d₁.rules, r.name ≠ t) (skip : Term) (phrases : List Phrase) :
    Grows decl low d (d₁.withRules t skip phrases) where
  __ := h
  rules := by
    obtain ⟨new, heq, hfresh⟩ := h.rules
    refine ⟨new ++ rulesFrom d₁.rules.length t skip phrases, ?_, fun r hr => ?_⟩
    · rw [← List.append_assoc, ← heq]
      rfl
    · rcases List.mem_append.mp hr with hr | hr
      · exact hfresh r hr
      · exact name_of_mem_rulesFrom hr ▸ hindex
  tidy hd := tidy_withRules (h.tidy hd) hlt (hnew hd) skip phrases

/-- A symbol that is created has no rules, and gets none while other things are worked
through. -/
theorem Enters.name_ne (h : Enters decl low d t d₁) (h' : Grows decl 0 d₁ d₂) (hd : d.Tidy decl) :
    ∀ r ∈ d₂.rules, r.name ≠ t := by
  rintro r hr rfl
  obtain ⟨new, heq, hnew⟩ := h'.rules
  have hrules : d₁.rules = d.rules := congrArg Prod.fst h.declared_eq
  rw [heq, hrules] at hr
  rcases List.mem_append.mp hr with hr | hr
  · exact absurd (hd.lt_size r hr) (Nat.not_lt.mpr h.size_le_index)
  · rcases hnew r hr with hlt | hle
    · exact absurd hlt (Nat.not_lt_zero _)
    · exact absurd h.index_lt (Nat.not_lt.mpr hle)

/-- A symbol is created, other things are worked through, and it gets its rules. -/
theorem Enters.grows (h : Enters decl low d t d₁) (h' : Grows decl 0 d₁ d₂) (skip : Term)
    (phrases : List Phrase) : Grows decl low d (d₂.withRules t skip phrases) :=
  (h.toGrows.trans (h'.mono low)).withRules (.inr h.size_le_index)
    (Nat.lt_of_lt_of_le h.index_lt h'.size_le) (h.name_ne h') skip phrases

end Draft

namespace Build

open Draft (Grows Supplies Quietly Enters)

variable {again : Normalizer} {ctx : Declared} {d : Draft}

/-- A new symbol is entered. -/
theorem yields_enter {info : TermInfo} (htop : info.kind ≠ .top) (hkind : info.kind ≠ .terminal)
    {d₀ : Draft} (hd : Supplies ctx.decl d₀ d) :
    Yields ctx d (newTerm info) fun t d' => Enters ctx.decl 0 d₀ t d' ∧
      (d'.terms.info t).kind = info.kind := by
  intro t d' h
  obtain ⟨hquiet, hindex, hsize, hsame⟩ := newTerm_ok htop h
  have hd' := trans_of (Supplies ctx.decl) hd hquiet.toSupplies
  refine ⟨⟨hd'.toGrows, hd'.declared_eq, ?_, by omega, ?_⟩, hsame⟩
  · exact hindex ▸ hd.size_le
  · rw [TermTable.isTerminal, hsame]
    exact beq_eq_false_iff_ne.mpr hkind

/-- Gives a symbol the rules of a body. -/
def giveRules (again : Normalizer) (rule : RuleDecl) (info : NodeInfo) (body : Expr)
    (skip t : Term) : Build Term := do
  let phrases ← again skip body
  if phraseLimit body < phrases.length then
    warn (.manyChoices rule.id.name phrases.length) (some rule.id.start)
  addRules t skip phrases
  if let some group := info.group then
    modify fun d => { d with groups := d.groups ++ [⟨t, group, rule.id⟩] }
  return t

/-- What building a rule comes down to: its symbol is created, its body is worked through while
the symbol may be referred to, and the symbol gets its rules. -/
theorem yields_buildRule (rule : RuleDecl) (args : List Expr) (skip : Term) (inPlace : Bool) :
    Yields ctx d (buildRule again rule args skip inPlace) fun t d' =>
      ∃ body d₁ phrases d₂ d₃, rule.bodyWith args = .ok body ∧ Enters ctx.decl 0 d t d₁ ∧
        (d₁.terms.info t).kind = .nonterminal ∧
        again skip body ctx (if inPlace then d₁ else d₁.withInstance ⟨rule.id.name, args, t⟩) =
          .ok phrases d₂ ∧
        Quietly ctx.decl d₂ d₃ ∧ Quietly ctx.decl (d₃.withRules t skip phrases) d' := by
  refine yields_check_bind fun body hbody => ?_
  refine (supplies_ruleInfo _ _ _).yields.bind fun info d₁ hd₁ => ?_
  refine Yields.when (supplies_of_quietly (silently_warn _ _).quietly) fun d₂ hd₂ => ?_
  refine Yields.when (supplies_of_quietly (silently_warn _ _).quietly) fun d₃ hd₃ => ?_
  have hd₃ := trans_of (Supplies ctx.decl) hd₁ (trans_of (Supplies ctx.decl) hd₂ hd₃)
  refine (yields_enter (by simp) (by simp) hd₃).bind fun t d₄ ⟨hd₄, hkind⟩ => ?_
  refine (silently_registerRule _ _ _ _).quietly.yields.bind fun _ d₅ hd₅ => ?_
  have henter : Enters ctx.decl 0 d t d₅ := {
    hd₄.toGrows.trans hd₅.toGrows with
    declared_eq := hd₅.declared_eq.trans hd₄.declared_eq
    size_le_index := hd₄.size_le_index
    index_lt := Nat.lt_of_lt_of_le hd₄.index_lt hd₅.size_le
    isTerminal := hd₅.isTerminal hd₄.isTerminal }
  have hkind₅ := (hd₅.kind_eq t hd₄.index_lt).trans hkind
  -- What is left when the symbol is there.
  have hrest (inside : Draft) : Yields ctx inside (giveRules again rule info body skip t)
      fun u d' => u = t ∧ ∃ phrases d₂ d₃, again skip body ctx inside = .ok phrases d₂ ∧
        Quietly ctx.decl d₂ d₃ ∧ Quietly ctx.decl (d₃.withRules t skip phrases) d' := by
    refine Yields.bind (fun _ _ h => h) fun phrases d₆ hd₆ => ?_
    refine Yields.when (silently_warn _ _).quietly fun d₇ hd₇ => yields_modify_bind ?_
    split
    · refine yields_modify_bind (yields_pure ⟨rfl, phrases, d₆, d₇, hd₆, hd₇, ?_⟩)
      exact .of_terms_eq rfl rfl rfl
    · exact yields_pure ⟨rfl, phrases, d₆, d₇, hd₆, hd₇, refl_of (Quietly ctx.decl) _⟩
  cases inPlace with
  | true =>
    intro u d' h
    obtain ⟨rfl, phrases, d₆, d₇, hagain, hd₇, hd'⟩ := hrest d₅ u d' h
    exact ⟨body, d₅, phrases, d₆, d₇, hbody, henter, hkind₅, hagain, hd₇, hd'⟩
  | false =>
    refine yields_modify_bind fun u d' h => ?_
    obtain ⟨rfl, phrases, d₆, d₇, hagain, hd₇, hd'⟩ := hrest _ u d' h
    exact ⟨body, d₅, phrases, d₆, d₇, hbody, henter, hkind₅, hagain, hd₇, hd'⟩

/-- What a reference comes down to: a rule that has been entered, a token, an external token, or a
rule that is built now. -/
theorem yields_resolve (start : Nat) (name : String) (args : List Expr) :
    Yields ctx d (resolve again start name args) fun t d' =>
      (∃ i, d.ruleInstances.find? (fun i => i.name == name && Expr.allSame i.args args) = some i ∧
        t = i.term ∧ d' = d) ∨
      (Supplies ctx.decl d d' ∧ d'.tokenFor? (.rule name args) = some t) ∨
      (Supplies ctx.decl d d' ∧ externalToken? d' name = some t ∧
        ∀ r ∈ ctx.decl.tokenRules, r.id.name ≠ name) ∨
      (d.ruleInstances.find? (fun i => i.name == name && Expr.allSame i.args args) = none ∧
        ∃ d₁ skip rule, Supplies ctx.decl d d₁ ∧
          d₁.scope.find? (fun s => s.rule.id.name == name) = some ⟨skip, rule⟩ ∧
          rule.params.length = args.length ∧
          buildRule again rule args skip false ctx d₁ = .ok t d') := by
  refine yields_get_bind ?_
  dsimp only
  split
  next i hi => exact yields_pure (.inl ⟨i, hi, rfl, rfl⟩)
  next hnew =>
  have hnone : d.ruleInstances.find? (fun i => i.name == name && Expr.allSame i.args args) = none :=
    Option.eq_none_iff_forall_ne_some.mpr hnew
  refine (yields_token? start name args ctx d).bind fun found d₁ ⟨hd₁, hfound, hmissing⟩ => ?_
  cases found with
  | some t => exact yields_pure (.inr (.inl ⟨hd₁, hfound t rfl⟩))
  | none =>
    refine yields_get_bind ?_
    split
    next t ht =>
      refine (silently_markUsed name).quietly.yields.bind fun _ d₂ hd₂ => ?_
      refine yields_pure (.inr (.inr (.inl ?_)))
      refine ⟨trans_of (Supplies ctx.decl) hd₁ hd₂.toSupplies, ?_, hmissing rfl⟩
      rw [externalToken?, hd₂.external_eq.1, hd₂.external_eq.2]
      exact ht
    next =>
    split
    next => exact yields_raise _ _
    next skip rule hrule =>
      split
      next => exact (yields_raise _ _).bind fun _ _ h => h
      next harity =>
        refine (silently_markUsed name).quietly.yields.bind fun _ d₂ hd₂ => fun t d' h => ?_
        refine .inr (.inr (.inr ⟨hnone, d₂, skip, rule,
          trans_of (Supplies ctx.decl) hd₁ hd₂.toSupplies, ?_, by simpa using harity, h⟩))
        rw [hd₂.scope_eq]
        exact hrule

/-- What a repeat comes down to: one that has been entered, or one that is built now. -/
theorem yields_repeatTerm (skip : Term) (body : Expr) :
    Yields ctx d (repeatTerm again skip body) fun t d' =>
      (∃ i, d.repeatInstances.find? (fun i => i.skip == skip && i.body.same body) = some i ∧
        t = i.term ∧ d' = d) ∨
      (d.repeatInstances.find? (fun i => i.skip == skip && i.body.same body) = none ∧
        ∃ d₁ phrases d₂, Quietly ctx.decl d d₁ ∧ Enters ctx.decl 0 d t d₁ ∧
          again skip body ctx (d₁.withRepeat ⟨body, skip, t⟩) = .ok phrases d₂ ∧
          d' = d₂.withRules t skip (phrases ++ [⟨[t, t], [.none, .none, .none]⟩])) := by
  refine yields_get_bind ?_
  dsimp only
  split
  next i hi => exact yields_pure (.inl ⟨i, hi, rfl, rfl⟩)
  next hnew =>
  refine Yields.bind (Q := fun t d₁ => Quietly ctx.decl d d₁ ∧ Enters ctx.decl 0 d t d₁)
    (fun t d₁ h => ⟨(newTerm_ok (by simp) h).1,
      (yields_enter (by simp) (by simp) (refl_of (Supplies ctx.decl) d) t d₁ h).1⟩)
    fun t d₁ ⟨hquiet, henter⟩ => ?_
  refine yields_modify_bind (Yields.bind (fun _ _ h => h) fun phrases d₂ hd₂ =>
    yields_modify_bind (yields_pure (.inr ⟨?_, d₁, phrases, d₂, hquiet, henter, hd₂, rfl⟩)))
  exact Option.eq_none_iff_forall_ne_some.mpr hnew

section

variable (hagain : ∀ skip e, Along ctx (Grows ctx.decl 0) (again skip e))
include hagain

theorem grows_buildRule (rule : RuleDecl) (args : List Expr) (skip : Term) (inPlace : Bool) :
    Along ctx (Grows ctx.decl 0) (buildRule again rule args skip inPlace) := by
  intro d t d' h
  obtain ⟨body, d₁, phrases, d₂, d₃, _, henter, _, hbody, hd₃, hd'⟩ :=
    yields_buildRule rule args skip inPlace t d' h
  have hinside : Grows ctx.decl 0 d₁
      (if inPlace then d₁ else d₁.withInstance ⟨rule.id.name, args, t⟩) := by
    split
    · exact .refl _ 0 d₁
    · exact Draft.grows_withInstance d₁ _
  have hgrown := hinside.trans ((hagain skip body _ _ _ hbody).trans hd₃.toGrows)
  exact (henter.grows hgrown skip phrases).trans hd'.toGrows

theorem grows_resolve (start : Nat) (name : String) (args : List Expr) :
    Along ctx (Grows ctx.decl 0) (resolve again start name args) := by
  intro d t d' h
  rcases yields_resolve start name args t d' h with ⟨_, _, _, rfl⟩ | ⟨hd', _⟩ | ⟨hd', _⟩ |
    ⟨_, d₁, skip, rule, hd₁, _, _, hbuild⟩
  · exact .refl _ 0 d'
  · exact hd'.toGrows
  · exact hd'.toGrows
  · exact hd₁.toGrows.trans (grows_buildRule hagain rule args skip false d₁ t d' hbuild)

theorem grows_repeatTerm (skip : Term) (body : Expr) :
    Along ctx (Grows ctx.decl 0) (repeatTerm again skip body) := by
  intro d t d' h
  rcases yields_repeatTerm skip body t d' h with ⟨_, _, _, rfl⟩ |
    ⟨_, d₁, phrases, d₂, _, henter, hbody, rfl⟩
  · exact .refl _ 0 d'
  · exact henter.grows ((Draft.grows_withRepeat d₁ _).trans (hagain skip body _ _ _ hbody)) _ _

theorem grows_normalizeWith (skip : Term) (e : Expr) :
    Along ctx (Grows ctx.decl 0) (normalizeWith again skip e) := by
  unfold normalizeWith
  split
  · exact (hagain skip _).bind fun _ => .pure _
  · exact (grows_repeatTerm hagain skip _).bind fun _ => .pure _
  · exact (grows_repeatTerm hagain skip _).bind fun _ => .pure _
  · exact (Along.mapM fun e _ => hagain skip e).bind fun _ => .pure _
  · exact (Along.mapM fun e _ => hagain skip e).bind fun _ => Along.read.bind fun _ =>
      (Along.check _).bind fun _ => .pure _
  · exact (grows_of_supplies (supplies_literalToken _)).bind fun _ => .pure _
  · exact (grows_resolve hagain _ _ _).bind fun _ => .pure _
  · refine Along.read.bind fun _ => (Along.check _).bind fun _ => (hagain skip _).bind fun _ =>
      Along.bind (fun d t d' h => ?_) fun _ => .pure _
    exact (yields_specializeToken _ _ _ _ _ _ t d' h).1.toGrows
  · exact (grows_buildRule hagain _ _ skip true).bind fun _ => .pure _
  · exact .pure _
  all_goals exact .raise _ _

end

theorem grows_normalizeTo (fuel : Nat) (skip : Term) (e : Expr) :
    Along ctx (Grows ctx.decl 0) (normalizeTo fuel skip e) := by
  induction fuel generalizing skip e with
  | zero => exact .raise _ _
  | succ fuel ih => exact grows_normalizeWith ih skip e

theorem grows_normalize (skip : Term) (e : Expr) :
    Along ctx (Grows ctx.decl 0) (normalize skip e) :=
  Along.read.bind fun _ => grows_normalizeTo _ skip e

end Build

end GrammarCompiler
