/-
GrammarCompiler.Proofs.Agreeing — actions that do the same on drafts that are alike.

Two runs are compared that differ in the places of expressions and in which of the
expressions that print alike they meet. What was built is looked up by texts, so the
symbols and rules are the same. What may differ is only of use for messages and for the
automaton that reads tokens.

  §1 Drafts     — drafts with the same symbols and rules.
  §2 Agreement  — runs with related results on drafts that are alike.
  §3 Changes    — to symbols and rules.
  §4 Properties — of arguments that come to the same, wherever they are written.
  §5 Tokens     — and specializations of tokens.
  §6 Delimiters — which depend on the first and the last element of a body.
  §7 Symbols    — of rules and of repeats.
-/
import GrammarCompiler.Proofs.Splicing

namespace GrammarCompiler

open GrammarCompiler.Expr (outline)

/-! ## §1 Drafts -/

/-- The symbol of a rule, with its arguments as texts. -/
def RuleInstance.shown (i : RuleInstance) : String × List String × Term :=
  (i.name, i.args.map Expr.shown, i.term)

/-- The symbol of a repeat, with its body as text. -/
def RepeatInstance.shown (i : RepeatInstance) : String × Term × Term :=
  (i.body.shown, i.skip, i.term)

/-- What a token is read by, with its arguments as texts. -/
def TokenKey.shown : TokenKey → (String × List String) ⊕ String
  | rule name args => .inl (name, args.map Expr.shown)
  | literal value => .inr value

/-- The symbol of a token, with its arguments as texts. -/
def TokenInstance.shown (i : TokenInstance) : ((String × List String) ⊕ String) × Term :=
  (i.key.shown, i.term)

/-- A rule that defines a group, by name. -/
def GroupDef.shown (g : GroupDef) : Term × String × String :=
  (g.term, g.group, g.rule.name)

namespace Draft

/-- Drafts in which the same symbols and rules were built, from expressions that print alike. What
is left open are names that nothing has used yet, the automaton of the tokens, and the journal. -/
structure Alike (d d' : Draft) : Prop where
  terms : d.terms = d'.terms
  rules : d.rules = d'.rules
  scope : d.scope = d'.scope
  ruleInstances : d.ruleInstances.map RuleInstance.shown = d'.ruleInstances.map RuleInstance.shown
  repeatInstances :
    d.repeatInstances.map RepeatInstance.shown = d'.repeatInstances.map RepeatInstance.shown
  tokenInstances :
    d.tokenInstances.map TokenInstance.shown = d'.tokenInstances.map TokenInstance.shown
  namedTerms : d.namedTerms = d'.namedTerms
  dynamicPrecedences : d.dynamicPrecedences = d'.dynamicPrecedences
  dialectTokens : d.dialectTokens = d'.dialectTokens
  externalTokens : d.externalTokens = d'.externalTokens
  externalSpecializers : d.externalSpecializers = d'.externalSpecializers
  specializedBy : d.specializedBy = d'.specializedBy
  specializations : d.specializations = d'.specializations
  origins : d.origins = d'.origins
  groups : d.groups.map GroupDef.shown = d'.groups.map GroupDef.shown
  skipTerms : d.skipTerms = d'.skipTerms
  noSkip : d.noSkip = d'.noSkip

theorem Alike.refl (d : Draft) : d.Alike d := by
  constructor <;> rfl

variable {d d' d'' : Draft}

theorem Alike.symm (h : d.Alike d') : d'.Alike d where
  terms := h.terms.symm
  rules := h.rules.symm
  scope := h.scope.symm
  ruleInstances := h.ruleInstances.symm
  repeatInstances := h.repeatInstances.symm
  tokenInstances := h.tokenInstances.symm
  namedTerms := h.namedTerms.symm
  dynamicPrecedences := h.dynamicPrecedences.symm
  dialectTokens := h.dialectTokens.symm
  externalTokens := h.externalTokens.symm
  externalSpecializers := h.externalSpecializers.symm
  specializedBy := h.specializedBy.symm
  specializations := h.specializations.symm
  origins := h.origins.symm
  groups := h.groups.symm
  skipTerms := h.skipTerms.symm
  noSkip := h.noSkip.symm

theorem Alike.trans (h : d.Alike d') (h' : d'.Alike d'') : d.Alike d'' where
  terms := h.terms.trans h'.terms
  rules := h.rules.trans h'.rules
  scope := h.scope.trans h'.scope
  ruleInstances := h.ruleInstances.trans h'.ruleInstances
  repeatInstances := h.repeatInstances.trans h'.repeatInstances
  tokenInstances := h.tokenInstances.trans h'.tokenInstances
  namedTerms := h.namedTerms.trans h'.namedTerms
  dynamicPrecedences := h.dynamicPrecedences.trans h'.dynamicPrecedences
  dialectTokens := h.dialectTokens.trans h'.dialectTokens
  externalTokens := h.externalTokens.trans h'.externalTokens
  externalSpecializers := h.externalSpecializers.trans h'.externalSpecializers
  specializedBy := h.specializedBy.trans h'.specializedBy
  specializations := h.specializations.trans h'.specializations
  origins := h.origins.trans h'.origins
  groups := h.groups.trans h'.groups
  skipTerms := h.skipTerms.trans h'.skipTerms
  noSkip := h.noSkip.trans h'.noSkip

instance : IsPreorder Draft Alike where
  refl := .refl
  trans _ _ _ := .trans

/-- What is found by a text is the same. -/
theorem find?_map_eq {α β γ : Type} {f : α → β} {g : β → γ} {q : β → Bool} {l l' : List α}
    (h : l.map f = l'.map f) :
    (l.find? fun a => q (f a)).map (fun a => g (f a)) =
      (l'.find? fun a => q (f a)).map fun a => g (f a) := by
  have hfind := congrArg (fun l => (l.find? q).map g) h
  simpa [List.find?_map, Function.comp_def] using hfind

theorem TokenKey.same_eq (key key' : TokenKey) : key.same key' = (key.shown == key'.shown) := by
  cases key <;> cases key' <;> rfl

theorem Alike.tokenFor?_eq (h : d.Alike d') {key key' : TokenKey} (hkey : key.shown = key'.shown) :
    d.tokenFor? key = d'.tokenFor? key' := by
  have hfind := find?_map_eq (q := fun p => p.1 == key.shown) (g := Prod.snd) h.tokenInstances
  simp only [tokenFor?, TokenKey.same_eq, ← hkey]
  exact hfind

theorem Alike.ruleInstance?_eq (h : d.Alike d') (name : String) {args args' : List Expr}
    (hargs : args.map Expr.shown = args'.map Expr.shown) :
    (d.ruleInstances.find? fun i => i.name == name && Expr.allSame i.args args).map
        RuleInstance.term =
      (d'.ruleInstances.find? fun i => i.name == name && Expr.allSame i.args args').map
        RuleInstance.term := by
  have hfind := find?_map_eq (q := fun p => p.1 == name && p.2.1 == args.map Expr.shown)
    (g := fun p => p.2.2) h.ruleInstances
  simp only [Expr.allSame, ← hargs]
  exact hfind

theorem Alike.repeatInstance?_eq (h : d.Alike d') (skip : Term) {body body' : Expr}
    (hbody : body.shown = body'.shown) :
    (d.repeatInstances.find? fun i => i.skip == skip && i.body.same body).map
        RepeatInstance.term =
      (d'.repeatInstances.find? fun i => i.skip == skip && i.body.same body').map
        RepeatInstance.term := by
  have hfind := find?_map_eq (q := fun p => p.2.1 == skip && p.1 == body.shown)
    (g := fun p => p.2.2) h.repeatInstances
  simp only [Expr.same, ← hbody]
  exact hfind

end Draft

/-! ## §2 Agreement -/

namespace Build

variable {ctx : Declared} {d d' : Draft} {α α' β β' : Type}

/-- Actions agree if their results are related whenever both succeed on drafts that are alike, and
leave drafts that are alike. -/
def Agree (ctx : Declared) (R : α → α' → Prop) (m : Build α) (m' : Build α') : Prop :=
  ∀ ⦃d d' a a' e e'⦄, d.Alike d' → m ctx d = .ok a e → m' ctx d' = .ok a' e' → R a a' ∧ e.Alike e'

variable {R : α → α' → Prop} {S : β → β' → Prop} {m : Build α} {m' : Build α'} {f : α → Build β}
  {f' : α' → Build β'}

theorem Agree.bind (h : Agree ctx R m m') (hf : ∀ a a', R a a' → Agree ctx S (f a) (f' a')) :
    Agree ctx S (m >>= f) (m' >>= f') := by
  intro d d' b b' e e' hd hrun hrun'
  obtain ⟨a, d₁, h₁, h₂⟩ := exists_ok_of_bind hrun
  obtain ⟨a', d₁', h₁', h₂'⟩ := exists_ok_of_bind hrun'
  obtain ⟨ha, hd₁⟩ := h hd h₁ h₁'
  exact hf a a' ha hd₁ h₂ h₂'

theorem Agree.bind_eq {m m' : Build α} {f f' : α → Build β} {S : β → β → Prop}
    (h : Agree ctx Eq m m') (hf : ∀ a, Agree ctx S (f a) (f' a)) :
    Agree ctx S (m >>= f) (m' >>= f') :=
  h.bind fun a _ ha => ha ▸ hf a

theorem Agree.mono {R' : α → α' → Prop} (h : Agree ctx R m m') (himp : ∀ a a', R a a' → R' a a') :
    Agree ctx R' m m' := by
  intro d d' a a' e e' hd hrun hrun'
  obtain ⟨ha, he⟩ := h hd hrun hrun'
  exact ⟨himp a a' ha, he⟩

theorem agree_pure {a : α} {a' : α'} (h : R a a') : Agree ctx R (pure a) (pure a') := by
  intro d d' b b' e e' hd hrun hrun'
  cases hrun
  cases hrun'
  exact ⟨h, hd⟩

theorem agree_get : Agree ctx Draft.Alike get get := by
  intro d d' b b' e e' hd hrun hrun'
  cases hrun
  cases hrun'
  exact ⟨hd, hd⟩

theorem agree_read_bind {f : Declared → Build β} {f' : Declared → Build β'}
    (h : Agree ctx S (f ctx) (f' ctx)) :
    Agree ctx S (MonadReader.read >>= f) (MonadReader.read >>= f') :=
  h

theorem agree_raise (fault : GrammarFault) (start : Option Nat) :
    Agree ctx R (raise fault start) m' := by
  intro d d' b b' e e' _ hrun
  cases hrun

theorem agree_raise_right (fault : GrammarFault) (start : Option Nat) :
    Agree ctx R m (raise fault start) := by
  intro d d' b b' e e' _ _ hrun
  cases hrun

theorem agree_modify {f f' : Draft → Draft} (h : ∀ d d', d.Alike d' → (f d).Alike (f' d')) :
    Agree ctx Eq (modify f : Build PUnit) (modify f') := by
  intro d d' b b' e e' hd hrun hrun'
  cases hrun
  cases hrun'
  exact ⟨rfl, h d d' hd⟩

theorem agree_of_along (h : Along ctx Draft.Alike m) (h' : Along ctx Draft.Alike m') :
    Agree ctx (fun _ _ => True) m m' := by
  intro d d' a a' e e' hd hrun hrun'
  exact ⟨trivial, (h d a e hrun).symm.trans (hd.trans (h' d' a' e' hrun'))⟩

theorem agree_check {result : Except FaultAt α} {result' : Except FaultAt α'}
    (h : ∀ a a', result = .ok a → result' = .ok a' → R a a') :
    Agree ctx R (check result) (check result') := by
  cases result with
  | error fault => exact agree_raise _ _
  | ok a =>
    cases result' with
    | error fault => exact agree_raise_right _ _
    | ok a' => exact agree_pure (h a a' rfl rfl)

/-- A step that both take or both leave out. -/
theorem Agree.when {c : Prop} {_ : Decidable c} {m m' : Build PUnit} {f : PUnit → Build β}
    {f' : PUnit → Build β'} (hm : Agree ctx Eq m m') (hf : Agree ctx S (f ⟨⟩) (f' ⟨⟩)) :
    Agree ctx S (if c then m >>= f else f ⟨⟩) (if c then m' >>= f' else f' ⟨⟩) := by
  split
  · exact hm.bind fun _ _ _ => hf
  · exact hf

/-- Two steps that both take or both leave out. -/
theorem Agree.whenTwo {c : Prop} {_ : Decidable c} {m₁ m₂ m₁' m₂' : Build PUnit}
    {f : PUnit → Build β} {f' : PUnit → Build β'} (hm : Agree ctx Eq m₁ m₁')
    (hm' : Agree ctx Eq m₂ m₂') (hf : Agree ctx S (f ⟨⟩) (f' ⟨⟩)) :
    Agree ctx S (if c then m₁ >>= fun _ => m₂ >>= f else f ⟨⟩)
      (if c then m₁' >>= fun _ => m₂' >>= f' else f' ⟨⟩) := by
  split
  · exact hm.bind fun _ _ _ => hm'.bind fun _ _ _ => hf
  · exact hf

theorem Agree.ite {c : Prop} {_ : Decidable c} {m₁ : Build α} {m₁' : Build α'} (h : Agree ctx R m m')
    (h₁ : Agree ctx R m₁ m₁') : Agree ctx R (if c then m else m₁) (if c then m' else m₁') := by
  split
  · exact h
  · exact h₁

/-- A step that changes nothing that counts. -/
theorem Agree.aside {c c' : Prop} {_ : Decidable c} {_ : Decidable c'} {m m' : Build PUnit}
    {f : PUnit → Build β} {f' : PUnit → Build β'} (hm : Along ctx Draft.Alike m)
    (hm' : Along ctx Draft.Alike m') (hf : Agree ctx S (f ⟨⟩) (f' ⟨⟩)) :
    Agree ctx S (if c then m >>= f else f ⟨⟩) (if c' then m' >>= f' else f' ⟨⟩) := by
  have hpure : Along ctx Draft.Alike (pure ⟨⟩ : Build PUnit) := .pure _
  split
  · split
    · exact (agree_of_along hm hm').bind fun _ _ _ => hf
    · exact (agree_of_along hm hpure).bind fun _ _ _ => hf
  · split
    · exact (agree_of_along hpure hm').bind fun _ _ _ => hf
    · exact hf

theorem Agree.mapM {γ γ' : Type} {l : List γ} {l' : List γ'} {f : γ → Build α} {f' : γ' → Build α'}
    (h : List.Forall₂ (fun a a' => Agree ctx R (f a) (f' a')) l l') :
    Agree ctx (List.Forall₂ R) (l.mapM f) (l'.mapM f') := by
  induction h with
  | nil => exact agree_pure .nil
  | cons h _ ih =>
    rw [List.mapM_cons, List.mapM_cons]
    exact h.bind fun _ _ ha => ih.bind fun _ _ hs => agree_pure (.cons ha hs)

theorem Agree.foldlM {γ : Type} {l : List γ} {f f' : β → γ → Build β}
    (h : ∀ b a, Agree ctx Eq (f b a) (f' b a)) (b : β) :
    Agree ctx Eq (l.foldlM f b) (l.foldlM f' b) := by
  induction l generalizing b with
  | nil => exact agree_pure rfl
  | cons a l ih =>
    rw [List.foldlM_cons, List.foldlM_cons]
    refine (h b a).bind fun _ _ hb => ?_
    subst hb
    exact ih _

/-! ## §3 Changes -/

theorem alike_warn (warning : Warning) (start : Option Nat) :
    Along ctx Draft.Alike (warn warning start) :=
  Along.read.bind fun _ => .of_modify fun d => { Draft.Alike.refl d with }

theorem alike_markUsed (name : String) : Along ctx Draft.Alike (markUsed name) :=
  .of_modify fun d => { Draft.Alike.refl d with }

theorem agree_markUsed (name : String) : Agree ctx (fun _ _ => True) (markUsed name) (markUsed name) :=
  agree_of_along (alike_markUsed name) (alike_markUsed name)

theorem agree_newTerm (info : TermInfo) : Agree ctx Eq (newTerm info) (newTerm info) := by
  intro d d' b b' e e' hd hrun hrun'
  cases hrun
  cases hrun'
  exact ⟨by rw [hd.terms], { hd with terms := by rw [hd.terms] }⟩

theorem agree_modifyTerm (t : Term) (f : TermInfo → TermInfo) :
    Agree ctx Eq (modifyTerm t f) (modifyTerm t f) :=
  agree_modify fun d d' h => { h with terms := by rw [h.terms] }

theorem agree_nameTerm (name : String) (t : Term) :
    Agree ctx Eq (nameTerm name t) (nameTerm name t) :=
  agree_modify fun d d' h => { h with namedTerms := by rw [h.namedTerms] }

theorem agree_setOrigin (t : Term) (origin : TokenOrigin) :
    Agree ctx Eq (setOrigin t origin) (setOrigin t origin) :=
  agree_modify fun d d' h => { h with origins := by rw [h.origins] }

theorem agree_restrictToDialect (dialect : Option Nat) (t : Term) :
    Agree ctx Eq (restrictToDialect dialect t) (restrictToDialect dialect t) := by
  cases dialect with
  | none => exact agree_pure rfl
  | some id => exact agree_modify fun d d' h => { h with dialectTokens := by rw [h.dialectTokens] }

theorem agree_addRules (name skip : Term) (phrases : List Phrase) :
    Agree ctx Eq (addRules name skip phrases) (addRules name skip phrases) :=
  agree_modify fun d d' h => { h with rules := by rw [h.rules] }

theorem agree_registerRule {rule rule' : RuleDecl} (hname : rule.id.name = rule'.id.name)
    (hparams : rule.params = rule'.params) (inPlace : Bool) (info : NodeInfo) (t : Term) :
    Agree ctx Eq (registerRule rule inPlace info t) (registerRule rule' inPlace info t) := by
  unfold registerRule
  rw [hname, hparams]
  dsimp only
  refine .when (agree_modifyTerm t _) (.whenTwo (agree_modify fun d d' h =>
    { h with dynamicPrecedences := by rw [h.dynamicPrecedences] }) (agree_modifyTerm t _) ?_)
  refine agree_get.bind fun d d' hd => ?_
  rw [hd.terms]
  refine .ite (.when (agree_modifyTerm t _) ?_) (agree_pure rfl)
  exact .ite (agree_nameTerm _ t) (agree_pure rfl)

/-! ## §4 Properties -/

end Build

/-- The result of a step and another one, if both succeed. -/
theorem toOption_bind {ε α β : Type} (x : Except ε α) (f : α → Except ε β) :
    (x >>= f).toOption = x.toOption.bind fun a => (f a).toOption := by
  cases x <;> rfl

namespace PropScope

variable (params : List Ident) {args args' : List Expr}

/-- Arguments that come to the same stand for the same texts. -/
theorem text_outline {decl : GrammarDecl} {merge : Bool}
    (hargs : args.map (outline decl merge) = args'.map (outline decl merge)) :
    (⟨params, args⟩ : PropScope).text = (⟨params, args'⟩ : PropScope).text := by
  have hpart : (⟨params, args⟩ : PropScope).partText = (⟨params, args'⟩ : PropScope).partText := by
    funext p
    cases p with
    | text start value => rfl
    | parameter start name =>
      simp only [partText]
      cases params.findIdx? fun p => p.name == name with
      | none => rfl
      | some i =>
        have harg : (args[i]?).map (outline decl merge) = (args'[i]?).map (outline decl merge) := by
          rw [← List.getElem?_map, hargs, List.getElem?_map]
        dsimp only
        cases ha : args[i]? with
        | none =>
          rw [ha, Option.map_none, eq_comm, Option.map_eq_none_iff] at harg
          rw [harg]
        | some arg =>
          rw [ha, Option.map_some, eq_comm, Option.map_eq_some_iff] at harg
          obtain ⟨arg', ha', heq⟩ := harg
          have htext : arg.plainText? = arg'.plainText? := by
            rw [← Expr.plainText?_outline, ← heq, Expr.plainText?_outline]
          have hshown : arg.shown = arg'.shown := by
            rw [← Expr.shown_outline, ← heq, Expr.shown_outline]
          simp only [ha', htext, hshown]
  funext value
  rw [text, text, hpart]

theorem toOption_text_bare (scope : PropScope) (value : List PropPart) :
    (scope.text (value.map PropPart.bare)).toOption = (scope.text value).toOption := by
  have hpart (p : PropPart) : (scope.partText p.bare).toOption = (scope.partText p).toOption := by
    cases p with
    | text start value => rfl
    | parameter start name =>
      simp only [PropPart.bare, partText]
      repeat' split
      all_goals rfl
  have hparts : ((value.map PropPart.bare).mapM scope.partText).toOption =
      (value.mapM scope.partText).toOption := by
    induction value with
    | nil => rfl
    | cons p value ih =>
      simp only [List.map_cons, List.mapM_cons, toOption_bind, hpart, ih]
  rw [text, text, toOption_bind, toOption_bind, hparts]

end PropScope

namespace NodeInfo

variable (decl : GrammarDecl) (place : NodePlace) (declared : Option String) (scope : PropScope)

section

variable (start : Nat) (builtin : Bool) (name : String) (value : List PropPart)

theorem toOption_valueOr_bare :
    (valueOr declared scope ⟨0, builtin, name, value.map PropPart.bare⟩).toOption =
      (valueOr declared scope ⟨start, builtin, name, value⟩).toOption := by
  have htext := scope.toOption_text_bare value
  cases value with
  | nil => rfl
  | cons part value =>
    change (some <$> scope.text _).toOption = (some <$> scope.text _).toOption
    rw [← bind_pure_comp, ← bind_pure_comp, toOption_bind, toOption_bind, htext]

theorem toOption_dialectOf_bare (dialects : List String) :
    (dialectOf dialects ⟨0, builtin, name, value.map PropPart.bare⟩).toOption =
      (dialectOf dialects ⟨start, builtin, name, value⟩).toOption := by
  cases value with
  | nil => rfl
  | cons part rest =>
    cases rest with
    | cons => cases part <;> rfl
    | nil =>
      cases part with
      | parameter => rfl
      | text =>
        simp only [dialectOf, List.map_cons, List.map_nil, PropPart.bare]
        split <;> rfl

theorem toOption_precedenceOf_bare :
    (precedenceOf ⟨0, builtin, name, value.map PropPart.bare⟩).toOption =
      (precedenceOf ⟨start, builtin, name, value⟩).toOption := by
  cases value with
  | nil => rfl
  | cons part rest =>
    cases rest with
    | cons => cases part <;> rfl
    | nil =>
      cases part with
      | parameter => rfl
      | text =>
        simp only [precedenceOf, List.map_cons, List.map_nil, PropPart.bare]
        split <;> rfl

theorem toOption_addBuiltin_bare (info : NodeInfo) :
    (addBuiltin decl place declared scope info ⟨0, builtin, name, value.map PropPart.bare⟩).toOption =
      (addBuiltin decl place declared scope info ⟨start, builtin, name, value⟩).toOption := by
  have hempty : (value.map PropPart.bare).isEmpty = value.isEmpty := List.isEmpty_map
  have htext := scope.toOption_text_bare value
  unfold addBuiltin
  dsimp only
  split
  · simp only [toOption_bind, htext]
    refine Option.bind_congr fun _ _ => ?_
    split <;> rfl
  · split
    · rfl
    · simp only [toOption_bind, toOption_dialectOf_bare start]
  · split
    · rfl
    · simp only [toOption_bind, toOption_precedenceOf_bare start]
  · rw [hempty]
    repeat' split
    all_goals rfl
  · split
    · rfl
    · simp only [toOption_bind, toOption_valueOr_bare declared scope start]
  · simp only [toOption_bind, toOption_valueOr_bare declared scope start]
  · rfl

end

theorem toOption_addProp_bare (info : NodeInfo) (p : NodeProp) :
    (addProp decl place declared scope info p.bare).toOption =
      (addProp decl place declared scope info p).toOption := by
  obtain ⟨start, builtin, name, value⟩ := p
  cases builtin with
  | true => exact toOption_addBuiltin_bare decl place declared scope start true name value info
  | false =>
    change (if (!decl.knownProps.has name) = true then _ else _ : Except FaultAt NodeInfo).toOption =
      (if (!decl.knownProps.has name) = true then _ else _ : Except FaultAt NodeInfo).toOption
    split
    · rfl
    · change (scope.text (value.map PropPart.bare) >>= _).toOption = (scope.text value >>= _).toOption
      rw [toOption_bind, toOption_bind, scope.toOption_text_bare]
      rfl

theorem toOption_ofProps_bare (props : List NodeProp) :
    (ofProps decl place declared scope (props.map NodeProp.bare)).toOption =
      (ofProps decl place declared scope props).toOption := by
  rw [ofProps, ofProps]
  generalize ({ name := defaultName place declared } : NodeInfo) = info
  induction props generalizing info with
  | nil => rfl
  | cons p props ih =>
    simp only [List.map_cons, List.foldlM_cons, toOption_bind, toOption_addProp_bare, ih]

/-- Where properties are written does not matter, and arguments can be exchanged. -/
theorem ofProps_eq {params : List Ident} {args args' : List Expr} {merge : Bool}
    {props props' : List NodeProp} {info info' : NodeInfo}
    (hargs : args.map (outline decl merge) = args'.map (outline decl merge))
    (hprops : props.map NodeProp.bare = props'.map NodeProp.bare)
    (h : ofProps decl place declared ⟨params, args⟩ props = .ok info)
    (h' : ofProps decl place declared ⟨params, args'⟩ props' = .ok info') : info = info' := by
  have hscope : addProp decl place declared ⟨params, args⟩ =
      addProp decl place declared ⟨params, args'⟩ := by
    have htext := PropScope.text_outline params hargs
    funext info p
    simp only [addProp, addBuiltin, valueOr, htext]
  have hsame : (ofProps decl place declared ⟨params, args⟩ props).toOption =
      (ofProps decl place declared ⟨params, args'⟩ props').toOption := by
    rw [← toOption_ofProps_bare, hprops, toOption_ofProps_bare, ofProps, ofProps, hscope]
  rw [h, h'] at hsame
  exact Option.some.inj hsame

theorem checked_eq {props props' : List NodeProp} {info checkedInfo checkedInfo' : NodeInfo}
    (h : checked props info = .ok checkedInfo) (h' : checked props' info = .ok checkedInfo') :
    checkedInfo = checkedInfo' := by
  unfold checked at h h'
  split at h
  · cases h
  next hprops =>
    split at h
    · cases h
    next hinline =>
      rw [if_neg hprops, if_neg hinline] at h'
      exact (Except.ok.inj h).symm.trans (Except.ok.inj h')

theorem ofDeclaration_eq {params : List Ident} {args args' : List Expr} {merge : Bool}
    {props props' : List NodeProp} {info info' : NodeInfo}
    (hargs : args.map (outline decl merge) = args'.map (outline decl merge))
    (hprops : props.map NodeProp.bare = props'.map NodeProp.bare)
    (h : ofDeclaration decl place declared ⟨params, args⟩ props = .ok info)
    (h' : ofDeclaration decl place declared ⟨params, args'⟩ props' = .ok info') : info = info' := by
  obtain ⟨found, hfound, h⟩ := exists_ok_of_bind h
  obtain ⟨found', hfound', h'⟩ := exists_ok_of_bind h'
  obtain rfl := ofProps_eq decl place declared hargs hprops hfound hfound'
  exact checked_eq h h'

end NodeInfo

/-! ## §5 Tokens -/

namespace Draft

variable {d d' : Draft}

theorem Alike.withTable (h : d.Alike d') (base : Term) :
    (d.withTable base).Alike (d'.withTable base) := by
  rw [Draft.withTable, Draft.withTable, h.specializations]
  split
  · exact h
  · exact { h with specializations := rfl }

theorem Alike.addCase (h : d.Alike d') (base : Term) (s : Specialization) :
    (d.addCase base s).Alike (d'.addCase base s) :=
  { h with specializations := by rw [Draft.addCase, Draft.addCase, h.specializations] }

end Draft

namespace Expr

variable (decl : GrammarDecl)

theorem branches_of_literals {es : List Expr} {values : List String}
    (h : es.mapM literal? = some values) :
    (es.map (outline decl true)).flatMap branchesOf = values.map (Expr.literal 0) := by
  induction es generalizing values with
  | nil =>
    cases h
    rfl
  | cons e es ih =>
    rw [List.mapM_cons] at h
    obtain ⟨value, hvalue, h⟩ := Option.bind_eq_some_iff.mp h
    obtain ⟨values, hvalues, h⟩ := Option.bind_eq_some_iff.mp h
    cases h
    cases e with
    | literal start text =>
      cases hvalue
      rw [List.map_cons, List.flatMap_cons, ih hvalues]
      rfl
    | _ => cases hvalue

/-- What lists texts is a literal or a choice of literals. -/
theorem outline_of_literals {e : Expr} {values : List String} (h : e.literals? = some values) :
    outline decl true e = .choice 0 (values.map (Expr.literal 0)) ∨
      ∃ value, values = [value] ∧ outline decl true e = .literal 0 value := by
  cases e with
  | literal start value =>
    cases h
    exact .inr ⟨value, rfl, rfl⟩
  | choice start alternatives => exact .inl (by rw [outline_choice, branches_of_literals decl h])
  | _ => cases h

/-- Texts are listed alike, or not at all. -/
theorem literals?_eq {e e' : Expr} {values values' : List String}
    (h : outline decl true e = outline decl true e') (hvalues : e.literals? = some values)
    (hvalues' : e'.literals? = some values') : values = values' := by
  have hinj : Function.Injective (Expr.literal 0) := fun _ _ heq => (literal.injEq .. ▸ heq).2
  rcases outline_of_literals decl hvalues with hlist | ⟨value, rfl, hvalue⟩
  · rcases outline_of_literals decl hvalues' with hlist' | ⟨value', rfl, hvalue'⟩
    · rw [hlist, hlist', choice.injEq] at h
      exact List.map_injective_iff.mpr hinj h.2
    · rw [hlist, hvalue'] at h
      cases h
  · rcases outline_of_literals decl hvalues' with hlist' | ⟨value', rfl, hvalue'⟩
    · rw [hvalue, hlist'] at h
      cases h
    · rw [hvalue, hvalue', literal.injEq] at h
      rw [h.2]

end Expr

namespace Build

variable {ctx : Declared}

theorem agree_newTerminal (name : String) (info : NodeInfo) :
    Agree ctx Eq (newTerminal name info) (newTerminal name info) := by
  refine (agree_newTerm _).bind fun t t' ht => ?_
  subst ht
  exact (agree_restrictToDialect _ _).bind fun _ _ _ => agree_pure rfl

theorem agree_exportNode (info : NodeInfo) (t : Term) :
    Agree ctx Eq (exportNode info t) (exportNode info t) := by
  unfold exportNode
  split
  · exact agree_pure rfl
  · exact .when (agree_modifyTerm t _) (agree_nameTerm _ t)

theorem agree_tokenEnd (t : Term) : Agree ctx (fun _ _ => True) (tokenEnd t) (tokenEnd t) := by
  have halike : Along ctx Draft.Alike (tokenEnd t) := by
    intro d _ d' h
    cases h
    exact { Draft.Alike.refl d with }
  exact agree_of_along halike halike

theorem agree_onTokens (action action' : TokenBuild.Action Unit) :
    Agree ctx (fun _ _ => True) (onTokens action) (onTokens action') := by
  have halike (action : TokenBuild.Action Unit) : Along ctx Draft.Alike (onTokens action) :=
    Along.get.bind fun _ => (Along.check _).bind fun _ =>
      (Along.of_modify fun d => { Draft.Alike.refl d with }).bind fun _ =>
        .forM fun name _ => alike_markUsed name
  exact agree_of_along (halike action) (halike action')

theorem agree_tokenFuel (e e' : Expr) :
    Agree ctx (fun _ _ => True) (tokenFuel e) (tokenFuel e') :=
  agree_of_along (Along.read.bind fun _ => .pure _) (Along.read.bind fun _ => .pure _)

theorem agree_rememberToken {key key' : TokenKey} (hkey : key.shown = key'.shown) (t : Term) :
    Agree ctx Eq (rememberToken key t) (rememberToken key' t) :=
  agree_modify fun d d' h => { h with
    tokenInstances := by
      rw [List.map_append, List.map_append, h.tokenInstances, List.map_singleton,
        List.map_singleton, TokenInstance.shown, TokenInstance.shown, hkey] }

/-- What makes a token of a new terminal. -/
theorem agree_fillToken (action action' : Nat → TokenBuild.Action Unit) {key key' : TokenKey}
    (hkey : key.shown = key'.shown) (t : Term) {a : α} : Agree ctx Eq
      (do onTokens (action (← tokenEnd t)); rememberToken key t; return a)
      (do onTokens (action' (← tokenEnd t)); rememberToken key' t; return a) :=
  (agree_tokenEnd t).bind fun _ _ _ => (agree_onTokens _ _).bind fun _ _ _ =>
    (agree_rememberToken hkey t).bind_eq fun _ => agree_pure rfl

theorem agree_literalToken (value : String) :
    Agree ctx Eq (literalToken value) (literalToken value) := by
  unfold literalToken
  refine agree_get.bind fun d d' hd => ?_
  rw [hd.tokenFor?_eq rfl]
  split
  · exact agree_pure rfl
  · refine agree_read_bind ?_
    dsimp only
    split
    next =>
      refine Agree.bind_eq (agree_check fun _ _ h h' => Except.ok.inj (h.symm.trans h'))
        fun info => (agree_newTerminal _ info).bind_eq fun t => ?_
      split
      · exact (agree_nameTerm _ t).bind_eq fun _ => agree_fillToken _ _ rfl t
      · exact agree_fillToken _ _ rfl t
    next =>
      rw [pure_bind]
      exact (agree_newTerminal _ _).bind_eq fun t => agree_fillToken _ _ rfl t

theorem agree_token? (start start' : Nat) (name : String) {args args' : List Expr} {merge : Bool}
    (hargs : args.map (outline ctx.decl merge) = args'.map (outline ctx.decl merge)) :
    Agree ctx Eq (token? start name args) (token? start' name args') := by
  have hshown := Expr.map_shown_of_outline hargs
  have hkey : (TokenKey.rule name args).shown = (TokenKey.rule name args').shown := by
    rw [TokenKey.shown, TokenKey.shown, hshown]
  have hlength : args.length = args'.length := by
    rw [← List.length_map Expr.shown, hshown, List.length_map]
  have hname : (Expr.name start name args).shown = (Expr.name start' name args').shown := by
    rw [Expr.shown, Expr.shown, Expr.showAll_eq (Nat.zero_le _), Expr.showAll_eq (Nat.zero_le _),
      hshown, ← List.isEmpty_map, hshown, List.isEmpty_map]
  unfold token?
  refine agree_get.bind fun d d' hd => ?_
  dsimp only
  rw [hd.tokenFor?_eq hkey, hlength, hname]
  split
  · exact agree_pure rfl
  · refine agree_read_bind ?_
    split
    · refine Agree.bind_eq (agree_check fun _ _ => NodeInfo.ofDeclaration_eq _ _ _ hargs rfl)
        fun info => (agree_newTerminal _ info).bind_eq fun t => .when (agree_exportNode info t) ?_
      refine (agree_tokenEnd t).bind fun _ _ _ => (agree_tokenFuel _ _).bind fun _ _ _ => ?_
      exact (agree_onTokens _ _).bind fun _ _ _ => (agree_rememberToken hkey t).bind_eq fun _ =>
        agree_pure rfl
    · exact agree_pure rfl

theorem agree_specializeValue (start start' : Nat) (kind : SpecializeKind) (info : NodeInfo)
    (base : Term) (made : Option Term) (value : String) :
    Agree ctx Eq (specializeValue start kind info base made value)
      (specializeValue start' kind info base made value) := by
  unfold specializeValue
  refine agree_get.bind fun d d' hd => ?_
  have hcases : d.casesOf base = d'.casesOf base := by
    rw [Draft.casesOf, hd.specializations, Draft.casesOf]
  rw [hcases, hd.terms]
  dsimp only
  split
  · split
    · exact agree_raise _ _
    · exact agree_pure rfl
  · have hcase (t : Term) : Agree ctx Eq (do
        modify fun d => d.addCase base ⟨value, t, kind, info.dialect, info.name⟩
        setOrigin t (.specializes base)
        exportNode info t
        return some t : Build (Option Term)) (do
        modify fun d => d.addCase base ⟨value, t, kind, info.dialect, info.name⟩
        setOrigin t (.specializes base)
        exportNode info t
        return some t) :=
      (agree_modify fun d d' h => h.addCase base _).bind_eq fun _ =>
        (agree_setOrigin t _).bind_eq fun _ => (agree_exportNode info t).bind_eq fun _ =>
          agree_pure rfl
    cases made with
    | some t => exact hcase t
    | none => exact (agree_newTerminal _ info).bind_eq hcase

theorem agree_specializeToken (start start' : Nat) (kind : SpecializeKind) (info : NodeInfo)
    {token token' content content' : Expr}
    (hcontent : outline ctx.decl true content = outline ctx.decl true content')
    (phrases : List Phrase) :
    Agree ctx Eq (specializeToken start kind info token content phrases)
      (specializeToken start' kind info token' content' phrases) := by
  unfold specializeToken
  refine agree_get.bind fun d d' hd => ?_
  rw [hd.terms]
  split
  · cases hvalues : content.literals? with
    | none => exact agree_raise _ _
    | some values =>
      cases hvalues' : content'.literals? with
      | none => exact agree_raise_right _ _
      | some values' =>
        obtain rfl := Expr.literals?_eq _ hcontent hvalues hvalues'
        refine (agree_modify fun d d' h => h.withTable _).bind_eq fun _ => ?_
        have hvalues (base : Term) (made : Option Term) (value : String) :
            Agree ctx Eq (specializeValue start kind info base made value)
              (specializeValue start' kind info base made value) :=
          agree_specializeValue start start' kind info base made value
        refine (Agree.foldlM (hvalues _) none).bind_eq fun made => ?_
        split
        · exact agree_pure rfl
        · exact agree_raise _ _
  · exact agree_raise _ _

/-! ## §6 Delimiters -/

/-- Without a depth only literals are followed. -/
theorem delimiterToken_zero {e : Expr} (h : ∀ start value, e ≠ .literal start value) :
    delimiterToken 0 e = pure none := by
  cases e with
  | literal start value => exact absurd rfl (h start value)
  | name start id args => cases args <;> rfl
  | _ => rfl

theorem agree_delimiterToken (depth : Nat) {e e' : Expr}
    (h : outline ctx.decl true e = outline ctx.decl true e') :
    Agree ctx Eq (delimiterToken depth e) (delimiterToken depth e') := by
  have hliteral (depth : Nat) (start start' : Nat) (value : String) :
      Agree ctx Eq (delimiterToken depth (.literal start value))
        (delimiterToken depth (.literal start' value)) := by
    rw [delimiterToken, delimiterToken]
    exact (agree_literalToken value).bind_eq fun _ => agree_pure rfl
  induction depth generalizing e e' with
  | zero =>
    cases e with
    | literal start value =>
      cases e' with
      | literal start' value' =>
        obtain rfl : value = value' := (Expr.literal.injEq .. ▸ h).2
        exact hliteral 0 start start' value
      | _ => cases h
    | _ =>
      cases e' with
      | literal => cases h
      | _ =>
        rw [delimiterToken_zero (by simp), delimiterToken_zero (by simp)]
        exact agree_pure rfl
  | succ depth ih =>
    cases e with
    | literal start value =>
      cases e' with
      | literal start' value' =>
        obtain rfl : value = value' := (Expr.literal.injEq .. ▸ h).2
        exact hliteral (depth + 1) start start' value
      | _ => cases h
    | name start id args =>
      cases e' with
      | name start' id' args' =>
        rw [Expr.outline_name, Expr.outline_name, Expr.name.injEq] at h
        obtain ⟨-, rfl, hargs⟩ := h
        cases args with
        | nil =>
          obtain rfl := List.map_eq_nil_iff.mp hargs.symm
          rw [delimiterToken, delimiterToken]
          refine agree_read_bind ?_
          dsimp only
          split
          · exact ih rfl
          · split
            · exact agree_pure rfl
            · exact (agree_token? start start' id hargs).bind_eq fun _ => agree_pure rfl
        | cons arg args =>
          obtain ⟨arg', args', rfl, -⟩ := List.map_eq_cons_iff.mp hargs.symm
          exact agree_pure rfl
      | _ => cases h
    | _ =>
      cases e' with
      | literal | name => cases h
      | _ => exact agree_pure rfl

theorem agree_hasNodeName (t : Term) : Agree ctx Eq (hasNodeName t) (hasNodeName t) :=
  agree_get.bind fun d d' hd => agree_pure (by rw [hd.terms])

theorem agree_delimiters? {e e' : Expr}
    (h : outline ctx.decl false e = outline ctx.decl false e') :
    Agree ctx Eq (delimiters? e) (delimiters? e') := by
  cases e with
  | sequence start elements markers =>
    cases e' with
    | sequence start' elements' markers' =>
      rw [Expr.outline_sequence_kept, Expr.outline_sequence_kept, Expr.sequence.injEq] at h
      obtain ⟨-, helements, -⟩ := h
      match elements, elements', helements with
      | [], [], _ | [_], [_], _ => exact agree_pure rfl
      | [_], _ :: _ :: _, hlength | _ :: _ :: _, [_], hlength =>
        cases (List.cons_eq_cons.mp hlength).2
      | first :: second :: rest, first' :: second' :: rest', helements =>
        obtain ⟨hfirst, hrest⟩ := List.cons_eq_cons.mp helements
        have hfinal : outline ctx.decl true ((second :: rest).getLast?.getD second) =
            outline ctx.decl true ((second' :: rest').getLast?.getD second') := by
          rw [← Option.getD_map (outline ctx.decl true), ← List.getLast?_map,
            ← Option.getD_map (outline ctx.decl true), ← List.getLast?_map, hrest,
            (List.cons_eq_cons.mp hrest).1]
        refine (agree_delimiterToken 8 hfinal).bind_eq fun closing => ?_
        split
        · refine (agree_hasNodeName _).bind_eq fun named => .ite (agree_pure rfl) ?_
          split
          · refine (agree_delimiterToken 8 hfirst).bind_eq fun opening => ?_
            split
            · exact (agree_hasNodeName _).bind_eq fun named =>
                .ite (agree_pure rfl) (agree_pure rfl)
            · exact agree_pure rfl
          · exact agree_pure rfl
        · exact agree_pure rfl
    | _ => cases h
  | _ =>
    cases e' with
    | sequence => cases h
    | _ => exact agree_pure rfl

theorem agree_addPropWord (t : Term) (prop word : String) :
    Agree ctx Eq (addPropWord t prop word) (addPropWord t prop word) :=
  agree_modifyTerm t _

theorem agree_markDelimiters (info : NodeInfo) {body body' : Expr}
    (h : outline ctx.decl (!ctx.decl.detectDelimiters) body =
      outline ctx.decl (!ctx.decl.detectDelimiters) body') :
    Agree ctx Eq (markDelimiters info body) (markDelimiters info body') := by
  unfold markDelimiters
  refine agree_read_bind ?_
  cases hdetect : ctx.decl.detectDelimiters with
  | false => exact agree_pure rfl
  | true =>
    rw [hdetect] at h
    refine .ite ((agree_delimiters? h).bind_eq fun found => ?_) (agree_pure rfl)
    split
    · refine agree_get.bind fun d d' hd => ?_
      rw [hd.terms]
      exact (agree_addPropWord _ _ _).bind_eq fun _ => agree_addPropWord _ _ _
    · exact agree_pure rfl

theorem agree_ruleInfo (place : NodePlace) {rule rule' : RuleDecl} {args args' : List Expr}
    (hname : rule.id.name = rule'.id.name) (hparams : rule.params = rule'.params)
    (hprops : rule.props.map NodeProp.bare = rule'.props.map NodeProp.bare)
    (hargs : args.map (outline ctx.decl (!ctx.decl.detectDelimiters)) =
      args'.map (outline ctx.decl (!ctx.decl.detectDelimiters)))
    (hbody : outline ctx.decl (!ctx.decl.detectDelimiters) rule.body =
      outline ctx.decl (!ctx.decl.detectDelimiters) rule'.body) :
    Agree ctx Eq (ruleInfo place rule args) (ruleInfo place rule' args') := by
  unfold ruleInfo
  rw [hname, hparams]
  refine agree_read_bind ?_
  refine Agree.bind_eq (agree_check fun _ _ => NodeInfo.ofProps_eq _ _ _ hargs hprops) fun info => ?_
  refine (agree_markDelimiters info hbody).bind_eq fun _ => ?_
  exact agree_check fun _ _ => NodeInfo.checked_eq

/-! ## §7 Symbols -/

theorem instanceName_eq {rule rule' : RuleDecl} {args args' : List Expr} {merge : Bool}
    {decl : GrammarDecl} (hname : rule.id.name = rule'.id.name)
    (hargs : args.map (outline decl merge) = args'.map (outline decl merge)) :
    instanceName rule args = instanceName rule' args' := by
  have hshown := Expr.map_shown_of_outline hargs
  rw [instanceName, instanceName, hname, hshown, ← List.isEmpty_map, hargs, List.isEmpty_map]

section

variable {again again' : Normalizer} (skip : Term)
  (hagain : ∀ skip body body', outline ctx.decl true body = outline ctx.decl true body' →
    Agree ctx Eq (again skip body) (again' skip body'))

include hagain

theorem agree_buildRule (inPlace : Bool) {rule rule' : RuleDecl} {args args' : List Expr}
    (hname : rule.id.name = rule'.id.name) (hparams : rule.params = rule'.params)
    (hprops : rule.props.map NodeProp.bare = rule'.props.map NodeProp.bare)
    (hargs : args.map (outline ctx.decl (!ctx.decl.detectDelimiters)) =
      args'.map (outline ctx.decl (!ctx.decl.detectDelimiters)))
    (hbody : outline ctx.decl (!ctx.decl.detectDelimiters) rule.body =
      outline ctx.decl (!ctx.decl.detectDelimiters) rule'.body)
    (hbodies : (rule.bodyWith args).map (outline ctx.decl (!ctx.decl.detectDelimiters)) =
      (rule'.bodyWith args').map (outline ctx.decl (!ctx.decl.detectDelimiters))) :
    Agree ctx Eq (buildRule again rule args skip inPlace)
      (buildRule again' rule' args' skip inPlace) := by
  unfold buildRule
  refine Agree.bind (R := fun body body' => outline ctx.decl true body = outline ctx.decl true body')
    (agree_check fun body body' h h' => ?_) fun body body' hsame => ?_
  · rw [h, h'] at hbodies
    exact Expr.outline_merged (Except.ok.inj hbodies)
  refine (agree_ruleInfo _ hname hparams hprops hargs hbody).bind_eq fun info => ?_
  dsimp only
  refine .aside (alike_warn _ _) (alike_warn _ _) (.aside (alike_warn _ _) (alike_warn _ _) ?_)
  rw [instanceName_eq hname hargs]
  refine (agree_newTerm _).bind_eq fun term => ?_
  refine (agree_registerRule hname hparams inPlace info term).bind_eq fun _ => ?_
  refine .when (agree_modify fun d d' h => { h with ruleInstances := ?_ }) ?_
  · rw [List.map_append, List.map_append, h.ruleInstances, List.map_singleton, List.map_singleton,
      RuleInstance.shown, RuleInstance.shown, hname, Expr.map_shown_of_outline hargs]
  · refine (hagain skip body body' hsame).bind_eq fun phrases => ?_
    refine .aside (alike_warn _ _) (alike_warn _ _) ?_
    refine (agree_addRules term skip phrases).bind_eq fun _ => ?_
    split
    · refine Agree.bind_eq (agree_modify fun d d' h => { h with groups := ?_ }) fun _ =>
        agree_pure rfl
      rw [List.map_append, List.map_append, h.groups, List.map_singleton, List.map_singleton,
        GroupDef.shown, GroupDef.shown, hname]
    · exact agree_pure rfl

theorem agree_resolve (start start' : Nat) (name : String) {args args' : List Expr}
    (hargs : args.map (outline ctx.decl (!ctx.decl.detectDelimiters)) =
      args'.map (outline ctx.decl (!ctx.decl.detectDelimiters))) :
    Agree ctx Eq (resolve again start name args) (resolve again' start' name args') := by
  have hshown := Expr.map_shown_of_outline hargs
  have hlength : args.length = args'.length := by
    rw [← List.length_map Expr.shown, hshown, List.length_map]
  unfold resolve
  refine agree_get.bind fun d d' hd => ?_
  have hknown := hd.ruleInstance?_eq name hshown
  dsimp only
  cases hfound : d.ruleInstances.find? fun i => i.name == name && Expr.allSame i.args args with
  | some i =>
    rw [hfound] at hknown
    obtain ⟨i', hfound', hterm⟩ := Option.map_eq_some_iff.mp hknown.symm
    rw [hfound']
    exact agree_pure hterm.symm
  | none =>
    rw [hfound] at hknown
    rw [Option.map_eq_none_iff.mp hknown.symm]
    refine (agree_token? start start' name hargs).bind_eq fun token => ?_
    cases token with
    | some t => exact agree_pure rfl
    | none =>
      refine agree_get.bind fun d d' hd => ?_
      rw [externalToken?, externalToken?, hd.externalTokens, hd.externalSpecializers, hd.scope,
        hlength]
      split
      · exact (agree_markUsed name).bind fun _ _ _ => agree_pure rfl
      · split
        · exact agree_raise _ _
        · refine .when (agree_raise _ _) ((agree_markUsed name).bind fun _ _ _ => ?_)
          exact agree_buildRule _ hagain false rfl rfl rfl hargs rfl
            (RuleDecl.bodyWith_outline _ hargs)

theorem agree_repeatTerm {body body' : Expr}
    (h : outline ctx.decl true body = outline ctx.decl true body') :
    Agree ctx Eq (repeatTerm again skip body) (repeatTerm again' skip body') := by
  have hshown := Expr.shown_of_outline h
  unfold repeatTerm
  refine agree_get.bind fun d d' hd => ?_
  have hknown := hd.repeatInstance?_eq skip hshown
  dsimp only
  cases hfound : d.repeatInstances.find? fun i => i.skip == skip && i.body.same body with
  | some i =>
    rw [hfound] at hknown
    obtain ⟨i', hfound', hterm⟩ := Option.map_eq_some_iff.mp hknown.symm
    rw [hfound']
    exact agree_pure hterm.symm
  | none =>
    rw [hfound] at hknown
    rw [Option.map_eq_none_iff.mp hknown.symm]
    have hrepeated : outline ctx.decl true (.repeated body.start body .plus) =
        outline ctx.decl true (.repeated body'.start body' .plus) := by
      rw [Expr.outline_repeated, Expr.outline_repeated, h]
    rw [Expr.shown_of_outline hrepeated]
    refine (agree_newTerm _).bind_eq fun term => ?_
    refine Agree.bind_eq (agree_modify fun d d' h => { h with repeatInstances := ?_ }) fun _ => ?_
    · rw [List.map_append, List.map_append, h.repeatInstances, List.map_singleton,
        List.map_singleton, RepeatInstance.shown, RepeatInstance.shown, hshown]
    · refine (hagain skip body body' h).bind_eq fun phrases => ?_
      exact (agree_addRules term skip _).bind_eq fun _ => agree_pure rfl

end

end Build

end GrammarCompiler
