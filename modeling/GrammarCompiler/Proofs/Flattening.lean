/-
GrammarCompiler.Proofs.Flattening — the phrases that expressions come to.

`Flat` says which phrases an expression stands for in a draft, where the symbols of
rules, repeats and tokens are looked up in what the draft remembers. What is found
once is found in later drafts too, and so an expression keeps its phrases while
other things are worked through. A rule or repeat is remembered before it has its
rules: they are there when the expression that was worked through is done.

  §1 Rules       — what the rules for a symbol say.
  §2 Phrases     — the phrases of an expression, in a draft and in later ones.
  §3 Work        — what has been done between two drafts.
  §4 Symbols     — rules, references and repeats.
  §5 Expressions — working through expressions.
-/
import GrammarCompiler.Proofs.Lists
import GrammarCompiler.Proofs.Meaning

namespace GrammarCompiler

namespace Draft

/-! ## §1 Rules -/

/-- What the rules for a symbol say. -/
def partsOf (d : Draft) (t : Term) : List (List Term) :=
  (d.rules.filter fun r => r.name == t).map fun r => r.parts

/-- A symbol behind the first `low` ones that has rules with certain parts, and no others. -/
structure HasRules (d : Draft) (low : Nat) (t : Term) (parts : List (List Term)) : Prop where
  le_index : low ≤ t.index
  index_lt : t.index < d.terms.size
  isTerminal : d.terms.isTerminal t = false
  partsOf_eq : d.partsOf t = parts

variable {decl : GrammarDecl} {low low' : Nat} {d d' : Draft} {t : Term}

/-- A symbol that is behind the first ones, and there, gets no more rules. -/
theorem Grows.partsOf_eq (h : Grows decl low d d') (hlow : low ≤ t.index)
    (ht : t.index < d.terms.size) : d'.partsOf t = d.partsOf t := by
  obtain ⟨new, hrules, hnew⟩ := h.rules
  have hnone : new.filter (fun r => r.name == t) = [] := by
    refine List.filter_eq_nil_iff.mpr fun r hr heq => ?_
    rw [beq_iff_eq] at heq
    subst heq
    rcases hnew r hr with hlt | hle
    · exact Nat.not_lt.mpr hlow hlt
    · exact Nat.not_lt.mpr hle ht
  rw [partsOf, hrules, List.filter_append, hnone, List.append_nil, partsOf]

/-- Later on a symbol has the rules that it had. -/
theorem HasRules.mono {parts : List (List Term)} (ht : d.HasRules low t parts)
    (h : Grows decl low d d') (hlow : low' ≤ low) : d'.HasRules low' t parts where
  le_index := Nat.le_trans hlow ht.le_index
  index_lt := Nat.lt_of_lt_of_le ht.index_lt h.size_le
  isTerminal := h.isTerminal ht.isTerminal
  partsOf_eq := (h.partsOf_eq ht.le_index ht.index_lt).trans ht.partsOf_eq

theorem partsOf_withRules (hnone : ∀ r ∈ d.rules, r.name ≠ t) (skip : Term)
    (phrases : List Phrase) :
    (d.withRules t skip phrases).partsOf t = phrases.map Phrase.parts := by
  have hold : d.rules.filter (fun r => r.name == t) = [] :=
    List.filter_eq_nil_iff.mpr fun r hr heq => hnone r hr (beq_iff_eq.mp heq)
  have hnew (next : Nat) : (rulesFrom next t skip phrases).filter (fun r => r.name == t) =
      rulesFrom next t skip phrases :=
    List.filter_eq_self.mpr fun r hr => beq_iff_eq.mpr (name_of_mem_rulesFrom hr)
  rw [partsOf, withRules, List.filter_append, hold, List.nil_append, hnew, rulesFrom, List.map_map]
  have hparts : (fun p : Phrase × Nat => p.1.parts) = Phrase.parts ∘ Prod.fst := rfl
  change phrases.zipIdx.map (fun p => p.1.parts) = _
  rw [hparts, ← List.map_map, List.zipIdx_map_fst]

/-! ## §2 Phrases -/

/-- The rule with arguments that print alike. -/
def instanceFor? (d : Draft) (name : String) (args : List Expr) : Option RuleInstance :=
  d.ruleInstances.find? fun i => i.name == name && Expr.allSame i.args args

/-- The repeat of an expression that prints alike, where the same is skipped. -/
def repeatFor? (d : Draft) (skip : Term) (body : Expr) : Option RepeatInstance :=
  d.repeatInstances.find? fun i => i.skip == skip && i.body.same body

/-- What a reference can be found to stand for: a rule, a token, or an external token. -/
inductive Refers (decl : GrammarDecl) (d : Draft) (name : String) (args : List Expr)
    (t : Term) : Prop where
  | rule {i : RuleInstance} (h : d.instanceFor? name args = some i) (ht : i.term = t)
  | token (h : d.tokenFor? (.rule name args) = some t)
  | external (h : Build.externalToken? d name = some t)
      (hnew : ∀ r ∈ decl.tokenRules, r.id.name ≠ name)

/-- A token that has a case for some texts, each of which makes another token. -/
structure Makes (d : Draft) (base : Term) (values : List String) (t : Term) : Prop where
  isToken : d.terms.IsToken base
  values_ne : values ≠ []
  case : ∀ v ∈ values, ∃ s, d.caseFor? base v = some s ∧ s.term = t

mutual

/-- `Flat decl low d skip e phrases`: where `skip` is skipped, `e` stands for these phrases. The
symbols of rules in place are behind the first `low` ones. -/
def Flat (decl : GrammarDecl) (low : Nat) (d : Draft) (skip : Term) :
    Expr → List (List Term) → Prop
  | .repeated _ body .optional, phrases =>
    ∃ inner, Flat decl low d skip body inner ∧ phrases = [] :: inner
  | .repeated _ body .star, phrases =>
    ∃ i, d.repeatFor? skip body = some i ∧ phrases = [[], [i.term]]
  | .repeated _ body .plus, phrases =>
    ∃ i, d.repeatFor? skip body = some i ∧ phrases = [[i.term]]
  | .choice _ es, phrases => ∃ inner, FlatAll decl low d skip es inner ∧ phrases = inner.flatten
  | .sequence _ es _, phrases => ∃ inner, FlatAll decl low d skip es inner ∧
    ∀ p, p ∈ phrases ↔ ∃ chosen, List.Forall₂ (· ∈ ·) chosen inner ∧ p = chosen.flatten
  | .literal _ value, phrases => ∃ t, d.tokenFor? (.literal value) = some t ∧ phrases = [[t]]
  | .name _ name args, phrases => ∃ t, d.Refers decl name args t ∧ phrases = [[t]]
  | .specialize _ _ _ token content, phrases => ∃ base values t,
    Flat decl low d skip token [[base]] ∧ content.literals? = some values ∧
      d.Makes base values t ∧ phrases = [[t]]
  | .inlineRule _ _ _ body, phrases => ∃ t inner,
    Flat decl low d skip body inner ∧ d.HasRules low t inner ∧ phrases = [[t]]
  | .charClass _ cls, phrases => cls = .eof ∧ phrases = [[.eof]]
  | .set _ _ _, _ => False
  | .any _, _ => False

/-- What each of several expressions stands for. -/
def FlatAll (decl : GrammarDecl) (low : Nat) (d : Draft) (skip : Term) :
    List Expr → List (List (List Term)) → Prop
  | [], inner => inner = []
  | e :: es, inner => ∃ first rest, Flat decl low d skip e first ∧
    FlatAll decl low d skip es rest ∧ inner = first :: rest

end

variable {skip : Term}

theorem flatAll_iff {es : List Expr} {inner : List (List (List Term))} :
    FlatAll decl low d skip es inner ↔ List.Forall₂ (Flat decl low d skip) es inner := by
  induction es generalizing inner with
  | nil => rw [FlatAll, List.forall₂_nil_left_iff]
  | cons e es ih => simp only [FlatAll, ih, List.forall₂_cons_left_iff]

theorem Grows.instanceFor? (h : Grows decl low d d') {name : String} {args : List Expr}
    {i : RuleInstance} (hi : d.instanceFor? name args = some i) :
    d'.instanceFor? name args = some i :=
  h.ruleInstances.find?_eq_some hi

theorem Grows.repeatFor? (h : Grows decl low d d') {skip : Term} {body : Expr}
    {i : RepeatInstance} (hi : d.repeatFor? skip body = some i) :
    d'.repeatFor? skip body = some i :=
  h.repeatInstances.find?_eq_some hi

theorem Grows.externalToken? (h : Grows decl low d d') (name : String) :
    Build.externalToken? d' name = Build.externalToken? d name := by
  rw [Build.externalToken?, h.external_eq.1, h.external_eq.2, Build.externalToken?]

theorem Refers.mono {name : String} {args : List Expr} (ht : d.Refers decl name args t)
    (h : Grows decl low d d') : d'.Refers decl name args t := by
  cases ht with
  | rule hi ht => exact .rule (h.instanceFor? hi) ht
  | token ht => exact .token (h.tokenFor? ht)
  | external ht hnew => exact .external ((h.externalToken? name).trans ht) hnew

theorem Makes.mono {base : Term} {values : List String} (ht : d.Makes base values t)
    (h : Grows decl low d d') : d'.Makes base values t where
  isToken := h.isToken ht.isToken
  values_ne := ht.values_ne
  case v hv := by
    obtain ⟨s, hs, hterm⟩ := ht.case v hv
    exact ⟨s, h.cases _ _ _ hs, hterm⟩

mutual

/-- Later on an expression has the phrases that it had. -/
theorem Flat.mono (h : Grows decl low d d') (hlow : low' ≤ low) :
    ∀ {e : Expr} {phrases : List (List Term)},
      Flat decl low d skip e phrases → Flat decl low' d' skip e phrases
  | .repeated _ _ .optional, _, ⟨inner, hinner, heq⟩ => ⟨inner, hinner.mono h hlow, heq⟩
  | .repeated _ _ .star, _, ⟨i, hi, heq⟩ => ⟨i, h.repeatFor? hi, heq⟩
  | .repeated _ _ .plus, _, ⟨i, hi, heq⟩ => ⟨i, h.repeatFor? hi, heq⟩
  | .choice _ _, _, ⟨inner, hinner, heq⟩ => ⟨inner, hinner.mono h hlow, heq⟩
  | .sequence _ _ _, _, ⟨inner, hinner, hmem⟩ => ⟨inner, hinner.mono h hlow, hmem⟩
  | .literal _ _, _, ⟨t, ht, heq⟩ => ⟨t, h.tokenFor? ht, heq⟩
  | .name _ _ _, _, ⟨t, ht, heq⟩ => ⟨t, ht.mono h, heq⟩
  | .specialize _ _ _ _ _, _, ⟨base, values, t, htoken, hvalues, ht, heq⟩ =>
    ⟨base, values, t, htoken.mono h hlow, hvalues, ht.mono h, heq⟩
  | .inlineRule _ _ _ _, _, ⟨t, inner, hinner, ht, heq⟩ =>
    ⟨t, inner, hinner.mono h hlow, ht.mono h hlow, heq⟩
  | .charClass _ _, _, hflat => hflat

theorem FlatAll.mono (h : Grows decl low d d') (hlow : low' ≤ low) :
    ∀ {es : List Expr} {inner : List (List (List Term))},
      FlatAll decl low d skip es inner → FlatAll decl low' d' skip es inner
  | [], _, heq => heq
  | _ :: _, _, ⟨first, rest, hfirst, hrest, heq⟩ =>
    ⟨first, rest, hfirst.mono h hlow, hrest.mono h hlow, heq⟩

end

/-! ## §3 Work -/

theorem mem_tokenTerms_of_tokenFor? {key : TokenKey} (h : d.tokenFor? key = some t) :
    t ∈ d.tokenTerms := by
  obtain ⟨i, hi, rfl⟩ := Option.map_eq_some_iff.mp h
  exact List.mem_append_left _ (List.mem_append_left _
    (List.mem_map_of_mem (List.mem_of_find?_eq_some hi)))

theorem mem_tokenTerms_of_externalToken? {name : String}
    (h : Build.externalToken? d name = some t) : t ∈ d.tokenTerms := by
  obtain ⟨e, he, hlookup⟩ := List.exists_of_findSome?_eq_some h
  obtain ⟨before, after, hsplit, _⟩ := List.lookup_eq_some_iff.mp hlookup
  have htoken : (name, t) ∈ e.tokens := hsplit ▸ List.mem_append_right before (.head after)
  refine List.mem_append_left _ (List.mem_append_right _ (List.mem_flatMap.mpr ⟨e, he, ?_⟩))
  exact List.mem_map_of_mem htoken

/-- What holds of a draft while expressions are worked through: names refer to the rules of the
declarations, and the symbols that are remembered are there. -/
structure Ready (decl : GrammarDecl) (d : Draft) : Prop extends Tidy decl d where
  scope : ∀ name s, d.scope.find? (fun s => s.rule.id.name == name) = some s →
    decl.rule? name = some s.rule
  rule_lt : ∀ i ∈ d.ruleInstances, i.term.index < d.terms.size
  repeat_lt : ∀ i ∈ d.repeatInstances, i.term.index < d.terms.size
  eof_lt : Term.eof.index < d.terms.size

/-- Where `skip` is skipped, a symbol has the phrases of an expression for rules. -/
def Stands (decl : GrammarDecl) (low : Nat) (d : Draft) (skip t : Term) (e : Expr) : Prop :=
  ∃ parts, Flat decl low d skip e parts ∧ d.HasRules low t parts

/-- The rules for the body of a rule are there. -/
def RuleDone (decl : GrammarDecl) (low : Nat) (d : Draft) (i : RuleInstance) : Prop :=
  ∃ s body, d.scope.find? (fun s => s.rule.id.name == i.name) = some s ∧
    s.rule.bodyWith i.args = .ok body ∧ decl.Occurs body ∧
    Stands decl low d s.skip i.term body ∧
    (i.args = [] ∨ ∃ start, decl.Occurs (.name start i.name i.args))

/-- The rules for a repeat are there. -/
def RepeatDone (decl : GrammarDecl) (low : Nat) (d : Draft) (i : RepeatInstance) : Prop :=
  ∃ parts start kind, decl.Occurs (.repeated start i.body kind) ∧
    Flat decl low d i.skip i.body parts ∧
    d.HasRules low i.term (parts ++ [[i.term, i.term]])

/-- Where a symbol with rules comes from: it is that of a rule, of a repeat, or of a rule in
place. -/
inductive Comes (decl : GrammarDecl) (low : Nat) (d : Draft) (t : Term) : Prop where
  | rule {i : RuleInstance} (hi : i ∈ d.ruleInstances) (ht : i.term = t)
  | repeated {i : RepeatInstance} (hi : i ∈ d.repeatInstances) (ht : i.term = t)
  | inPlace {start : Nat} {id : String} {props : List NodeProp} {body : Expr} {skip : Term}
      (h : decl.Occurs (.inlineRule start id props body)) (ht : Stands decl low d skip t body)

theorem Stands.mono {e : Expr} (ht : Stands decl low d skip t e) (h : Grows decl low d d')
    (hlow : low' ≤ low) : Stands decl low' d' skip t e := by
  obtain ⟨parts, hflat, hrules⟩ := ht
  exact ⟨parts, hflat.mono h hlow, hrules.mono h hlow⟩

theorem RuleDone.mono {i : RuleInstance} (hi : RuleDone decl low d i) (h : Grows decl low d d')
    (hlow : low' ≤ low) : RuleDone decl low' d' i := by
  obtain ⟨s, body, hs, hbody, hoccurs, ht, hargs⟩ := hi
  exact ⟨s, body, h.scope_eq ▸ hs, hbody, hoccurs, ht.mono h hlow, hargs⟩

theorem RepeatDone.mono {i : RepeatInstance} (hi : RepeatDone decl low d i)
    (h : Grows decl low d d') (hlow : low' ≤ low) : RepeatDone decl low' d' i := by
  obtain ⟨parts, start, kind, hoccurs, hflat, hrules⟩ := hi
  exact ⟨parts, start, kind, hoccurs, hflat.mono h hlow, hrules.mono h hlow⟩

theorem Comes.mono (ht : Comes decl low d t) (h : Grows decl low d d') (hlow : low' ≤ low) :
    Comes decl low' d' t := by
  cases ht with
  | rule hi ht => exact .rule (h.ruleInstances.subset hi) ht
  | repeated hi ht => exact .repeated (h.repeatInstances.subset hi) ht
  | inPlace hoccurs ht => exact .inPlace hoccurs (ht.mono h hlow)

/-- `Works decl d d'`: what is new in `d'` has its rules, and only that has new rules. -/
structure Works (decl : GrammarDecl) (d d' : Draft) : Prop extends Grows decl 0 d d' where
  rule : ∀ i ∈ d'.ruleInstances, i ∈ d.ruleInstances ∨ RuleDone decl d.terms.size d' i
  repeated : ∀ i ∈ d'.repeatInstances, i ∈ d.repeatInstances ∨ RepeatDone decl d.terms.size d' i
  comes : ∀ r ∈ d'.rules, r ∈ d.rules ∨ Comes decl d.terms.size d' r.name
  skipTerms_eq : d'.skipTerms = d.skipTerms

theorem Supplies.works (h : Supplies decl d d') : Works decl d d' := by
  have hdeclared := h.declared_eq
  simp only [declared, Prod.mk.injEq] at hdeclared
  obtain ⟨hrules, hinstances, hrepeats, _, _, _, hskips⟩ := hdeclared
  exact ⟨h.toGrows, fun i hi => .inl (hinstances ▸ hi), fun i hi => .inl (hrepeats ▸ hi),
    fun r hr => .inl (hrules ▸ hr), hskips⟩

theorem Works.trans {d'' : Draft} (h : Works decl d d') (h' : Works decl d' d'') :
    Works decl d d'' where
  __ := h.toGrows.trans h'.toGrows
  rule i hi := by
    rcases h'.rule i hi with hi | hi
    · exact (h.rule i hi).imp_right (·.mono (h'.toGrows.mono _) (Nat.le_refl _))
    · exact .inr (hi.mono (.refl decl _ _) h.size_le)
  repeated i hi := by
    rcases h'.repeated i hi with hi | hi
    · exact (h.repeated i hi).imp_right (·.mono (h'.toGrows.mono _) (Nat.le_refl _))
    · exact .inr (hi.mono (.refl decl _ _) h.size_le)
  comes r hr := by
    rcases h'.comes r hr with hr | hr
    · exact (h.comes r hr).imp_right (·.mono (h'.toGrows.mono _) (Nat.le_refl _))
    · exact .inr (hr.mono (.refl decl _ _) h.size_le)
  skipTerms_eq := h'.skipTerms_eq.trans h.skipTerms_eq

instance (decl : GrammarDecl) : IsPreorder Draft (Works decl) where
  refl d := (refl_of (Supplies decl) d).works
  trans _ _ _ := .trans

theorem Ready.of_grows (hd : d.Ready decl) (h : Grows decl low d d')
    (hrules : d'.ruleInstances = d.ruleInstances)
    (hrepeats : d'.repeatInstances = d.repeatInstances) : d'.Ready decl where
  __ := h.tidy hd.toTidy
  scope name s hs := hd.scope name s (h.scope_eq ▸ hs)
  rule_lt i hi := Nat.lt_of_lt_of_le (hd.rule_lt i (hrules ▸ hi)) h.size_le
  repeat_lt i hi := Nat.lt_of_lt_of_le (hd.repeat_lt i (hrepeats ▸ hi)) h.size_le
  eof_lt := Nat.lt_of_lt_of_le hd.eof_lt h.size_le

theorem Ready.later (hd : d.Ready decl) (h : Works decl d d') : d'.Ready decl where
  __ := h.tidy hd.toTidy
  scope name s hs := hd.scope name s (h.scope_eq ▸ hs)
  rule_lt i hi := by
    rcases h.rule i hi with hi | ⟨_, _, _, _, _, ⟨_, _, ht⟩, _⟩
    · exact Nat.lt_of_lt_of_le (hd.rule_lt i hi) h.size_le
    · exact ht.index_lt
  repeat_lt i hi := by
    rcases h.repeated i hi with hi | ⟨_, _, _, _, _, ht⟩
    · exact Nat.lt_of_lt_of_le (hd.repeat_lt i hi) h.size_le
    · exact ht.index_lt
  eof_lt := Nat.lt_of_lt_of_le hd.eof_lt h.size_le

theorem Makes.mem_tokenTerms {base : Term} {values : List String}
    (h : d.Makes base values t) : t ∈ d.tokenTerms := by
  obtain ⟨v, hv⟩ := List.exists_mem_of_ne_nil _ h.values_ne
  obtain ⟨s, hs, rfl⟩ := h.case v hv
  exact mem_tokenTerms_of_case (List.mem_of_find?_eq_some hs)

theorem Refers.lt_size (hd : d.Ready decl) {name : String} {args : List Expr}
    (ht : d.Refers decl name args t) : t.index < d.terms.size := by
  cases ht with
  | rule hi ht => exact ht ▸ hd.rule_lt _ (List.mem_of_find?_eq_some hi)
  | token ht => exact (hd.tokens t (mem_tokenTerms_of_tokenFor? ht)).lt_size
  | external ht _ => exact (hd.tokens t (mem_tokenTerms_of_externalToken? ht)).lt_size

/-- The symbols in the phrases of an expression are there. -/
def InSize (d : Draft) (phrases : List (List Term)) : Prop :=
  ∀ p ∈ phrases, ∀ t ∈ p, t.index < d.terms.size

theorem inSize_single (h : t.index < d.terms.size) : d.InSize [[t]] := by
  intro p hp u hu
  rw [List.mem_singleton.mp hp] at hu
  rwa [List.mem_singleton.mp hu]

theorem InSize.cons_nil {phrases : List (List Term)} (h : d.InSize phrases) :
    d.InSize ([] :: phrases) :=
  List.forall_mem_cons.mpr ⟨nofun, h⟩

mutual

theorem Flat.inSize (hd : d.Ready decl) : ∀ {e : Expr} {phrases : List (List Term)},
    Flat decl low d skip e phrases → d.InSize phrases
  | .repeated _ _ .optional, _, ⟨_, hinner, heq⟩ => heq ▸ (hinner.inSize hd).cons_nil
  | .repeated _ _ .star, _, ⟨_, hi, heq⟩ =>
    heq ▸ (inSize_single (hd.repeat_lt _ (List.mem_of_find?_eq_some hi))).cons_nil
  | .repeated _ _ .plus, _, ⟨_, hi, heq⟩ =>
    heq ▸ inSize_single (hd.repeat_lt _ (List.mem_of_find?_eq_some hi))
  | .choice _ _, _, ⟨_, hinner, heq⟩ => by
    intro p hp t ht
    obtain ⟨phrases, hphrases, hp⟩ := List.mem_flatten.mp (heq ▸ hp)
    exact hinner.inSize hd phrases hphrases p hp t ht
  | .sequence _ _ _, _, ⟨inner, hinner, hmem⟩ => by
    intro p hp t ht
    obtain ⟨chosen, hchosen, rfl⟩ := (hmem p).mp hp
    obtain ⟨q, hq, ht⟩ := List.mem_flatten.mp ht
    obtain ⟨phrases, hphrases, hq⟩ := exists_of_mem_forall₂ hchosen hq
    exact hinner.inSize hd phrases hphrases q hq t ht
  | .literal _ _, _, ⟨t, ht, heq⟩ =>
    heq ▸ inSize_single (hd.tokens t (mem_tokenTerms_of_tokenFor? ht)).lt_size
  | .name _ _ _, _, ⟨_, ht, heq⟩ => heq ▸ inSize_single (ht.lt_size hd)
  | .specialize _ _ _ _ _, _, ⟨_, _, t, _, _, ht, heq⟩ =>
    heq ▸ inSize_single (hd.tokens t ht.mem_tokenTerms).lt_size
  | .inlineRule _ _ _ _, _, ⟨_, _, _, ht, heq⟩ => heq ▸ inSize_single ht.index_lt
  | .charClass _ _, _, ⟨_, heq⟩ => heq ▸ inSize_single hd.eof_lt

theorem FlatAll.inSize (hd : d.Ready decl) :
    ∀ {es : List Expr} {inner : List (List (List Term))}, FlatAll decl low d skip es inner →
      ∀ phrases ∈ inner, d.InSize phrases
  | [], _, heq => heq ▸ nofun
  | _ :: _, _, ⟨_, _, hfirst, hrest, heq⟩ =>
    heq ▸ List.forall_mem_cons.mpr ⟨hfirst.inSize hd, hrest.inSize hd⟩

end

/-! ## §4 Symbols -/

theorem Ready.withInstance (hd : d.Ready decl) {i : RuleInstance}
    (hi : i.term.index < d.terms.size) : (d.withInstance i).Ready decl where
  __ := (grows_withInstance d i).tidy hd.toTidy
  scope := hd.scope
  rule_lt := List.forall_mem_append.mpr ⟨hd.rule_lt, List.forall_mem_singleton.mpr hi⟩
  repeat_lt := hd.repeat_lt
  eof_lt := hd.eof_lt

theorem Ready.withRepeat (hd : d.Ready decl) {i : RepeatInstance}
    (hi : i.term.index < d.terms.size) : (d.withRepeat i).Ready decl where
  __ := (grows_withRepeat d i).tidy hd.toTidy
  scope := hd.scope
  rule_lt := hd.rule_lt
  repeat_lt := List.forall_mem_append.mpr ⟨hd.repeat_lt, List.forall_mem_singleton.mpr hi⟩
  eof_lt := hd.eof_lt

variable {d₁ d₂ : Draft}

theorem Enters.supplies (h : Enters decl 0 d t d₁) : Supplies decl d d₁ :=
  ⟨h.toGrows, h.declared_eq⟩

/-- A symbol that is entered gets its rules, and what was there has those that it had. -/
theorem Enters.later (h : Enters decl low d t d₁) (hd : d.Tidy decl) (h' : Grows decl 0 d₁ d₂)
    (skip : Term) (phrases : List Phrase) :
    Grows decl d₁.terms.size d₂ (d₂.withRules t skip phrases) :=
  (Grows.refl decl _ d₂).withRules (.inl h.index_lt)
    (Nat.lt_of_lt_of_le h.index_lt h'.size_le) (fun _ => h.name_ne h' hd) skip phrases

theorem Enters.hasRules (h : Enters decl low d t d₁) (hd : d.Tidy decl) (h' : Grows decl 0 d₁ d₂)
    (skip : Term) (phrases : List Phrase) :
    (d₂.withRules t skip phrases).HasRules d.terms.size t (phrases.map Phrase.parts) where
  le_index := h.size_le_index
  index_lt := Nat.lt_of_lt_of_le h.index_lt h'.size_le
  isTerminal := h'.isTerminal h.isTerminal
  partsOf_eq := partsOf_withRules (h.name_ne h' hd) skip phrases

/-- `Closes decl d t inside d'`: the symbol `t` is entered, other things are worked through from
`inside` on, and `t` gets its rules. -/
inductive Closes (decl : GrammarDecl) (d : Draft) (t : Term) (inside d' : Draft) : Prop where
  | intro {d₁ d₂ : Draft} (enters : Enters decl 0 d t d₁) (terms_eq : inside.terms = d₁.terms)
      (rules_eq : inside.rules = d₁.rules ∧ inside.skipTerms = d₁.skipTerms)
      (works : Works decl inside d₂)
      (grows : Grows decl 0 d d') (later : Grows decl d₁.terms.size d₂ d')
      (instances_eq : d'.ruleInstances = d₂.ruleInstances)
      (repeats_eq : d'.repeatInstances = d₂.repeatInstances)
      (skips_eq : d'.skipTerms = d₂.skipTerms)
      (rules : ∀ r ∈ d'.rules, r ∈ d₂.rules ∨ r.name = t)

theorem Closes.ruleInstances {inside : Draft} (h : Closes decl d t inside d') :
    inside.ruleInstances <+: d'.ruleInstances := by
  obtain ⟨_, _, _, hworks, _, _, hinstances, _⟩ := h
  exact hinstances ▸ hworks.ruleInstances

theorem Closes.scope_eq {inside : Draft} (h : Closes decl d t inside d') : d'.scope = d.scope := by
  obtain ⟨_, _, _, _, hgrows, _⟩ := h
  exact hgrows.scope_eq

/-- When a symbol has its rules, everything new has. -/
theorem Closes.works {inside : Draft} (h : Closes decl d t inside d')
    (hrule : ∀ i ∈ inside.ruleInstances, i ∈ d.ruleInstances ∨ RuleDone decl d.terms.size d' i)
    (hrepeat : ∀ i ∈ inside.repeatInstances,
      i ∈ d.repeatInstances ∨ RepeatDone decl d.terms.size d' i)
    (hself : Comes decl d.terms.size d' t) : Works decl d d' := by
  obtain ⟨henter, hterms, hold, hworks, hgrows, hlater, hinstances, hrepeats, hskips, hrules⟩ := h
  have hdeclared := henter.declared_eq
  simp only [declared, Prod.mk.injEq] at hdeclared
  refine ⟨hgrows, fun i hi => ?_, fun i hi => ?_, fun r hr => ?_, ?_⟩
  · rcases hworks.rule i (hinstances ▸ hi) with hi | hi
    · exact hrule i hi
    · exact .inr ((hterms ▸ hi).mono hlater henter.size_le)
  · rcases hworks.repeated i (hrepeats ▸ hi) with hi | hi
    · exact hrepeat i hi
    · exact .inr ((hterms ▸ hi).mono hlater henter.size_le)
  · rcases hrules r hr with hr | rfl
    · rcases hworks.comes r hr with hr | hr
      · exact .inl (hold.1.trans hdeclared.1 ▸ hr)
      · exact .inr ((hterms ▸ hr).mono hlater henter.size_le)
    · exact .inr hself
  · exact hskips.trans (hworks.skipTerms_eq.trans
      (hold.2.trans hdeclared.2.2.2.2.2.2))

end Draft

namespace Build

open Draft (Grows Supplies Quietly Enters Ready Flat Stands Works Comes Refers Closes)

variable {ctx : Declared} {again : Normalizer} {d : Draft}

/-- Expressions that occur are worked through, and come to phrases. -/
def Flattens (ctx : Declared) (again : Normalizer) : Prop :=
  ∀ skip e d, ctx.decl.Occurs e → d.Ready ctx.decl → Yields ctx d (again skip e) fun phrases d' =>
    Works ctx.decl d d' ∧ Flat ctx.decl d.terms.size d' skip e (phrases.map Phrase.parts)

/-- The symbol of a rule gets the phrases of the body for rules. -/
theorem yields_buildRule_closes (hagain : Flattens ctx again) (hd : d.Ready ctx.decl)
    {rule : RuleDecl} {args : List Expr} {body : Expr} (hbody : rule.bodyWith args = .ok body)
    (hoccurs : ctx.decl.Occurs body) (skip : Term) (inPlace : Bool) :
    Yields ctx d (buildRule again rule args skip inPlace) fun t d' => ∃ d₁,
      d₁.declared = d.declared ∧ Closes ctx.decl d t
        (if inPlace then d₁ else d₁.withInstance ⟨rule.id.name, args, t⟩) d' ∧
      Stands ctx.decl d.terms.size d' skip t body := by
  intro t d' h
  obtain ⟨body', d₁, phrases, d₂, d₃, hbody', henter, -, hrun, hd₃, hd'⟩ :=
    yields_buildRule rule args skip inPlace t d' h
  obtain rfl : body = body' := Except.ok.inj (hbody.symm.trans hbody')
  have hready : d₁.Ready ctx.decl := hd.later henter.supplies.works
  -- The draft in which the body is worked through differs from `d₁` in the rule it remembers.
  generalize hinside : (if inPlace then d₁ else d₁.withInstance ⟨rule.id.name, args, t⟩) = inside
    at hrun
  have hin : inside.Ready ctx.decl ∧ inside.terms = d₁.terms ∧
      (inside.rules = d₁.rules ∧ inside.skipTerms = d₁.skipTerms) ∧
      Grows ctx.decl 0 d₁ inside := by
    subst hinside
    cases inPlace with
    | true => exact ⟨hready, rfl, ⟨rfl, rfl⟩, .refl _ _ _⟩
    | false =>
      exact ⟨hready.withInstance henter.index_lt, rfl, ⟨rfl, rfl⟩, Draft.grows_withInstance d₁ _⟩
  obtain ⟨hinReady, hterms, hrules, hgrowsIn⟩ := hin
  obtain ⟨hworks, hflat⟩ := hagain skip body inside hoccurs hinReady phrases d₂ hrun
  have hgrows : Grows ctx.decl 0 d₁ d₃ := hgrowsIn.trans (hworks.toGrows.trans hd₃.toGrows)
  have hlater : Grows ctx.decl d₁.terms.size d₂ d' :=
    (hd₃.toGrows.mono _).trans ((henter.later hd.toTidy hgrows skip phrases).trans
      (hd'.toGrows.mono _))
  have hsame₃ := hd₃.declared_eq
  have hsame' := hd'.declared_eq
  simp only [Draft.declared, Prod.mk.injEq] at hsame₃ hsame'
  refine ⟨d₁, henter.declared_eq, ?_, phrases.map Phrase.parts, ?_, ?_⟩
  · rw [hinside]
    refine ⟨henter, hterms, hrules, hworks, (henter.grows hgrows skip phrases).trans hd'.toGrows,
      hlater, hsame'.2.1.trans hsame₃.2.1, hsame'.2.2.1.trans hsame₃.2.2.1,
      hsame'.2.2.2.2.2.2.trans hsame₃.2.2.2.2.2.2, fun r hr => ?_⟩
    rw [hsame'.1] at hr
    rcases List.mem_append.mp hr with hr | hr
    · exact .inl (hsame₃.1 ▸ hr)
    · exact .inr (Draft.name_of_mem_rulesFrom hr)
  · rw [hterms] at hflat
    exact hflat.mono hlater henter.size_le
  · exact (henter.hasRules hd.toTidy hgrows skip phrases).mono (hd'.toGrows.mono _) (Nat.le_refl _)

/-- A rule that is built now has its rules. -/
theorem works_buildRule (hagain : Flattens ctx again) (hd : d.Ready ctx.decl) {s : ScopedRule}
    {args : List Expr} {body : Expr}
    (hs : d.scope.find? (fun r => r.rule.id.name == s.rule.id.name) = some s)
    (hbody : s.rule.bodyWith args = .ok body) (hoccurs : ctx.decl.Occurs body)
    (hargs : args = [] ∨ ∃ start, ctx.decl.Occurs (.name start s.rule.id.name args)) :
    Yields ctx d (buildRule again s.rule args s.skip false) fun t d' =>
      Works ctx.decl d d' ∧
        d.ruleInstances ++ [⟨s.rule.id.name, args, t⟩] <+: d'.ruleInstances := by
  intro t d' h
  obtain ⟨d₁, hsame, hcloses, hstands⟩ :=
    yields_buildRule_closes hagain hd hbody hoccurs s.skip false t d' h
  simp only [Draft.declared, Prod.mk.injEq] at hsame
  have hlonger : d.ruleInstances ++ [⟨s.rule.id.name, args, t⟩] <+: d'.ruleInstances := by
    rw [← hsame.2.1]
    exact hcloses.ruleInstances
  have hdone : d'.RuleDone ctx.decl d.terms.size ⟨s.rule.id.name, args, t⟩ :=
    ⟨s, body, hcloses.scope_eq ▸ hs, hbody, hoccurs, hstands, hargs⟩
  refine ⟨hcloses.works (fun i hi => ?_) (fun i hi => .inl (hsame.2.2.1 ▸ hi)) ?_, hlonger⟩
  · rcases List.mem_append.mp hi with hi | hi
    · exact .inl (hsame.2.1 ▸ hi)
    · exact .inr (List.mem_singleton.mp hi ▸ hdone)
  · exact .rule (hlonger.subset (List.mem_append_right _ (List.mem_singleton_self _))) rfl

/-- A rule in place gets its rules. -/
theorem flat_buildInPlace (hagain : Flattens ctx again) (hd : d.Ready ctx.decl) {start : Nat}
    {id : String} {props : List NodeProp} {body : Expr}
    (hoccurs : ctx.decl.Occurs (.inlineRule start id props body)) (skip : Term) :
    Yields ctx d (buildRule again { id := ⟨start, id⟩, props, params := [], body } [] skip true)
      fun t d' => Works ctx.decl d d' ∧
        Flat ctx.decl d.terms.size d' skip (.inlineRule start id props body) [[t]] := by
  intro t d' h
  have hbody : ctx.decl.Occurs body := hoccurs.part (List.mem_singleton_self body)
  obtain ⟨d₁, hsame, hcloses, hstands⟩ :=
    yields_buildRule_closes hagain hd rfl hbody skip true t d' h
  simp only [Draft.declared, Prod.mk.injEq] at hsame
  refine ⟨hcloses.works (fun i hi => .inl (hsame.2.1 ▸ hi)) (fun i hi => .inl (hsame.2.2.1 ▸ hi))
    (.inPlace hoccurs hstands), ?_⟩
  obtain ⟨parts, hflat, hrules⟩ := hstands
  exact ⟨t, parts, hflat, hrules, rfl⟩

/-- What a reference refers to is found in the end. -/
theorem refers_resolve (hagain : Flattens ctx again) (hd : d.Ready ctx.decl) {start : Nat}
    {name : String} {args : List Expr} (hoccurs : ctx.decl.Occurs (.name start name args)) :
    Yields ctx d (resolve again start name args) fun t d' =>
      Works ctx.decl d d' ∧ Refers ctx.decl d' name args t := by
  intro t d' h
  rcases yields_resolve start name args t d' h with ⟨i, hi, rfl, rfl⟩ | ⟨hd', ht⟩ |
    ⟨hd', ht, hnew⟩ | ⟨hnone, d₁, skip, rule, hd₁, hrule, _, hbuild⟩
  · exact ⟨refl_of (Works ctx.decl) _, .rule hi rfl⟩
  · exact ⟨hd'.works, .token ht⟩
  · exact ⟨hd'.works, .external ht hnew⟩
  · have hname : rule.id.name = name := by simpa using List.find?_some hrule
    subst hname
    have hready := hd.later hd₁.works
    obtain ⟨body, _, _, _, _, hbody, _⟩ := yields_buildRule rule args skip false t d' hbuild
    have hbodyOccurs := hoccurs.body (hready.scope _ _ hrule) hbody
    obtain ⟨hworks, hlonger⟩ := works_buildRule (s := ⟨skip, rule⟩) hagain hready hrule hbody
      hbodyOccurs (.inr ⟨start, hoccurs⟩) t d' hbuild
    refine ⟨hd₁.works.trans hworks, .rule (i := ⟨rule.id.name, args, t⟩) ?_ rfl⟩
    have hinstances : d₁.ruleInstances = d.ruleInstances :=
      congrArg (fun declared => declared.2.1) hd₁.declared_eq
    refine hlonger.find?_eq_some ?_
    rw [List.find?_append, hinstances, hnone, Option.none_or]
    simp [Expr.allSame]

/-- The symbol of a repeat is found in the end. -/
theorem repeats_repeatTerm (hagain : Flattens ctx again) (hd : d.Ready ctx.decl) {start : Nat}
    {body : Expr} {kind : RepeatKind} (hoccurs : ctx.decl.Occurs (.repeated start body kind))
    (skip : Term) :
    Yields ctx d (repeatTerm again skip body) fun t d' => Works ctx.decl d d' ∧
      ∃ i, d'.repeatFor? skip body = some i ∧ i.term = t := by
  intro t d' h
  rcases yields_repeatTerm skip body t d' h with ⟨i, hi, rfl, rfl⟩ |
    ⟨hnone, d₁, phrases, d₂, _, henter, hrun, rfl⟩
  · exact ⟨refl_of (Works ctx.decl) _, i, hi, rfl⟩
  · let i : RepeatInstance := ⟨body, skip, t⟩
    have hbody : ctx.decl.Occurs body := hoccurs.part (List.mem_singleton_self body)
    have hready : d₁.Ready ctx.decl := hd.later henter.supplies.works
    obtain ⟨hworks, hflat⟩ := hagain skip body (d₁.withRepeat i) hbody
      (hready.withRepeat henter.index_lt) phrases d₂ hrun
    have hgrows : Grows ctx.decl 0 d₁ d₂ := (Draft.grows_withRepeat d₁ i).trans hworks.toGrows
    let all : List Phrase := phrases ++ [⟨[t, t], [.none, .none, .none]⟩]
    have hlater := henter.later hd.toTidy hgrows skip all
    have hrules := henter.hasRules hd.toTidy hgrows skip all
    have hsame := henter.declared_eq
    simp only [Draft.declared, Prod.mk.injEq] at hsame
    have hlonger : d.repeatInstances ++ [i] <+: d₂.repeatInstances := by
      rw [← hsame.2.2.1]
      exact hworks.repeatInstances
    have hcloses : Closes ctx.decl d t (d₁.withRepeat i) (d₂.withRules t skip all) :=
      ⟨henter, rfl, ⟨rfl, rfl⟩, hworks, henter.grows hgrows skip all, hlater, rfl, rfl, rfl,
        fun r hr => (List.mem_append.mp hr).imp_right Draft.name_of_mem_rulesFrom⟩
    rw [List.map_append] at hrules
    have hdone : (d₂.withRules t skip all).RepeatDone ctx.decl d.terms.size i :=
      ⟨_, start, kind, hoccurs, hflat.mono hlater henter.size_le, hrules⟩
    refine ⟨hcloses.works (fun i hi => .inl (hsame.2.1 ▸ hi)) (fun j hj => ?_) ?_, i, ?_, rfl⟩
    · rcases List.mem_append.mp hj with hj | hj
      · exact .inl (hsame.2.2.1 ▸ hj)
      · exact .inr (List.mem_singleton.mp hj ▸ hdone)
    · exact .repeated (hlonger.subset (List.mem_append_right _ (List.mem_singleton_self _))) rfl
    · refine hlonger.find?_eq_some ?_
      rw [List.find?_append, hnone, Option.none_or]
      simp [i, Expr.same]

end Build

/-! ## §5 Expressions -/

/-- The phrases of a sequence are those that one choice for each element gives. -/
theorem mem_sequencePhrases {elements : List (List Phrase)} {gaps : List GapMarks} {done : Phrase}
    {atEnd : Marks} {p : List Term} :
    p ∈ (sequencePhrases elements gaps done atEnd).map Phrase.parts ↔
      ∃ chosen, List.Forall₂ (· ∈ ·) chosen (elements.map (List.map Phrase.parts)) ∧
        p = done.parts ++ chosen.flatten := by
  induction elements generalizing gaps done atEnd with
  | nil => simp [sequencePhrases, Phrase.markEnd]
  | cons phrases elements ih =>
    rw [sequencePhrases, List.map_flatMap, List.mem_flatMap]
    simp only [ih]
    constructor
    · rintro ⟨phrase, hphrase, chosen, hchosen, rfl⟩
      refine ⟨phrase.parts :: chosen, .cons (List.mem_map_of_mem hphrase) hchosen, ?_⟩
      rw [Phrase.append, Phrase.markEnd, List.flatten_cons, List.append_assoc]
    · rintro ⟨chosen, hchosen, rfl⟩
      cases hchosen with
      | cons hfirst hrest =>
        obtain ⟨phrase, hphrase, rfl⟩ := List.mem_map.mp hfirst
        refine ⟨phrase, hphrase, _, hrest, ?_⟩
        rw [Phrase.append, Phrase.markEnd, List.flatten_cons, List.append_assoc]

namespace Build

open Draft (FlatAll Works)

theorem singleTerminal?_eq_some {terms : TermTable} {phrases : List Phrase} {base : Term}
    (h : singleTerminal? terms phrases = some base) :
    phrases.map Phrase.parts = [[base]] ∧ terms.isTerminal base = true := by
  rw [singleTerminal?.eq_def] at h
  split at h
  next term marks =>
    split at h
    next ht =>
      cases h
      exact ⟨rfl, ht⟩
    next => cases h
  next => cases h

variable {ctx : Declared} {again : Normalizer} {d : Draft}

theorem flatAll_mapM (hagain : Flattens ctx again) (skip : Term) {es : List Expr}
    (hoccurs : ∀ e ∈ es, ctx.decl.Occurs e) (hd : d.Ready ctx.decl) :
    Yields ctx d (es.mapM (again skip)) fun found d' => Works ctx.decl d d' ∧
      FlatAll ctx.decl d.terms.size d' skip es (found.map (List.map Phrase.parts)) := by
  induction es generalizing d with
  | nil => exact yields_pure ⟨refl_of (Works ctx.decl) d, rfl⟩
  | cons e es ih =>
    rw [List.mapM_cons]
    obtain ⟨he, hes⟩ := List.forall_mem_cons.mp hoccurs
    refine Yields.bind (hagain skip e d he hd) fun phrases d₁ ⟨hd₁, hflat⟩ => ?_
    refine Yields.bind (ih hes (hd.later hd₁)) fun found d₂ ⟨hd₂, hflats⟩ => yields_pure ?_
    refine ⟨hd₁.trans hd₂, _, _, hflat.mono (hd₂.toGrows.mono _) (Nat.le_refl _), ?_, rfl⟩
    exact hflats.mono (.refl _ _ _) hd₁.size_le

/-- Working through an expression comes to its phrases, if this holds of those inside. -/
theorem flattens_normalizeWith (hagain : Flattens ctx again) :
    Flattens ctx (normalizeWith again) := by
  intro skip e d he hd
  have hparts : ∀ e' ∈ e.parts, ctx.decl.Occurs e' := fun _ h => he.part h
  cases e with
  | repeated start body kind =>
    have hbody := hparts body (List.mem_singleton_self body)
    cases kind with
    | optional =>
      refine Yields.bind (hagain skip body d hbody hd) fun phrases d' ⟨hd', hflat⟩ => yields_pure ?_
      exact ⟨hd', _, hflat, rfl⟩
    | star =>
      refine (repeats_repeatTerm hagain hd he skip).bind fun t d' ⟨hd', i, hi, ht⟩ => yields_pure ?_
      exact ⟨hd', i, hi, ht ▸ rfl⟩
    | plus =>
      refine (repeats_repeatTerm hagain hd he skip).bind fun t d' ⟨hd', i, hi, ht⟩ => yields_pure ?_
      exact ⟨hd', i, hi, ht ▸ rfl⟩
  | choice start es =>
    refine (flatAll_mapM hagain skip hparts hd).bind fun found d' ⟨hd', hflat⟩ => yields_pure ?_
    exact ⟨hd', _, hflat, List.map_flatten⟩
  | sequence start es markers =>
    refine (flatAll_mapM hagain skip hparts hd).bind fun found d' ⟨hd', hflat⟩ => ?_
    refine yields_read_bind (yields_check_bind fun gaps _ => yields_pure ?_)
    refine ⟨hd', _, hflat, fun p => ?_⟩
    exact mem_sequencePhrases
  | literal start value =>
    refine (yields_literalToken value ctx d).bind fun t d' ⟨hd', ht⟩ => yields_pure ?_
    exact ⟨hd'.works, t, ht, rfl⟩
  | name start name args =>
    refine (refers_resolve hagain hd he).bind fun t d' ⟨hd', ht⟩ => yields_pure ?_
    exact ⟨hd', t, ht, rfl⟩
  | specialize start kind props token content =>
    have htoken := hparts token (List.mem_singleton_self token)
    refine yields_read_bind (yields_check_bind fun info _ => ?_)
    refine Yields.bind (hagain skip token d htoken hd) fun phrases d₁ ⟨hd₁, hflat⟩ => ?_
    refine (yields_specializeToken _ _ _ _ _ _).bind fun t d' ⟨hd', hmade⟩ => yields_pure ?_
    obtain ⟨base, values, hbase, hvalues, hne, hcases⟩ := hmade
    obtain ⟨hparts, hterminal⟩ := singleTerminal?_eq_some hbase
    rw [hparts] at hflat
    have hlt := hflat.inSize (hd.later hd₁) [base] (List.mem_singleton_self _) base
      (List.mem_singleton_self _)
    refine ⟨hd₁.trans hd'.works, base, values, t, hflat.mono (hd'.toGrows.mono _) (Nat.le_refl _),
      hvalues, ⟨hd'.isToken ⟨hlt, hterminal⟩, hne, hcases⟩, rfl⟩
  | inlineRule start id props body =>
    refine (flat_buildInPlace hagain hd he skip).bind fun t d' h => yields_pure ?_
    exact h
  | charClass start cls =>
    cases cls with
    | eof => exact yields_pure ⟨refl_of (Works ctx.decl) d, rfl, rfl⟩
    | _ => exact yields_raise _ _
  | set start ranges inverted => exact yields_raise _ _
  | any start => exact yields_raise _ _

theorem flattens_normalizeTo (fuel : Nat) : Flattens ctx (normalizeTo fuel) := by
  induction fuel with
  | zero => exact fun _ _ _ _ _ => yields_raise _ _
  | succ fuel ih => exact flattens_normalizeWith ih

theorem flattens_normalize : Flattens ctx normalize :=
  fun skip e d he hd => yields_read_bind (flattens_normalizeTo _ skip e d he hd)

end Build

end GrammarCompiler
