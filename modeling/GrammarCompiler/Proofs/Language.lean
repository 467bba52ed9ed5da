/-
GrammarCompiler.Proofs.Language — rules generate what the declarations mean.

The rules for a symbol say what the expression it is built from comes to. From the
equations for expressions it follows that what the declarations mean is derivable,
and by induction on derivations that nothing else is. Both need that symbols are
shared only by expressions that are the same.

  §1 Words      — the words of phrases, from those of their symbols.
  §2 Symbols    — the words that are derivable from a symbol.
  §3 References — what a reference stands for.
  §4 Words from rules and words from declarations.
  §5 Language   — what is derivable from the symbols of a blueprint.
-/
import GrammarCompiler.Proofs.Accounting
import GrammarCompiler.Proofs.Derivation

namespace GrammarCompiler

open Computability

/-! ## §1 Words -/

section Words

variable (I : Term → Language Term)

/-- The words of phrases, if those of symbols are given. -/
def phraseWords (phrases : List (List Term)) : Language Term :=
  {w | ∃ p ∈ phrases, w ∈ (p.map I).prod}

variable {I} {w : List Term}

theorem mem_phraseWords {phrases : List (List Term)} :
    w ∈ phraseWords I phrases ↔ ∃ p ∈ phrases, w ∈ (p.map I).prod :=
  Iff.rfl

theorem phraseWords_append (ps qs : List (List Term)) :
    phraseWords I (ps ++ qs) = phraseWords I ps + phraseWords I qs := by
  ext w
  simp only [mem_phraseWords, Language.mem_add, List.mem_append, or_and_right, exists_or]

theorem phraseWords_cons_nil (ps : List (List Term)) :
    phraseWords I ([] :: ps) = 1 + phraseWords I ps := by
  ext w
  rw [Language.mem_add, Language.mem_one]
  simp [mem_phraseWords]

theorem phraseWords_single (p : List Term) : phraseWords I [p] = (p.map I).prod := by
  ext w
  simp [mem_phraseWords]

theorem phraseWords_symbol (t : Term) : phraseWords I [[t]] = I t := by
  rw [phraseWords_single, List.map_singleton, List.prod_singleton]

theorem phraseWords_flatten (inner : List (List (List Term))) :
    phraseWords I inner.flatten = (inner.map (phraseWords I)).sum := by
  induction inner with
  | nil =>
    ext w
    simp [mem_phraseWords]
  | cons ps inner ih =>
    rw [List.flatten_cons, phraseWords_append, ih, List.map_cons, List.sum_cons]

/-- The words of a sequence come from one choice for each element. -/
theorem mem_prod_phraseWords {inner : List (List (List Term))} :
    w ∈ (inner.map (phraseWords I)).prod ↔
      ∃ chosen, List.Forall₂ (· ∈ ·) chosen inner ∧ w ∈ (chosen.flatten.map I).prod := by
  induction inner generalizing w with
  | nil => simp
  | cons ps inner ih =>
    rw [List.map_cons, List.prod_cons, Language.mem_mul]
    constructor
    · rintro ⟨u, ⟨p, hp, hu⟩, v, hv, rfl⟩
      obtain ⟨chosen, hchosen, hv⟩ := ih.mp hv
      refine ⟨p :: chosen, .cons hp hchosen, ?_⟩
      rw [List.flatten_cons, List.map_append, List.prod_append]
      exact Language.append_mem_mul hu hv
    · rintro ⟨_, hchosen, hw⟩
      cases hchosen with
      | @cons p _ chosen _ hp hchosen =>
        rw [List.flatten_cons, List.map_append, List.prod_append] at hw
        obtain ⟨u, hu, v, hv, rfl⟩ := Language.mem_mul.mp hw
        exact ⟨u, ⟨p, hp, hu⟩, v, ih.mpr ⟨chosen, hchosen, hv⟩, rfl⟩

theorem phraseWords_sequence {phrases : List (List Term)} {inner : List (List (List Term))}
    (h : ∀ p, p ∈ phrases ↔ ∃ chosen, List.Forall₂ (· ∈ ·) chosen inner ∧ p = chosen.flatten) :
    phraseWords I phrases = (inner.map (phraseWords I)).prod := by
  ext w
  rw [mem_phraseWords, mem_prod_phraseWords]
  constructor
  · rintro ⟨p, hp, hw⟩
    obtain ⟨chosen, hchosen, rfl⟩ := (h p).mp hp
    exact ⟨chosen, hchosen, hw⟩
  · rintro ⟨chosen, hchosen, hw⟩
    exact ⟨_, (h _).mpr ⟨chosen, hchosen, rfl⟩, hw⟩

end Words

/-! ## §2 Symbols -/

namespace Draft

variable {d : Draft} {low : Nat} {t : Term}

/-- The words that are derivable from a symbol. -/
def language (d : Draft) (t : Term) : Language Term :=
  {w | Derives d.terms.isTerminal d.rules [t] w}

/-- What is derivable from a sequence falls into what is derivable from its symbols. -/
theorem derives_iff_mem_prod {parts w : List Term} :
    Derives d.terms.isTerminal d.rules parts w ↔ w ∈ (parts.map d.language).prod := by
  induction parts generalizing w with
  | nil =>
    rw [List.map_nil, List.prod_nil, Language.mem_one]
    constructor
    · rintro ⟨⟩
      rfl
    · rintro rfl
      exact .nil
  | cons t parts ih =>
    rw [List.map_cons, List.prod_cons, Language.mem_mul]
    constructor
    · intro h
      rw [← List.singleton_append] at h
      obtain ⟨u, v, rfl, hu, hv⟩ := Derives.exists_of_append h
      exact ⟨u, hu, v, ih.mp hv, rfl⟩
    · rintro ⟨u, hu, v, hv, rfl⟩
      exact Derives.append hu (ih.mpr hv)

theorem language_of_isTerminal (ht : d.terms.isTerminal t = true) : d.language t = {[t]} := by
  ext w
  constructor
  · intro h
    cases h with
    | terminal _ h =>
      cases h
      rfl
    | rule _ hn _ _ =>
      rw [ht] at hn
      cases hn
  · rintro rfl
    exact .of_terminal ht

/-- A symbol with rules stands for what they say. -/
theorem HasRules.language_eq {parts : List (List Term)} (h : d.HasRules low t parts) :
    d.language t = phraseWords d.language parts := by
  ext w
  rw [← h.partsOf_eq, mem_phraseWords]
  constructor
  · intro hw
    obtain ⟨r, hr, rfl, hbody⟩ := Derives.exists_rule h.isTerminal hw
    exact ⟨r.parts, List.mem_map_of_mem (List.mem_filter.mpr ⟨hr, beq_self_eq_true _⟩),
      derives_iff_mem_prod.mp hbody⟩
  · rintro ⟨_, hp, hw⟩
    obtain ⟨r, hfilter, rfl⟩ := List.mem_map.mp hp
    obtain ⟨hr, hname⟩ := List.mem_filter.mp hfilter
    rw [← beq_iff_eq.mp hname]
    refine .of_rule hr ?_ (derives_iff_mem_prod.mpr hw)
    rw [beq_iff_eq.mp hname]
    exact h.isTerminal

/-- What is derivable is least among what the rules allow. -/
theorem language_le {I : Term → Language Term}
    (hterminal : ∀ t, d.terms.isTerminal t = true → [t] ∈ I t)
    (hrules : ∀ t, d.terms.isTerminal t = false → phraseWords I (d.partsOf t) ≤ I t) :
    d.language ≤ I := by
  have hall {parts w : List Term} (h : Derives d.terms.isTerminal d.rules parts w) :
      w ∈ (parts.map I).prod := by
    induction h with
    | nil => exact Language.nil_mem_one
    | @terminal t parts w ht _ ih =>
      exact Language.append_mem_mul (hterminal t ht) ih
    | @rule r parts u v hr hn _ _ ih ih' =>
      refine Language.append_mem_mul (hrules r.name hn ⟨r.parts, ?_, ih⟩) ih'
      exact List.mem_map_of_mem (List.mem_filter.mpr ⟨hr, beq_self_eq_true _⟩)
  intro t w hw
  have hw := hall hw
  rwa [List.map_singleton, List.prod_singleton] at hw

end Draft

/-! ## §3 References -/

theorem Expr.showAll_zero (es : List Expr) : showAll 0 es = es.map shown := by
  induction es with
  | nil => rfl
  | cons e es ih => rw [showAll, if_neg (Nat.not_lt_zero _), ih, List.map_cons]

/-- References with arguments that print alike print alike. -/
theorem Expr.same_name {args args' : List Expr} (h : allSame args args' = true) (start start' : Nat)
    (id : String) : (name start id args).same (name start' id args') = true := by
  have hshown : args.map shown = args'.map shown := by simpa [allSame] using h
  have hempty : args.isEmpty = args'.isEmpty := by
    rw [← List.isEmpty_map (f := shown), hshown, List.isEmpty_map]
  simp only [same, shown, showAll_zero, hshown, hempty, beq_self_eq_true]

namespace Blueprint

variable {b : Blueprint} {noSkip mainSkip : Term} {skips : List Term}

/-- A symbol has the rules for an expression. -/
inductive Names (b : Blueprint) (t : Term) : Expr → Prop where
  | stands {skip : Term} {e : Expr} (hoccurs : b.decl.Occurs e)
      (h : b.draft.Stands b.decl 1 skip t e) : b.Names t e
  | repeated {i : RepeatInstance} (hi : i ∈ b.draft.repeatInstances) (ht : i.term = t) :
      b.Names t (.repeated i.body.start i.body .plus)

theorem Account.isTerminal_of_mem (ha : b.Account noSkip mainSkip skips) {t : Term}
    (ht : t ∈ b.draft.tokenTerms) : b.draft.terms.isTerminal t = true :=
  (ha.done.ready.tokens t ht).isTerminal

/-- A name that is not that of a token rule is not looked up among tokens. -/
theorem Account.tokenFor?_eq_none (ha : b.Account noSkip mainSkip skips) {name : String}
    (hnew : ∀ r ∈ b.decl.tokenRules, r.id.name ≠ name) (args : List Expr) :
    b.draft.tokenFor? (.rule name args) = none := by
  rw [Draft.tokenFor?, Option.map_eq_none_iff, List.find?_eq_none]
  intro i hi hsame
  cases hkey : i.key with
  | rule name' args' =>
    obtain ⟨r, hr, hname⟩ := ha.done.ready.keys i hi name' args' hkey
    rw [hkey] at hsame
    simp only [TokenKey.same, Bool.and_eq_true, beq_iff_eq] at hsame
    exact hnew r hr (hname.trans hsame.1)
  | literal value =>
    rw [hkey] at hsame
    cases hsame

/-- A name that refers to a rule is not that of a token. -/
theorem Account.tokenOf?_eq_none (ha : b.Account noSkip mainSkip skips) {s : ScopedRule}
    (hs : s ∈ b.draft.scope) (args : List Expr) : b.tokenOf? s.rule.id.name args = none := by
  obtain ⟨hexternal, hnew⟩ := ha.scope_new s hs
  rw [tokenOf?, ha.tokenFor?_eq_none (fun r hr => hnew r hr), Option.none_or]
  cases hfind : Build.externalToken? b.draft s.rule.id.name with
  | none => rfl
  | some t =>
    obtain ⟨e, he, hlookup⟩ := List.exists_of_findSome?_eq_some hfind
    obtain ⟨before, after, hsplit, _⟩ := List.lookup_eq_some_iff.mp hlookup
    have htoken : (s.rule.id.name, t) ∈ e.tokens :=
      hsplit ▸ List.mem_append_right before (.head after)
    exact absurd (List.mem_flatMap.mpr ⟨e, he, List.mem_map_of_mem htoken⟩) hexternal

/-- A rule with arguments has the rules for its body. -/
theorem Account.exists_body (ha : b.Account noSkip mainSkip skips) {i : RuleInstance}
    (hi : i ∈ b.draft.ruleInstances) : ∃ s ∈ b.draft.scope, s.rule.id.name = i.name ∧
      ∃ e, b.decl.bodyOf? i.name i.args = some e ∧ b.decl.Occurs e ∧
        b.draft.Stands b.decl 1 s.skip i.term e := by
  obtain ⟨s, e, hs, he, hoccurs, hstands, _⟩ := ha.done.rule i hi
  refine ⟨s, List.mem_of_find?_eq_some hs, by simpa using List.find?_some hs, e, ?_, hoccurs,
    hstands⟩
  rw [GrammarDecl.bodyOf?, ha.done.ready.scope _ s hs, Option.bind_some, he]
  rfl

/-- The arguments of a rule are those of a reference that is found to stand for it. -/
theorem Account.args_bare (ha : b.Account noSkip mainSkip skips) (hsame : b.decl.ComparesWell)
    {start : Nat} {args : List Expr} {i : RuleInstance} (hi : i ∈ b.draft.ruleInstances)
    (hoccurs : b.decl.Occurs (.name start i.name args)) (hargs : Expr.allSame i.args args = true) :
    i.args.map Expr.bare = args.map Expr.bare := by
  obtain ⟨_, _, _, _, _, _, hnil | ⟨start', hoccurs'⟩⟩ := ha.done.rule i hi
  · rw [hnil] at hargs ⊢
    cases args with
    | nil => rfl
    | cons e es => cases hargs
  · have h := hsame _ _ (.reference hoccurs') (.reference hoccurs)
      (Expr.same_name hargs start' start i.name)
    simpa only [Expr.bare, Expr.bareAll_eq, Expr.name.injEq, true_and] using h

/-- A reference stands for a token, or for the symbol that has the rules for the body of the rule
that it refers to. -/
theorem Account.refers (ha : b.Account noSkip mainSkip skips) (hsame : b.decl.ComparesWell)
    {start : Nat} {name : String} {args : List Expr} {t : Term}
    (hoccurs : b.decl.Occurs (.name start name args)) (ht : b.draft.Refers b.decl name args t) :
    (b.tokenOf? name args = some t ∧ b.draft.terms.isTerminal t = true) ∨
      (b.tokenOf? name args = none ∧ ∃ skip e body, b.decl.Occurs e ∧
        b.draft.Stands b.decl 1 skip t e ∧ b.decl.bodyOf? name args = some body ∧
          body.bare = e.bare) := by
  cases ht with
  | token ht =>
    refine .inl ⟨?_, ha.isTerminal_of_mem (Draft.mem_tokenTerms_of_tokenFor? ht)⟩
    rw [tokenOf?, ht, Option.some_or]
  | external ht hnew =>
    refine .inl ⟨?_, ha.isTerminal_of_mem (Draft.mem_tokenTerms_of_externalToken? ht)⟩
    rw [tokenOf?, ha.tokenFor?_eq_none hnew, Option.none_or, ht]
  | @rule i hi hterm =>
    obtain ⟨rfl, hargs⟩ : i.name = name ∧ Expr.allSame i.args args = true := by
      simpa using List.find?_some hi
    have hmem := List.mem_of_find?_eq_some hi
    obtain ⟨s, hs, hname, e, he, heOccurs, hstands⟩ := ha.exists_body hmem
    have hbodies := b.decl.bodyOf?_bare i.name i.args
    rw [ha.args_bare hsame hmem hoccurs hargs, b.decl.bodyOf?_bare, he] at hbodies
    obtain ⟨body, hbody, hbare⟩ := Option.map_eq_some_iff.mp hbodies
    exact .inr ⟨hname ▸ ha.tokenOf?_eq_none hs args, s.skip, e, body, heOccurs, hterm ▸ hstands,
      hbody, hbare⟩

/-- Where a repeat is found, the expressions are the same. -/
theorem Account.repeats (ha : b.Account noSkip mainSkip skips) (hsame : b.decl.ComparesWell)
    {start : Nat} {body : Expr} {kind : RepeatKind} {skip : Term} {i : RepeatInstance}
    (hoccurs : b.decl.Occurs (.repeated start body kind))
    (hi : b.draft.repeatFor? skip body = some i) :
    i ∈ b.draft.repeatInstances ∧ i.body.bare = body.bare := by
  have hmem := List.mem_of_find?_eq_some hi
  obtain ⟨_, hbody⟩ : i.skip = skip ∧ i.body.same body = true := by
    simpa using List.find?_some hi
  obtain ⟨_, start', kind', hoccurs', _⟩ := ha.done.repeated i hmem
  exact ⟨hmem, hsame _ _ (.repeated hoccurs') (.repeated hoccurs) hbody⟩

/-! ## §4 Both directions -/

/-- What relates each member of one list to its partner in another. -/
theorem forall₂_imp_of_mem {α β : Type} {R S : α → β → Prop} {as : List α} {bs : List β}
    (h : List.Forall₂ R as bs) (himp : ∀ a ∈ as, ∀ b, R a b → S a b) : List.Forall₂ S as bs := by
  induction h with
  | nil => exact .nil
  | cons hab _ ih =>
    exact .cons (himp _ List.mem_cons_self _ hab)
      (ih fun a ha => himp a (List.mem_cons_of_mem _ ha))

/-- The words that are derivable wherever an expression stands that differs in places only. -/
def built (b : Blueprint) (e₀ : Expr) : Language Term :=
  {w | ∀ e skip phrases, e.bare = e₀ → b.decl.Occurs e →
    Draft.Flat b.decl 1 b.draft skip e phrases → w ∈ phraseWords b.draft.language phrases}

theorem built_le {e : Expr} {skip : Term} {phrases : List (List Term)}
    (hoccurs : b.decl.Occurs e) (hflat : Draft.Flat b.decl 1 b.draft skip e phrases) :
    b.built e.bare ≤ phraseWords b.draft.language phrases :=
  fun _ hw => hw e skip phrases rfl hoccurs hflat

theorem built_le_of_stands {e : Expr} {skip t : Term} (hoccurs : b.decl.Occurs e)
    (h : b.draft.Stands b.decl 1 skip t e) : b.built e.bare ≤ b.draft.language t := by
  obtain ⟨parts, hflat, hrules⟩ := h
  rw [hrules.language_eq]
  exact built_le hoccurs hflat

theorem Account.built_plus_le (ha : b.Account noSkip mainSkip skips) {i : RepeatInstance}
    (hi : i ∈ b.draft.repeatInstances) :
    b.built i.body.bare * (b.built i.body.bare)∗ ≤ b.draft.language i.term := by
  obtain ⟨parts, start, kind, hoccurs, hflat, hrules⟩ := ha.done.repeated i hi
  have hbody : b.built i.body.bare ≤ b.draft.language i.term := by
    refine (built_le (hoccurs.part (List.mem_singleton_self _)) hflat).trans ?_
    rw [hrules.language_eq, phraseWords_append]
    exact le_self_add
  have htwo : b.draft.language i.term * b.draft.language i.term ≤ b.draft.language i.term := by
    conv_rhs => rw [hrules.language_eq, phraseWords_append, phraseWords_single]
    simp
  exact mul_kstar_le hbody ((mul_le_mul_right hbody _).trans htwo)

/-- What an expression means, if its parts mean what is built, is derivable. -/
theorem Account.equation_built (ha : b.Account noSkip mainSkip skips)
    (hsame : b.decl.ComparesWell) {e : Expr} {skip : Term} {phrases : List (List Term)}
    (hoccurs : b.decl.Occurs e) (hflat : Draft.Flat b.decl 1 b.draft skip e phrases) :
    b.equation (b.built ∘ Expr.bare) e ≤ phraseWords b.draft.language phrases := by
  have hparts : ∀ e' ∈ e.parts, b.decl.Occurs e' := fun _ h => hoccurs.part h
  have hall {es : List Expr} {inner : List (List (List Term))} (hes : ∀ e' ∈ es, b.decl.Occurs e')
      (h : Draft.FlatAll b.decl 1 b.draft skip es inner) : List.Forall₂ (· ≤ ·)
        (es.map (b.built ∘ Expr.bare)) (inner.map (phraseWords b.draft.language)) := by
    rw [List.forall₂_map_left_iff, List.forall₂_map_right_iff]
    exact forall₂_imp_of_mem (Draft.flatAll_iff.mp h) fun e' he' _ => built_le (hes e' he')
  cases e with
  | repeated start body kind =>
    have hbody := hparts body (List.mem_singleton_self body)
    cases kind with
    | optional =>
      obtain ⟨inner, hinner, rfl⟩ := hflat
      rw [phraseWords_cons_nil]
      exact add_le_add_right (built_le hbody hinner) 1
    | star =>
      obtain ⟨i, hi, rfl⟩ := hflat
      obtain ⟨hmem, hbare⟩ := ha.repeats hsame hoccurs hi
      have hplus := ha.built_plus_le hmem
      rw [hbare] at hplus
      rw [phraseWords_cons_nil, phraseWords_symbol]
      change (b.built body.bare)∗ ≤ _
      rw [← one_add_mul_kstar]
      exact add_le_add_right hplus 1
    | plus =>
      obtain ⟨i, hi, rfl⟩ := hflat
      obtain ⟨hmem, hbare⟩ := ha.repeats hsame hoccurs hi
      have hplus := ha.built_plus_le hmem
      rw [hbare] at hplus
      rw [phraseWords_symbol]
      exact hplus
  | choice start es =>
    obtain ⟨inner, hinner, rfl⟩ := hflat
    rw [phraseWords_flatten]
    exact (hall hparts hinner).sum_le_sum
  | sequence start es markers =>
    obtain ⟨inner, hinner, hmem⟩ := hflat
    rw [phraseWords_sequence hmem]
    exact (hall hparts hinner).prod_le_prod'
  | literal start value =>
    obtain ⟨t, ht, rfl⟩ := hflat
    rintro w ⟨t', ht', rfl⟩
    obtain rfl := Option.some.inj (ht.symm.trans ht')
    rw [phraseWords_symbol, Draft.language_of_isTerminal
      (ha.isTerminal_of_mem (Draft.mem_tokenTerms_of_tokenFor? ht))]
    rfl
  | name start name args =>
    obtain ⟨t, ht, rfl⟩ := hflat
    rw [phraseWords_symbol]
    intro w hw
    rcases ha.refers hsame hoccurs ht with ⟨htoken, hterminal⟩ |
      ⟨hnone, skip', e, body, he, hstands, hbody, hbare⟩
    · rw [Draft.language_of_isTerminal hterminal]
      rcases b.mem_equation_name.mp hw with ⟨t', ht', rfl⟩ | ⟨hnone, _⟩
      · rw [htoken] at ht'
        obtain rfl := Option.some.inj ht'
        rfl
      · rw [htoken] at hnone
        cases hnone
    · rcases b.mem_equation_name.mp hw with ⟨t', ht', _⟩ | ⟨_, body', hbody', hw⟩
      · rw [hnone] at ht'
        cases ht'
      · rw [hbody] at hbody'
        obtain rfl := Option.some.inj hbody'
        rw [Function.comp_apply, hbare] at hw
        exact built_le_of_stands he hstands hw
  | specialize start kind props token content =>
    obtain ⟨base, values, t, htoken, hvalues, hmakes, rfl⟩ := hflat
    rintro w ⟨base', values', hbase, hvalues', v, hv, s, hs, rfl⟩
    obtain rfl := Option.some.inj (hvalues.symm.trans hvalues')
    have hbase := built_le (hparts token (List.mem_singleton_self token)) htoken hbase
    rw [phraseWords_symbol, Draft.language_of_isTerminal hmakes.isToken.isTerminal] at hbase
    obtain rfl := List.singleton_inj.mp hbase
    obtain ⟨s', hs', rfl⟩ := hmakes.case v hv
    obtain rfl := Option.some.inj (hs.symm.trans hs')
    rw [phraseWords_symbol,
      Draft.language_of_isTerminal (ha.isTerminal_of_mem hmakes.mem_tokenTerms)]
    rfl
  | inlineRule start id props body =>
    obtain ⟨t, inner, hinner, hrules, rfl⟩ := hflat
    rw [phraseWords_symbol, hrules.language_eq]
    exact built_le (hparts body (List.mem_singleton_self body)) hinner
  | charClass start cls =>
    obtain ⟨_, rfl⟩ := hflat
    rw [phraseWords_symbol, Draft.language_of_isTerminal ha.eof]
    rintro w ⟨_, rfl⟩
    rfl
  | set start ranges inverted => exact hflat.elim
  | any start => exact hflat.elim

/-- What the declarations mean is derivable. -/
theorem Account.means_le_built (ha : b.Account noSkip mainSkip skips)
    (hsame : b.decl.ComparesWell) : b.means ≤ b.built ∘ Expr.bare := by
  refine b.means_le fun e w hw e' skip phrases he' hoccurs hflat => ?_
  rw [← equation_bare, ← he', equation_bare] at hw
  exact ha.equation_built hsame hoccurs hflat hw

theorem Account.means_le_language (ha : b.Account noSkip mainSkip skips)
    (hsame : b.decl.ComparesWell) {t : Term} {e : Expr} (h : b.Names t e) :
    b.means e ≤ b.draft.language t := by
  have hle := ha.means_le_built hsame
  cases h with
  | stands hoccurs ht => exact (hle e).trans (built_le_of_stands hoccurs ht)
  | @repeated i hi ht =>
    subst ht
    rw [← b.equation_means]
    exact (b.equation_mono hle _).trans (ha.built_plus_le hi)

/-- A terminal stands for itself only, and a symbol with rules at most for what every expression
means that it has the rules for. -/
def allowed (b : Blueprint) (t : Term) : Language Term :=
  {w | (b.draft.terms.isTerminal t = true → w = [t]) ∧ ∀ e, b.Names t e → w ∈ b.means e}

theorem allowed_le {t : Term} {e : Expr} (h : b.Names t e) : b.allowed t ≤ b.means e :=
  fun _ hw => hw.2 e h

theorem Account.allowed_of_isTerminal (ha : b.Account noSkip mainSkip skips) {t : Term}
    (ht : b.draft.terms.isTerminal t = true) : b.allowed t = {[t]} := by
  ext w
  refine ⟨fun hw => hw.1 ht, ?_⟩
  rintro rfl
  refine ⟨fun _ => rfl, fun e h => absurd ht ?_⟩
  cases h with
  | stands _ ht =>
    obtain ⟨_, _, hrules⟩ := ht
    exact Bool.eq_false_iff.mp hrules.isTerminal
  | repeated hi hterm =>
    obtain ⟨_, _, _, _, _, hrules⟩ := ha.done.repeated _ hi
    exact hterm ▸ Bool.eq_false_iff.mp hrules.isTerminal

theorem means_repeated (start : Nat) (e : Expr) (kind : RepeatKind) :
    b.means (.repeated start e kind) = repetition (b.means e) kind :=
  (congrFun b.equation_means (.repeated start e kind)).symm

/-- The symbol of a repeat stands at most for what repeats of the expression mean. -/
theorem Account.allowed_le_plus (ha : b.Account noSkip mainSkip skips)
    (hsame : b.decl.ComparesWell) {start : Nat} {body : Expr} {kind : RepeatKind} {skip : Term}
    {i : RepeatInstance} (hoccurs : b.decl.Occurs (.repeated start body kind))
    (hi : b.draft.repeatFor? skip body = some i) :
    b.allowed i.term ≤ b.means body * (b.means body)∗ := by
  obtain ⟨hmem, hbare⟩ := ha.repeats hsame hoccurs hi
  rw [← b.means_bare hbare]
  exact (allowed_le (.repeated hmem rfl)).trans_eq (means_repeated _ _ _)

end Blueprint

theorem Expr.sizeOf_lt_of_mem_parts {e e' : Expr} (h : e' ∈ e.parts) : sizeOf e' < sizeOf e := by
  cases e <;> simp only [parts, List.mem_singleton, List.not_mem_nil] at h
  case choice | sequence =>
    have := List.sizeOf_lt_of_mem h
    simp only [choice.sizeOf_spec, sequence.sizeOf_spec]
    omega
  all_goals
    subst h
    simp only [repeated.sizeOf_spec, inlineRule.sizeOf_spec, specialize.sizeOf_spec]
    omega

/-- What holds of an expression if it holds of its parts holds of all expressions. -/
theorem Expr.parts_induction {motive : Expr → Prop}
    (h : ∀ e, (∀ e' ∈ e.parts, motive e') → motive e) (e : Expr) : motive e :=
  h e fun e' he' =>
    have := sizeOf_lt_of_mem_parts he'
    parts_induction h e'
termination_by sizeOf e

namespace Blueprint

variable {b : Blueprint} {noSkip mainSkip : Term} {skips : List Term}

/-- The phrases of an expression stand at most for what it means. -/
theorem Account.phraseWords_le_means (ha : b.Account noSkip mainSkip skips)
    (hsame : b.decl.ComparesWell) {skip : Term} (e : Expr) :
    ∀ {phrases : List (List Term)}, b.decl.Occurs e →
      Draft.Flat b.decl 1 b.draft skip e phrases → phraseWords b.allowed phrases ≤ b.means e := by
  induction e using Expr.parts_induction with
  | h e ih =>
    intro phrases hoccurs hflat
    have hparts : ∀ e' ∈ e.parts, b.decl.Occurs e' := fun _ h => hoccurs.part h
    have hall {es : List Expr} {inner : List (List (List Term))} (hes : ∀ e' ∈ es, e' ∈ e.parts)
        (h : Draft.FlatAll b.decl 1 b.draft skip es inner) : List.Forall₂ (· ≤ ·)
          (inner.map (phraseWords b.allowed)) (es.map b.means) := by
      rw [List.forall₂_map_left_iff, List.forall₂_map_right_iff]
      refine .flip (forall₂_imp_of_mem (Draft.flatAll_iff.mp h) fun e' he' phrases hflat => ?_)
      exact ih e' (hes e' he') (hparts e' (hes e' he')) hflat
    rw [← b.equation_means]
    cases e with
    | repeated start body kind =>
      have hbody := List.mem_singleton_self body
      cases kind with
      | optional =>
        obtain ⟨inner, hinner, rfl⟩ := hflat
        rw [phraseWords_cons_nil]
        exact add_le_add_right (ih body hbody (hparts body hbody) hinner) 1
      | star =>
        obtain ⟨i, hi, rfl⟩ := hflat
        rw [phraseWords_cons_nil, phraseWords_symbol]
        refine add_le one_le_kstar ?_
        exact (ha.allowed_le_plus hsame hoccurs hi).trans mul_kstar_le_kstar
      | plus =>
        obtain ⟨i, hi, rfl⟩ := hflat
        rw [phraseWords_symbol]
        exact ha.allowed_le_plus hsame hoccurs hi
    | choice start es =>
      obtain ⟨inner, hinner, rfl⟩ := hflat
      rw [phraseWords_flatten]
      exact (hall (fun _ h => h) hinner).sum_le_sum
    | sequence start es markers =>
      obtain ⟨inner, hinner, hmem⟩ := hflat
      rw [phraseWords_sequence hmem]
      exact (hall (fun _ h => h) hinner).prod_le_prod'
    | literal start value =>
      obtain ⟨t, ht, rfl⟩ := hflat
      rw [phraseWords_symbol, ha.allowed_of_isTerminal
        (ha.isTerminal_of_mem (Draft.mem_tokenTerms_of_tokenFor? ht))]
      rintro w rfl
      exact ⟨t, ht, rfl⟩
    | name start name args =>
      obtain ⟨t, ht, rfl⟩ := hflat
      rw [phraseWords_symbol]
      rcases ha.refers hsame hoccurs ht with ⟨htoken, hterminal⟩ |
        ⟨hnone, skip', e, body, he, hstands, hbody, hbare⟩
      · rw [ha.allowed_of_isTerminal hterminal]
        rintro w rfl
        exact b.mem_equation_name.mpr (.inl ⟨t, htoken, rfl⟩)
      · intro w hw
        refine b.mem_equation_name.mpr (.inr ⟨hnone, body, hbody, ?_⟩)
        rw [b.means_bare hbare]
        exact allowed_le (.stands he hstands) hw
    | specialize start kind props token content =>
      obtain ⟨base, values, t, htoken, hvalues, hmakes, rfl⟩ := hflat
      rw [phraseWords_symbol, ha.allowed_of_isTerminal (ha.isTerminal_of_mem hmakes.mem_tokenTerms)]
      rintro w rfl
      have hmem := List.mem_singleton_self token
      have hbase : [base] ∈ b.means token := by
        refine ih token hmem (hparts token hmem) htoken ?_
        rw [phraseWords_symbol, ha.allowed_of_isTerminal hmakes.isToken.isTerminal]
        rfl
      obtain ⟨v, hv⟩ := List.exists_mem_of_ne_nil _ hmakes.values_ne
      obtain ⟨s, hs, rfl⟩ := hmakes.case v hv
      exact ⟨base, values, hbase, hvalues, v, hv, s, hs, rfl⟩
    | inlineRule start id props body =>
      obtain ⟨t, inner, hinner, hrules, rfl⟩ := hflat
      rw [phraseWords_symbol]
      have hmem := List.mem_singleton_self body
      exact allowed_le (.stands (hparts body hmem) ⟨inner, hinner, hrules⟩)
    | charClass start cls =>
      obtain ⟨rfl, rfl⟩ := hflat
      rw [phraseWords_symbol, ha.allowed_of_isTerminal ha.eof]
      rintro w rfl
      exact ⟨rfl, rfl⟩
    | set start ranges inverted => exact hflat.elim
    | any start => exact hflat.elim

/-- Nothing is derivable but what the declarations mean. -/
theorem Account.language_le_allowed (ha : b.Account noSkip mainSkip skips)
    (hsame : b.decl.ComparesWell) : b.draft.language ≤ b.allowed := by
  refine Draft.language_le (fun t ht => ?_) fun t ht => ?_
  · rw [ha.allowed_of_isTerminal ht]
    rfl
  · intro w hw
    refine ⟨fun hterminal => absurd hterminal (Bool.eq_false_iff.mp ht), fun e hnames => ?_⟩
    cases hnames with
    | stands hoccurs hstands =>
      obtain ⟨parts, hflat, hrules⟩ := hstands
      rw [hrules.partsOf_eq] at hw
      exact ha.phraseWords_le_means hsame e hoccurs hflat hw
    | @repeated i hi hterm =>
      subst hterm
      obtain ⟨parts, start, kind, hoccurs, hflat, hrules⟩ := ha.done.repeated i hi
      have hbody := ha.phraseWords_le_means hsame i.body
        (hoccurs.part (List.mem_singleton_self _)) hflat
      rw [means_repeated]
      rw [hrules.partsOf_eq, phraseWords_append, phraseWords_single] at hw
      refine add_le (hbody.trans ?_) ?_ hw
      · exact le_mul_of_one_le_right' one_le_kstar
      · -- Two repeats in sequence are one.
        have hself : b.allowed i.term ≤ b.means i.body * (b.means i.body)∗ :=
          (allowed_le (.repeated hi rfl)).trans_eq (means_repeated _ _ _)
        simp only [List.map_cons, List.map_nil, List.prod_cons, List.prod_nil, mul_one]
        calc b.allowed i.term * b.allowed i.term
            ≤ b.means i.body * (b.means i.body)∗ * (b.means i.body)∗ :=
              mul_le_mul' hself (hself.trans mul_kstar_le_kstar)
          _ = b.means i.body * (b.means i.body)∗ := by rw [mul_assoc, kstar_mul_kstar]

theorem Account.language_eq (ha : b.Account noSkip mainSkip skips) (hsame : b.decl.ComparesWell)
    {t : Term} {e : Expr} (h : b.Names t e) : b.draft.language t = b.means e :=
  le_antisymm ((ha.language_le_allowed hsame t).trans (allowed_le h))
    (ha.means_le_language hsame h)

end Blueprint

/-! ## §5 Language -/

theorem Expr.isEmpty_bare (e : Expr) : e.bare.isEmpty = e.isEmpty := by
  cases e with
  | sequence start es markers =>
    have hmarkers : (markers.map fun gap => gap.map Marker.bare).all (·.isEmpty) =
        markers.all (·.isEmpty) := by
      rw [List.all_map]
      exact congrArg markers.all (funext fun gap => List.isEmpty_map)
    rw [bare, isEmpty, bareAll_eq, List.isEmpty_map, hmarkers, isEmpty]
  | _ => rfl

namespace Blueprint

variable {b : Blueprint} {noSkip mainSkip : Term} {skips : List Term}

/-- The symbols of declarations: one for each top rule, one for the main skip expression, one for
what is skipped in each scope, and one without rules for skipping nothing. -/
structure HasSymbols (b : Blueprint) (noSkip mainSkip : Term) (skips : List Term) : Prop where
  tops_length : b.draft.terms.tops.length = b.decl.allTops.length
  scope_eq : b.draft.scope = b.decl.scopedRules mainSkip skips
  length_eq : skips.length = b.decl.scopedSkips.length
  mem_skipTerms : ∀ t, t ∈ b.draft.skipTerms ↔ t ∈ noSkip :: mainSkip :: skips
  name_ne : ∀ r ∈ b.draft.rules, r.name ≠ noSkip
  isEmpty : ∀ scope, (scope, noSkip) ∈ b.decl.scopedSkips.zip skips → scope.expr.isEmpty = true

/-- `BuiltFrom b noSkip mainSkip skips t e`: the symbol `t` is built from `e`, which is skipped
somewhere, the body of a top rule, the body of a rule with arguments, or one or more of an
expression. -/
inductive BuiltFrom (b : Blueprint) (noSkip mainSkip : Term) (skips : List Term) :
    Term → Expr → Prop where
  | mainSkip {e : Expr} (he : b.decl.mainSkip = some e) :
      BuiltFrom b noSkip mainSkip skips mainSkip e
  | scopeSkip {scope : ScopedSkip} {t : Term} (ht : (scope, t) ∈ b.decl.scopedSkips.zip skips)
      (hne : t ≠ noSkip) : BuiltFrom b noSkip mainSkip skips t scope.expr
  | top {rule : RuleDecl} {t : Term} (ht : (t, rule) ∈ b.draft.terms.tops.zip b.decl.allTops) :
      BuiltFrom b noSkip mainSkip skips t rule.body
  | rule {i : RuleInstance} {e : Expr} (hi : i ∈ b.draft.ruleInstances)
      (he : b.decl.bodyOf? i.name i.args = some e) : BuiltFrom b noSkip mainSkip skips i.term e
  | repeated {i : RepeatInstance} (hi : i ∈ b.draft.repeatInstances) :
      BuiltFrom b noSkip mainSkip skips i.term (.repeated i.body.start i.body .plus)

/-- Expressions that are skipped and have one symbol are the same. -/
theorem Account.bare_eq (ha : b.Account noSkip mainSkip skips) (hsame : b.decl.ComparesWell)
    {p q : Expr × Term} (hp : p ∈ b.decl.skipPairs mainSkip skips)
    (hq : q ∈ b.decl.skipPairs mainSkip skips) (heq : p.2 = q.2) : p.1.bare = q.1.bare := by
  have hcompared {p : Expr × Term} (hp : p ∈ b.decl.skipPairs mainSkip skips) :
      b.decl.Compared p.1 := .skipped (GrammarDecl.mem_skipExprs_of_pair hp)
  refine hsame _ _ (hcompared hp) (hcompared hq) (beq_iff_eq.mpr ?_)
  rcases List.mem_append.mp hp with hp | hp <;> rcases List.mem_append.mp hq with hq | hq
  · obtain ⟨e, he, rfl⟩ := List.mem_map.mp hp
    obtain ⟨e', he', rfl⟩ := List.mem_map.mp hq
    rw [Option.mem_toList] at he he'
    rw [Option.some.inj (he.symm.trans he')]
  · obtain ⟨e, he, rfl⟩ := List.mem_map.mp hp
    exact ha.shares.main q hq heq.symm e (Option.mem_toList.mp he)
  · obtain ⟨e, he, rfl⟩ := List.mem_map.mp hq
    exact (ha.shares.main p hp heq e (Option.mem_toList.mp he)).symm
  · exact ha.shares.same p hp q hq heq

theorem Account.tops_length (ha : b.Account noSkip mainSkip skips) :
    b.draft.terms.tops.length = b.decl.allTops.length := by
  rw [← b.decl.map_rule_scopedTops mainSkip ha.length_eq, List.length_map]
  exact ha.tops.length_eq

theorem Account.hasSymbols (ha : b.Account noSkip mainSkip skips) (hsame : b.decl.ComparesWell) :
    b.HasSymbols noSkip mainSkip skips := by
  refine ⟨ha.tops_length, ha.scope_eq, ha.length_eq, ha.mem_skipTerms, ha.name_ne,
    fun scope hscope => ?_⟩
  have hpair {s : ScopedSkip} {t : Term} (h : (s, t) ∈ b.decl.scopedSkips.zip skips) :
      (s.expr, t) ∈ (b.decl.scopedSkips.map ScopedSkip.expr).zip skips := by
    rw [List.zip_map_left]
    exact List.mem_map_of_mem h
  obtain ⟨q, hq, hempty, hshown⟩ := ha.shares.empty _ (hpair hscope) rfl
  have hcompared {p : Expr × Term} (hp : p ∈ (b.decl.scopedSkips.map ScopedSkip.expr).zip skips) :
      b.decl.Compared p.1 :=
    .skipped (List.mem_append_right _ (List.of_mem_zip hp).1)
  have hbare := hsame _ _ (hcompared hq) (hcompared (hpair hscope)) (beq_iff_eq.mpr hshown)
  rw [← Expr.isEmpty_bare, ← hbare, Expr.isEmpty_bare]
  exact hempty

/-- A symbol has the rules for what it is built from. -/
theorem Account.exists_names (ha : b.Account noSkip mainSkip skips) (hsame : b.decl.ComparesWell)
    {t : Term} {e : Expr} (h : b.BuiltFrom noSkip mainSkip skips t e) :
    ∃ e', b.Names t e' ∧ e'.bare = e.bare := by
  have hskip {p : Expr × Term} (hp : p ∈ b.decl.skipPairs mainSkip skips) (hne : p.2 ≠ noSkip) :
      ∃ e', b.Names p.2 e' ∧ e'.bare = p.1.bare := by
    obtain ⟨q, hq, heq, ht⟩ := (ha.skip p hp).resolve_left hne
    exact ⟨q.1, .stands (GrammarDecl.occurs_of_mem_skipExprs
      (GrammarDecl.mem_skipExprs_of_pair hq)) ht, ha.bare_eq hsame hq hp heq⟩
  cases h with
  | mainSkip he =>
    exact hskip (p := (e, mainSkip))
      (List.mem_append_left _ (List.mem_map_of_mem (Option.mem_toList.mpr he)))
      (ha.mainSkip_ne (he ▸ rfl))
  | @scopeSkip scope t ht hne =>
    refine hskip (p := (scope.expr, t)) (List.mem_append_right _ ?_) hne
    rw [List.zip_map_left]
    exact List.mem_map_of_mem ht
  | @top rule t ht =>
    rw [← b.decl.map_rule_scopedTops mainSkip ha.length_eq, List.zip_map_right] at ht
    obtain ⟨⟨t', entry⟩, hentry, heq⟩ := List.mem_map.mp ht
    obtain ⟨rfl, rfl⟩ := Prod.mk.inj heq
    have hstands := List.forall₂_zip ha.tops hentry
    refine ⟨_, .stands (.root ?_) hstands, rfl⟩
    refine List.mem_append_left _ (List.mem_append_left _ (List.mem_append_right _ ?_))
    refine List.mem_map_of_mem (b.decl.map_rule_scopedTops mainSkip ha.length_eq ▸ ?_)
    exact List.mem_map_of_mem (List.of_mem_zip hentry).2
  | rule hi he =>
    obtain ⟨s, _, _, body, hbody, hoccurs, hstands⟩ := ha.exists_body hi
    obtain rfl := Option.some.inj (hbody.symm.trans he)
    exact ⟨body, .stands hoccurs hstands, rfl⟩
  | repeated hi => exact ⟨_, .repeated hi rfl, rfl⟩

theorem Account.derives_iff (ha : b.Account noSkip mainSkip skips) (hsame : b.decl.ComparesWell)
    {t : Term} {e : Expr} (h : b.BuiltFrom noSkip mainSkip skips t e) (w : List Term) :
    Derives b.draft.terms.isTerminal b.draft.rules [t] w ↔ w ∈ b.means e := by
  obtain ⟨e', hnames, hbare⟩ := ha.exists_names hsame h
  rw [← b.means_bare hbare, ← ha.language_eq hsame hnames]
  rfl

/-- Every symbol with rules is built from an expression of the declarations. -/
theorem Account.comes (ha : b.Account noSkip mainSkip skips) {r : Rule}
    (hr : r ∈ b.draft.rules) : (∃ e, b.BuiltFrom noSkip mainSkip skips r.name e) ∨
      ∃ start id props body, b.decl.Occurs (.inlineRule start id props body) ∧
        b.Names r.name body := by
  rcases ha.done.comes r hr with hknown | htop | hcomes
  · obtain ⟨hmem, hne⟩ := List.mem_filter.mp hknown
    obtain ⟨p, hp, heq⟩ := List.mem_map.mp hmem
    rw [← heq] at hne ⊢
    refine .inl ?_
    rcases List.mem_append.mp hp with hp | hp
    · obtain ⟨e, he, rfl⟩ := List.mem_map.mp hp
      exact ⟨e, .mainSkip (Option.mem_toList.mp he)⟩
    · rw [List.zip_map_left] at hp
      obtain ⟨⟨scope, t⟩, ht, rfl⟩ := List.mem_map.mp hp
      exact ⟨scope.expr, .scopeSkip ht (of_decide_eq_true hne)⟩
  · rw [← List.map_fst_zip (Nat.le_of_eq ha.tops_length)] at htop
    obtain ⟨⟨t, rule⟩, ht, heq⟩ := List.mem_map.mp htop
    exact .inl ⟨rule.body, heq ▸ .top ht⟩
  · cases hcomes with
    | @rule i hi ht =>
      obtain ⟨_, _, _, body, hbody, _⟩ := ha.exists_body hi
      exact .inl ⟨body, ht ▸ .rule hi hbody⟩
    | @repeated i hi ht =>
      exact .inl ⟨.repeated i.body.start i.body .plus, ht ▸ .repeated hi⟩
    | @inPlace start id props body skip hoccurs ht =>
      exact .inr ⟨start, id, props, body, hoccurs,
        .stands (hoccurs.part (List.mem_singleton_self body)) ht⟩

/-- If expressions count as the same only when they are, then what is derivable from a symbol is
what the declaration means that it is built from: for symbols for what is skipped, for top rules,
for rules with arguments, for repeats and for rules in place. These are all symbols with rules. -/
theorem derives_iff_means {source : Text.Source} {b : Blueprint} {journal : Journal}
    (h : ofSource source = (.ok b, journal)) (hsame : b.decl.ComparesWell) :
    ∃ noSkip mainSkip skips, b.HasSymbols noSkip mainSkip skips ∧
      (∀ t e, b.BuiltFrom noSkip mainSkip skips t e → ∀ w,
        Derives b.draft.terms.isTerminal b.draft.rules [t] w ↔ w ∈ b.means e) ∧
      ∀ r ∈ b.draft.rules, (∃ e, b.BuiltFrom noSkip mainSkip skips r.name e) ∨
        ∃ start id props body, b.decl.Occurs (.inlineRule start id props body) ∧ ∀ w,
          Derives b.draft.terms.isTerminal b.draft.rules [r.name] w ↔ w ∈ b.means body := by
  obtain ⟨noSkip, mainSkip, skips, ha⟩ := exists_account h
  refine ⟨noSkip, mainSkip, skips, ha.hasSymbols hsame, fun t e ht => ha.derives_iff hsame ht,
    fun r hr => (ha.comes hr).imp_right ?_⟩
  rintro ⟨start, id, props, body, hoccurs, hnames⟩
  refine ⟨start, id, props, body, hoccurs, fun w => ?_⟩
  rw [← ha.language_eq hsame hnames]
  rfl

/-- Whether a grammar text leads to a blueprint that passes a check. -/
def passes (source : Text.Source) (check : Blueprint → Bool) : Bool :=
  (ofSource source).1.toOption.any check

theorem exists_of_passes {source : Text.Source} {check : Blueprint → Bool}
    (h : passes source check = true) :
    ∃ b journal, ofSource source = (.ok b, journal) ∧ check b = true := by
  cases hsource : ofSource source with
  | mk result journal =>
    rw [passes, hsource] at h
    cases result with
    | ok b => exact ⟨b, journal, rfl, h⟩
    | error _ => cases h

/-- Lists in parentheses with members of two kinds, which may be lists again. -/
def nestedLists : Text.Source :=
  ⟨"", "@skip \x7b \" \" \x7d @top T \x7b list<\"x\">+ \x7d
    list<e> \x7b \"(\" (e | list<e>)* N \x7b \"y\"? \x7d \")\" \x7d"⟩

/-- The rules for nested lists generate what their declaration means. -/
theorem derives_iff_means_nestedLists :
    ∃ b journal, ofSource nestedLists = (.ok b, journal) ∧ b.decl.ComparesWell ∧
      ∃ entry ∈ b.draft.terms.tops.zip b.decl.allTops, ∀ w,
        Derives b.draft.terms.isTerminal b.draft.rules [entry.1] w ↔
          w ∈ b.means entry.2.body := by
  have hcheck : passes nestedLists (fun b => b.decl.checksComparisons 8 &&
      0 < (b.draft.terms.tops.zip b.decl.allTops).length) = true := by
    decide +kernel
  obtain ⟨b, journal, h, hcheck⟩ := exists_of_passes hcheck
  rw [Bool.and_eq_true, decide_eq_true_iff] at hcheck
  have hsame := GrammarDecl.comparesWell_of_checks hcheck.1
  obtain ⟨noSkip, mainSkip, skips, _, hbuilt, _⟩ := derives_iff_means h hsame
  obtain ⟨entry, hentry⟩ := List.exists_mem_of_length_pos hcheck.2
  exact ⟨b, journal, h, hsame, entry, hentry, hbuilt _ _ (.top hentry)⟩

/-- Two rules in place are repeated, and elsewhere one with a property that reads like the rest of
those two. -/
def quotedRules : Text.Source :=
  ⟨"", "@top T \x7b (X[closedBy=q] \x7b \"u\" \x7d Y[closedBy=q] \x7b \"v\" \x7d)+ \"z\" A \x7d
    A \x7b (X[closedBy='q] \x7b \"u\" \x7d Y[closedBy=q'] \x7b \"v\" \x7d)+ \x7d"⟩

/-- The literal in a rule in place that is repeated. -/
def repeatedLiteral? : Expr → Option String
  | .repeated _ (.inlineRule _ _ _ (.literal _ value)) .plus => some value
  | _ => none

theorem mem_means_of_repeatedLiteral? {e : Expr} {value : String} {t : Term}
    (he : repeatedLiteral? e = some value)
    (ht : b.draft.tokenFor? (.literal value) = some t) : [t] ∈ b.means e := by
  rw [repeatedLiteral?.eq_def] at he
  split at he
  next start start' id props start'' value' =>
    obtain rfl := Option.some.inj he
    have hmem : [t] ∈ b.means (.literal start'' value') := by
      rw [← b.equation_means]
      exact ⟨t, ht, rfl⟩
    have hinPlace : b.means (.inlineRule start' id props (.literal start'' value')) =
        b.means (.literal start'' value') := (congrFun b.equation_means _).symm
    rw [means_repeated, hinPlace]
    have hle : b.means (.literal start'' value') ≤
        repetition (b.means (.literal start'' value')) .plus :=
      le_mul_of_one_le_right' one_le_kstar
    exact hle hmem
  next => cases he

/-- How many more times the first literal stands for itself than the second. -/
def surplus (t : Term) : Int :=
  if t.index = 5 ∨ t.index = 6 then 1 else if t.index = 7 ∨ t.index = 8 then -1 else 0

/-- What is repeated in the second rule prints like what is repeated in the first, and so both share
one symbol: a word that the declaration of the second rule means is not derivable. -/
theorem derives_less_quotedRules :
    ∃ b journal, ofSource quotedRules = (.ok b, journal) ∧
      ∃ i ∈ b.draft.ruleInstances, ∃ e, b.decl.bodyOf? i.name i.args = some e ∧ ∃ w ∈ b.means e,
        ¬ Derives b.draft.terms.isTerminal b.draft.rules [i.term] w := by
  have hcheck : passes quotedRules (fun b =>
      b.draft.ruleInstances.any (fun i => i.term == ⟨10⟩ &&
        (b.decl.bodyOf? i.name i.args).any fun e => repeatedLiteral? e == some "v") &&
      (b.draft.tokenFor? (.literal "v") == some ⟨8⟩ &&
        b.draft.rules.all fun r => (r.parts.map surplus).sum == surplus r.name)) = true := by
    decide +kernel
  obtain ⟨b, journal, h, hcheck⟩ := exists_of_passes hcheck
  simp only [Bool.and_eq_true, List.any_eq_true, List.all_eq_true, Option.any_eq_true,
    beq_iff_eq] at hcheck
  obtain ⟨⟨i, hi, hterm, e, he, hliteral⟩, htoken, hrules⟩ := hcheck
  refine ⟨b, journal, h, i, hi, e, he, [⟨8⟩], mem_means_of_repeatedLiteral? hliteral htoken, ?_⟩
  intro hderives
  have hsum := hderives.sum_eq hrules
  rw [hterm] at hsum
  revert hsum
  decide

end Blueprint

end GrammarCompiler
