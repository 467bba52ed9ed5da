/-
GrammarCompiler.Proofs.Simplifying — the grammars that come of grammar texts.

The rules of a draft are inlined and merged, and those that need no states are
taken out. Whatever a rule refers to afterwards, a rule referred to before, or it
took the place of an anonymous symbol. So rules refer to no symbol at the top.

  §1 Inlining — parts come from rules.
  §2 Merging  — parts come from rules, or are anonymous symbols.
  §3 Grammars — what automata are built for.
-/
import GrammarCompiler.Compile
import GrammarCompiler.Proofs.Inlining

namespace GrammarCompiler

variable {terms : TermTable} {rules : List Rule} {t : Term}

/-! ## §1 Inlining -/

/-- Splicing only puts parts of rules in. -/
theorem Replacements.Splices.exists_part {chosen : Replacements} {parts out : List Term}
    (hlists : chosen.ListsFrom rules) (h : Splices chosen parts out) (ht : t ∈ out) :
    t ∈ parts ∨ ∃ r ∈ rules, t ∈ r.parts := by
  induction h with
  | nil => exact .inl ht
  | keep _ _ ih =>
    rcases List.mem_cons.mp ht with rfl | ht
    · exact .inl (.head _)
    · exact (ih ht).imp_left (.tail _)
  | @replace _ _ r _ _ hl hr _ ih =>
    rcases List.mem_append.mp ht with ht | ht
    · exact .inr ⟨r, ((hlists.mem_lookup hl).mp hr).1, ht⟩
    · exact (ih ht).imp_left (.tail _)

/-- The parts of rules after inlining are parts of rules before. -/
theorem Inlining.Runs.exists_part {preserve : List Term} {first : Bool} {result : List Rule}
    {passes : List Pass} (h : Runs terms preserve first rules passes result) {r : Rule}
    (hr : r ∈ result) (ht : t ∈ r.parts) : ∃ r' ∈ rules, t ∈ r'.parts := by
  induction h generalizing r with
  | done => exact ⟨r, hr, ht⟩
  | pass count _ _ ih =>
    obtain ⟨r', hr', ht'⟩ := ih hr ht
    obtain ⟨s, hs, _, _, hsplices⟩ := Replacements.mem_applyAll hr'
    rcases hsplices.exists_part (Replacements.choose_listsFrom _) ht' with h | h
    · exact ⟨s, hs, h⟩
    · exact h

/-! ## §2 Merging -/

namespace Merging

/-- Only anonymous symbols take the place of others. -/
theorem kind_of_mem_targets {groups : List (List Rule)} {target : Term}
    (h : (t, target) ∈ targets terms groups) : (terms.info target).kind = .nonterminal := by
  induction groups with
  | nil => cases h
  | cons group later ih =>
    rw [targets] at h
    split at h
    next name target' hname htarget =>
      rcases List.mem_cons.mp h with h | h
      · cases h
        obtain ⟨other, hother, hfirst⟩ := Option.bind_eq_some_iff.mp htarget
        have hmergeable := (List.mem_filter.mp (List.mem_of_getLast? hother)).2
        simp only [isMergeable, hfirst, Bool.and_eq_true] at hmergeable
        have hdistinct := hmergeable.1.2
        simp only [TermInfo.isDistinct, Bool.not_or, Bool.and_eq_true, bne,
          Bool.not_not] at hdistinct
        simpa using hdistinct.1.1.1
      · exact ih h
    next => exact ih h

/-- A part stays, or an anonymous symbol takes its place. -/
theorem replace_cases (groups : List (List Rule)) (t : Term) :
    replace (targets terms groups) t = t ∨
      (terms.info (replace (targets terms groups) t)).kind = .nonterminal := by
  rw [replace]
  cases hl : (targets terms groups).lookup t with
  | none => exact .inl rfl
  | some target =>
    obtain ⟨before, after, hsplit, _⟩ := List.lookup_eq_some_iff.mp hl
    have hmem : (t, target) ∈ targets terms groups := by
      rw [hsplit]
      exact List.mem_append_right _ (.head _)
    exact .inr (kind_of_mem_targets hmem)

theorem isTop_replace (groups : List (List Rule)) (ht : terms.isTop t = false) :
    terms.isTop (replace (targets terms groups) t) = false := by
  rcases replace_cases groups t with heq | hkind
  · rw [heq, ht]
  · rw [TermTable.isTop, hkind]
    rfl

section

variable {targets : List (Term × Term)} {r r' : Rule} {count : Nat}

theorem map_replace_eq_self {parts : List Term}
    (h : ¬ (parts.any fun p => (targets.lookup p).isSome) = true) :
    parts.map (replace targets) = parts := by
  refine (List.map_congr_left fun t ht => ?_).trans (List.map_id parts)
  have hnone : targets.lookup t = none :=
    Option.not_isSome_iff_eq_none.mp fun hsome => h (List.any_eq_true.mpr ⟨t, ht, hsome⟩)
  rw [replace, hnone]
  rfl

/-- Merging keeps the rules of symbols that are not merged, in their order and with other parts. -/
theorem map_applyAll (targets : List (Term × Term)) (count : Nat) (rules : List Rule) :
    (applyAll targets count rules).1.map (fun r => (r.name, r.toPhrase, r.skip)) =
      (rules.filter fun r => (targets.lookup r.name).isNone).map fun r =>
        (r.name, ⟨r.parts.map (replace targets), r.marks⟩, r.skip) := by
  induction rules generalizing count with
  | nil => rfl
  | cons r rules ih =>
    rw [applyAll]
    split
    next hgone => rw [ih, List.filter_cons_of_neg (by simpa using hgone)]
    next hkept =>
      have hkept : targets.lookup r.name = none := Option.not_isSome_iff_eq_none.mp hkept
      rw [List.filter_cons_of_pos (by rw [hkept]; rfl)]
      split
      next => simp only [List.map_cons, ih]
      next hsame => simp only [List.map_cons, ih, map_replace_eq_self hsame]

theorem mem_applyAll (h : r' ∈ (applyAll targets count rules).1) :
    ∃ r ∈ rules, targets.lookup r.name = none ∧ r'.name = r.name ∧
      r'.parts = r.parts.map (replace targets) := by
  have hmem := List.mem_map_of_mem (f := fun r : Rule => (r.name, r.toPhrase, r.skip)) h
  rw [map_applyAll] at hmem
  obtain ⟨r, hr, heq⟩ := List.mem_map.mp hmem
  obtain ⟨hr, hkept⟩ := List.mem_filter.mp hr
  simp only [Prod.mk.injEq] at heq
  obtain ⟨hname, hphrase, _⟩ := heq
  exact ⟨r, hr, Option.isNone_iff_eq_none.mp hkept, hname.symm, by rw [← hphrase]⟩

theorem exists_mem_applyAll (hr : r ∈ rules) (hkept : targets.lookup r.name = none)
    (count : Nat) : ∃ r' ∈ (applyAll targets count rules).1,
      r'.name = r.name ∧ r'.parts = r.parts.map (replace targets) := by
  have hfilter : r ∈ rules.filter fun r => (targets.lookup r.name).isNone := by simp [hr, hkept]
  have hmem := List.mem_map_of_mem
    (f := fun r : Rule => (r.name, (⟨r.parts.map (replace targets), r.marks⟩ : Phrase), r.skip))
    hfilter
  rw [← map_applyAll targets count] at hmem
  obtain ⟨r', hr', heq⟩ := List.mem_map.mp hmem
  simp only [Prod.mk.injEq] at heq
  obtain ⟨hname, hphrase, _⟩ := heq
  exact ⟨r', hr', hname, by rw [hphrase]⟩

end

end Merging

/-! ## §3 Grammars -/

/-- A grammar that an automaton is built for when a grammar text is compiled. -/
def Blueprint.HasGrammar (b : Blueprint) (g : Grammar) : Prop :=
  ∃ journal journal' rules numbering skips,
    Compile.simplify b.draft journal = .ok rules journal' ∧
      g = Skipping.prune skips { terms := b.draft.terms, numbering, rules }

namespace Compile

theorem exists_ok_of_bind {α β : Type} {m : Stage α} {f : α → Stage β} {j j' : Journal} {b : β}
    (h : (m >>= f) j = .ok b j') : ∃ a j₁, m j = .ok a j₁ ∧ f a j₁ = .ok b j' := by
  have h : EStateM.bind m f j = .ok b j' := h
  rw [EStateM.bind] at h
  cases hm : m j with
  | ok a j₁ =>
    rw [hm] at h
    exact ⟨a, j₁, rfl, h⟩
  | error e j₁ =>
    rw [hm] at h
    cases h

/-- The rules that a draft is simplified to. -/
theorem simplify_eq {d : Draft} {journal journal' : Journal} {rules : List Rule}
    (h : simplify d journal = .ok rules journal') :
    let inlined := Inlining.ofRules d.terms (d.skipTerms ++ d.terms.tops) d.rules.length d.rules
    rules = (Merging.merge d.terms inlined.ruleCount inlined.rules).1 := by
  obtain ⟨_, _, _, h⟩ := exists_ok_of_bind h
  obtain ⟨_, _, _, h⟩ := exists_ok_of_bind h
  cases h
  rfl

end Compile

/-- Rules of the grammars that automata are built for refer to no symbol at the top. -/
theorem Blueprint.HasGrammar.isTop_part {source : Text.Source} {b : Blueprint} {journal : Journal}
    (h : Blueprint.ofSource source = (.ok b, journal)) {g : Grammar} (hg : b.HasGrammar g) :
    ∀ r ∈ g.rules, ∀ t ∈ r.parts, g.terms.isTop t = false := by
  obtain ⟨_, _, rules, numbering, skips, hrules, rfl⟩ := hg
  intro r hr t ht
  have hr := (List.mem_filter.mp hr).1
  obtain rfl := Compile.simplify_eq hrules
  obtain ⟨r', hr', _, _, hparts⟩ := Merging.mem_applyAll hr
  rw [hparts] at ht
  obtain ⟨t', ht', rfl⟩ := List.mem_map.mp ht
  refine Merging.isTop_replace _ ?_
  obtain ⟨s, hs, ht'⟩ := (Inlining.runs_ofRules _ _ _ _).exists_part hr' ht'
  have hmentioned := Draft.mem_mentioned.mpr (.inl ⟨s, hs, ht'⟩)
  exact ((sound_of_ofSource h).inner _ (.tail _ hmentioned)).isTop

end GrammarCompiler
