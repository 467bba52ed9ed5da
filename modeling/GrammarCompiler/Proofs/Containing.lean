/-
GrammarCompiler.Proofs.Containing — the grammars of grammar texts refer to nothing but
themselves.

While declarations are worked through, rules are numbered as they are added, and only
symbols that are there get into them. Inlining and merging take rules over as they are,
or create new ones, which get numbers that no rule had before (`Renews`). So the rules
of a grammar tell themselves apart by their numbers, and all symbols in them are symbols
of the grammar (`HasGrammar.isSelfContained`).

  §1 Numbers  — rules that are taken over or created anew.
  §2 Rules    — inlining and merging.
  §3 Grammars — what automata are built for.
-/
import GrammarCompiler.Proofs.Enumerating
import GrammarCompiler.Proofs.Merging

namespace GrammarCompiler

/-! ## §1 Numbers -/

/-- `Renews next rules result last`: one after another, rules are taken over, or rules
with the same to skip are created in their place, which get the numbers from `next` on,
up to `last`. -/
inductive Renews : Nat → List Rule → List Rule → Nat → Prop where
  | nil (next : Nat) : Renews next [] [] next
  | keep {next last : Nat} {rules result : List Rule} (r : Rule)
      (rest : Renews next rules result last) : Renews next (r :: rules) (r :: result) last
  | renew {next last : Nat} {rules result new : List Rule} (r : Rule)
      (ids : new.map Rule.id = List.range' next new.length) (skip : ∀ s ∈ new, s.skip = r.skip)
      (rest : Renews (next + new.length) rules result last) :
      Renews next (r :: rules) (new ++ result) last

namespace Renews

variable {next last low : Nat} {rules result : List Rule} {s : Rule}

theorem drop (r : Rule) (rest : Renews next rules result last) :
    Renews next (r :: rules) result last :=
  @renew next last rules result [] r rfl nofun rest

theorem one (r : Rule) (id : s.id = next) (skip : s.skip = r.skip)
    (rest : Renews (next + 1) rules result last) : Renews next (r :: rules) (s :: result) last :=
  @renew next last rules result [s] r (congrArg ([·]) id) (List.forall_mem_singleton.mpr skip) rest

theorem le (h : Renews next rules result last) : next ≤ last := by
  induction h with
  | nil => exact Nat.le_refl _
  | keep _ _ ih => exact ih
  | renew _ _ _ _ ih => exact (Nat.le_add_right _ _).trans ih

/-- A rule afterwards is a rule from before, or has a new number. -/
theorem mem_or_id (h : Renews next rules result last) (hs : s ∈ result) :
    s ∈ rules ∨ next ≤ s.id ∧ s.id < last := by
  induction h with
  | nil => exact .inl hs
  | keep _ _ ih =>
    rcases List.mem_cons.mp hs with rfl | hs
    · exact .inl (.head _)
    · exact (ih hs).imp_left (.tail _)
  | @renew _ _ _ _ new _ ids _ rest ih =>
    rcases List.mem_append.mp hs with hs | hs
    · have hid : s.id ∈ new.map Rule.id := List.mem_map_of_mem hs
      rw [ids, List.mem_range'_1] at hid
      exact .inr ⟨hid.1, Nat.lt_of_lt_of_le hid.2 rest.le⟩
    · refine (ih hs).imp (.tail _) fun hid => ⟨?_, hid.2⟩
      exact (Nat.le_add_right _ _).trans hid.1

theorem exists_skip (h : Renews next rules result last) (hs : s ∈ result) :
    ∃ r ∈ rules, s.skip = r.skip := by
  induction h with
  | nil => cases hs
  | keep r _ ih =>
    rcases List.mem_cons.mp hs with rfl | hs
    · exact ⟨s, .head _, rfl⟩
    · obtain ⟨r', hr', hskip⟩ := ih hs
      exact ⟨r', .tail _ hr', hskip⟩
  | renew r _ skip _ ih =>
    rcases List.mem_append.mp hs with hs | hs
    · exact ⟨r, .head _, skip s hs⟩
    · obtain ⟨r', hr', hskip⟩ := ih hs
      exact ⟨r', .tail _ hr', hskip⟩

/-- Rules still tell themselves apart by their numbers. -/
theorem nodup (h : Renews next rules result last) (hlow : low ≤ next)
    (hlt : ∀ r ∈ rules, r.id < low) (hnodup : (rules.map Rule.id).Nodup) :
    (result.map Rule.id).Nodup := by
  induction h with
  | nil => exact hnodup
  | keep r rest ih =>
    obtain ⟨hfirst, hnodup⟩ := List.nodup_cons.mp hnodup
    obtain ⟨hr, hlt⟩ := List.forall_mem_cons.mp hlt
    refine List.nodup_cons.mpr ⟨fun hmem => ?_, ih hlow hlt hnodup⟩
    obtain ⟨s, hs, hid⟩ := List.mem_map.mp hmem
    rcases rest.mem_or_id hs with hs | hnew
    · exact hfirst (hid ▸ List.mem_map_of_mem hs)
    · omega
  | @renew _ _ _ _ new r ids _ rest ih =>
    obtain ⟨_, hlt⟩ := List.forall_mem_cons.mp hlt
    rw [List.map_append, List.nodup_append']
    refine ⟨ids ▸ List.nodup_range', ?_, fun id hid hrest => ?_⟩
    · exact ih (hlow.trans (Nat.le_add_right _ _)) hlt (List.nodup_cons.mp hnodup).2
    · obtain ⟨s, hs, rfl⟩ := List.mem_map.mp hrest
      rw [ids, List.mem_range'_1] at hid
      rcases rest.mem_or_id hs with hs | hnew
      · have := hlt s hs
        omega
      · omega

end Renews

/-! ## §2 Rules -/

theorem Replacements.renews_applyAll (chosen : Replacements) (next : Nat) (rules : List Rule) :
    Renews next rules (chosen.applyAll next rules).1 (chosen.applyAll next rules).2 := by
  induction rules generalizing next with
  | nil => exact .nil next
  | cons r rules ih =>
    have hrest := ih (next + chosen.created r)
    show Renews next (r :: rules)
      (chosen.apply next r ++ (chosen.applyAll (next + chosen.created r) rules).1)
      (chosen.applyAll (next + chosen.created r) rules).2
    by_cases hname : chosen.has r.name = true
    · have hcreated : chosen.created r = 0 := by simp [created, hname]
      rw [apply, if_pos hname]
      rw [hcreated] at hrest ⊢
      exact .drop r hrest
    · rw [apply, if_neg hname]
      by_cases hany : r.parts.any chosen.has = true
      · have hcreated : chosen.created r = (chosen.expand r).length := by
          rw [created, if_pos (by simp [hname, hany])]
        rw [if_pos hany]
        rw [hcreated] at hrest ⊢
        refine .renew r ?_ (fun s hs => ?_) ?_
        · rw [List.length_map, List.length_zipIdx]
          exact Build.map_id_zipIdx next _ _ _
        · obtain ⟨p, _, rfl⟩ := List.mem_map.mp hs
          rfl
        · rw [List.length_map, List.length_zipIdx]
          exact hrest
      · have hcreated : chosen.created r = 0 := by
          rw [created, if_neg (by simp [hany])]
        rw [if_neg hany]
        rw [hcreated] at hrest ⊢
        exact .keep r hrest

theorem Merging.renews_applyAll (targets : List (Term × Term)) (next : Nat) (rules : List Rule) :
    Renews next rules (applyAll targets next rules).1 (applyAll targets next rules).2 := by
  induction rules generalizing next with
  | nil => exact .nil next
  | cons r rules ih =>
    rw [applyAll]
    split
    · exact .drop r (ih next)
    · split
      · exact .one r rfl rfl (ih (next + 1))
      · exact .keep r (ih next)

/-- Rules that tell themselves apart by numbers below `count`, with symbols of a table in
them. -/
structure AreContained (terms : TermTable) (count : Nat) (rules : List Rule) : Prop where
  ids : (rules.map Rule.id).Nodup
  lt : ∀ r ∈ rules, r.id < count
  parts : ∀ r ∈ rules, ∀ t ∈ r.parts, t.index < terms.size
  skip : ∀ r ∈ rules, r.skip.index < terms.size

namespace AreContained

variable {terms : TermTable} {count last : Nat} {rules result : List Rule}

theorem renews (h : AreContained terms count rules) (hrenews : Renews count rules result last)
    (hparts : ∀ r ∈ result, ∀ t ∈ r.parts, t.index < terms.size) :
    AreContained terms last result where
  ids := hrenews.nodup (Nat.le_refl _) h.lt h.ids
  lt r hr := (hrenews.mem_or_id hr).elim (fun hr => (h.lt r hr).trans_le hrenews.le) And.right
  parts := hparts
  skip r hr := by
    obtain ⟨s, hs, hskip⟩ := hrenews.exists_skip hr
    exact hskip ▸ h.skip s hs

/-- A pass of inlining. -/
theorem applyAll (h : AreContained terms count rules) {chosen : Replacements}
    (hlists : chosen.ListsFrom rules) : AreContained terms (chosen.applyAll count rules).2
      (chosen.applyAll count rules).1 := by
  refine h.renews (chosen.renews_applyAll count rules) fun r hr t ht => ?_
  obtain ⟨s, hs, _, _, hsplices⟩ := Replacements.mem_applyAll hr
  rcases hsplices.exists_part hlists ht with ht | ⟨s', hs', ht⟩
  · exact h.parts s hs t ht
  · exact h.parts s' hs' t ht

theorem inlining (h : AreContained terms count rules) (preserve : List Term) (fuel : Nat)
    (first : Bool) : AreContained terms (Inlining.run terms preserve fuel first count rules).ruleCount
      (Inlining.run terms preserve fuel first count rules).rules := by
  induction fuel generalizing first count rules with
  | zero => exact h
  | succ fuel ih =>
    unfold Inlining.run
    dsimp only
    split
    · exact h
    · exact ih (h.applyAll (Replacements.choose_listsFrom first)) false

theorem merge (h : AreContained terms count rules) : AreContained terms
    (Merging.merge terms count rules).2 (Merging.merge terms count rules).1 := by
  refine h.renews (Merging.renews_applyAll _ count rules) fun r hr t ht => ?_
  obtain ⟨s, hs, _, _, hparts⟩ := Merging.mem_applyAll hr
  rw [hparts] at ht
  obtain ⟨u, hu, rfl⟩ := List.mem_map.mp ht
  rcases Merging.replace_cases (Merging.groups rules) u with heq | hkind
  · rw [heq]
    exact h.parts s hs u hu
  · refine TermTable.lt_size_of_isTerminal ?_
    rw [TermTable.isTerminal, hkind]
    rfl

end AreContained

/-! ## §3 Grammars -/

theorem Draft.Sound.areContained {d : Draft} (h : d.Sound) :
    AreContained d.terms d.rules.length d.rules where
  ids := h.ids ▸ List.nodup_range
  lt r hr := by
    have hid : r.id ∈ d.rules.map Rule.id := List.mem_map_of_mem hr
    rwa [h.ids, List.mem_range] at hid
  parts r hr t ht := (h.inner t (.tail _ (mem_mentioned.mpr (.inl ⟨r, hr, ht⟩)))).lt_size
  skip r hr := TermTable.lt_size_of_isTerminal (h.skip r hr)

/-- The grammars that automata are built for are self-contained. -/
theorem Blueprint.HasGrammar.isSelfContained {source : Text.Source} {b : Blueprint}
    {journal : Journal} (h : Blueprint.ofSource source = (.ok b, journal)) {g : Grammar}
    (hg : b.HasGrammar g) : g.IsSelfContained := by
  have hsound := sound_of_ofSource h
  obtain ⟨_, _, rules, numbering, skips, hrules, rfl⟩ := hg
  have hcontained : ∃ count, AreContained b.draft.terms count rules :=
    ⟨_, Compile.simplify_eq hrules ▸ (hsound.areContained.inlining _ _ true).merge⟩
  obtain ⟨count, hcontained⟩ := hcontained
  refine ⟨hcontained.ids.sublist (List.filter_sublist.map _), fun r hr t ht => ?_, fun r hr => ?_, ?_⟩
  · exact mem_all_iff.mpr (hcontained.parts r (List.mem_of_mem_filter hr) t ht)
  · exact mem_all_iff.mpr (hcontained.skip r (List.mem_of_mem_filter hr))
  · exact mem_all_iff.mpr (hsound.inner _ (.head _)).lt_size

end GrammarCompiler
