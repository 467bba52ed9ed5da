/-
GrammarCompiler.Proofs.Starting — how things to skip begin.

The tokens that something skipped can begin with are collected rule by rule, from what
the first part of each rule begins with. A first part that can stand for nothing lets
the parts behind it come first, and the tokens that only these begin with are missing:
so the tokens are all there exactly if such first parts hide none.

  §1 Starts — what the first parts of the rules for a symbol begin with.
  §2 Builds — what is skipped in a grammar text.
-/
import GrammarCompiler.Proofs.Following
import GrammarCompiler.Proofs.Masking
import GrammarCompiler.Proofs.Accounting

namespace GrammarCompiler

/-! ## §1 Starts -/

namespace Grammar

variable {g : Grammar} {parts form : List Term} {part s t : Term}

/-- A single symbol is rewritten by one of its rules. -/
theorem Rewrites.exists_rule (h : g.Rewrites [s] form) :
    ∃ r ∈ g.rulesFor s, r.parts = form := by
  generalize hsymbol : [s] = parts at h
  cases h with
  | @rule before r after hr hn =>
    obtain ⟨rfl, hrest⟩ | ⟨_, _, hrest⟩ := List.append_eq_cons_iff.mp hsymbol.symm
    · obtain ⟨hname, rfl⟩ := List.cons.inj hrest
      exact ⟨r, List.mem_filter.mpr ⟨hr, beq_iff_eq.mpr hname⟩, by simp⟩
    · simp at hrest

/-- A symbol begins like the parts of its rules. -/
theorem begins_iff_rule (hs : g.isTerminal s = false) :
    g.Begins [s] t ↔ ∃ r ∈ g.rulesFor s, g.Begins r.parts t := by
  constructor
  · rintro ⟨ht, rest, h⟩
    rcases h.cases_head with heq | ⟨form, hstep, h⟩
    · rw [(List.cons.inj heq).1, ht] at hs
      cases hs
    · obtain ⟨r, hr, rfl⟩ := hstep.exists_rule
      exact ⟨r, hr, ht, rest, h⟩
  · rintro ⟨r, hr, h⟩
    obtain ⟨hmem, hname⟩ := List.mem_filter.mp hr
    obtain rfl := beq_iff_eq.mp hname
    exact h.of_rule hmem hs

/-- A sequence begins like its first part, and like the parts behind it if that one can stand for
nothing. -/
theorem begins_cons_iff :
    g.Begins (part :: parts) t ↔ g.Begins [part] t ∨ g.Becomes [part] [] ∧ g.Begins parts t := by
  rw [← List.singleton_append]
  simp only [begins_iff, becomes_nil_iff, FirstTable.contains_beginnings_append]

/-- A terminal stays as it is. -/
theorem begins_terminal_iff (ht : g.isTerminal part = true) : g.Begins [part] t ↔ t = part := by
  rw [begins_iff]
  simp [FirstTable.beginnings, ht, TermSet.contains_insert, TermSet.contains_empty, eq_comm]

end Grammar

namespace SkipEntry

variable {g : Grammar} {s t : Term}

/-- What a rule starts with is what its first part begins with. -/
theorem mem_startsOf {r : Rule} : t ∈ startsOf g (.ofGrammar g) r ↔
    ∃ first rest, r.parts = first :: rest ∧ g.Begins [first] t := by
  rw [startsOf.eq_def]
  split
  next hnil => simp [hnil]
  next first rest hcons =>
    simp only [hcons, List.cons.injEq, and_assoc, exists_and_left, exists_eq_left']
    split
    next hterminal =>
      rw [List.mem_singleton, Grammar.begins_terminal_iff hterminal]
    next hn =>
      rw [TermSet.mem_toList, Grammar.begins_iff,
        FirstTable.beginnings_single (Bool.eq_false_iff.mpr hn)]

theorem mem_starts_ofTerm : t ∈ (ofTerm g (.ofGrammar g) s).starts ↔
    ∃ r ∈ g.rulesFor s, ∃ first rest, r.parts = first :: rest ∧ g.Begins [first] t := by
  simp only [ofTerm, Term.mem_foldl_addNew, List.not_mem_nil, false_or, List.mem_flatMap,
    mem_startsOf]

theorem nodup_starts_ofTerm (table : FirstTable) : (ofTerm g table s).starts.Nodup :=
  Term.nodup_foldl_addNew List.nodup_nil

/-- The tokens that rules start with are those that a symbol begins with, except for those that
only come behind first parts that can stand for nothing. -/
theorem starts_complete_iff (hs : g.isTerminal s = false) :
    (∀ t, t ∈ (ofTerm g (.ofGrammar g) s).starts ↔ g.Begins [s] t) ↔
      ∀ r ∈ g.rulesFor s, ∀ first rest, r.parts = first :: rest → g.Becomes [first] [] →
        ∀ t, g.Begins rest t → t ∈ (ofTerm g (.ofGrammar g) s).starts := by
  constructor
  · intro h r hr first rest hparts hnil t ht
    rw [h, Grammar.begins_iff_rule hs]
    exact ⟨r, hr, hparts ▸ Grammar.begins_cons_iff.mpr (.inr ⟨hnil, ht⟩)⟩
  · intro h t
    constructor
    · intro ht
      obtain ⟨r, hr, first, rest, hparts, hfirst⟩ := mem_starts_ofTerm.mp ht
      rw [Grammar.begins_iff_rule hs]
      exact ⟨r, hr, hparts ▸ hfirst.append rest⟩
    · intro ht
      obtain ⟨r, hr, ht⟩ := (Grammar.begins_iff_rule hs).mp ht
      cases hparts : r.parts with
      | nil =>
        rw [hparts, Grammar.begins_iff] at ht
        simp [FirstTable.beginnings, TermSet.contains_empty] at ht
      | cons first rest =>
        rw [hparts] at ht
        rcases Grammar.begins_cons_iff.mp ht with hfirst | ⟨hnil, hrest⟩
        · exact mem_starts_ofTerm.mpr ⟨r, hr, first, rest, hparts, hfirst⟩
        · exact h r hr first rest hparts hnil t hrest

end SkipEntry

/-! ## §2 Builds -/

theorem Skipping.starts_ofTerms {g : Grammar} {table : FirstTable} {terms : List Term} {s : Term}
    (hs : s ∈ terms) : (ofTerms g table terms).starts s = (SkipEntry.ofTerm g table s).starts := by
  have hfind : (terms.map (SkipEntry.ofTerm g table)).find? (fun e => e.term == s) =
      some (SkipEntry.ofTerm g table s) := by
    induction terms with
    | nil => cases hs
    | cons u terms ih =>
      rw [List.map_cons, List.find?_cons]
      split
      next heq =>
        obtain rfl : u = s := beq_iff_eq.mp heq
        rfl
      next hne =>
        refine ih ((List.mem_cons.mp hs).resolve_left ?_)
        rintro rfl
        rw [SkipEntry.ofTerm, beq_self_eq_true] at hne
        cases hne
  rw [starts, entry, ofTerms, hfind]
  rfl

namespace Blueprint

variable {source : Text.Source} {b : Blueprint} {journal : Journal}

/-- What is skipped starts with the tokens that the first parts of its rules begin with, each one
listed once. They are all tokens that something skipped can begin with, exactly if those behind a
first part that can stand for nothing are among them. -/
theorem skipStarts_complete_iff (h : ofSource source = (.ok b, journal)) (numbering : Numbering) {s : Term}
    (hs : s ∈ b.draft.skipTerms) :
    let g := b.wholeGrammar numbering
    let starts := (b.skipping numbering).starts s
    starts.Nodup ∧
      (∀ t, t ∈ starts ↔
        ∃ r ∈ g.rulesFor s, ∃ first rest, r.parts = first :: rest ∧ g.Begins [first] t) ∧
      (∀ t ∈ starts, g.Begins [s] t) ∧
      ((∀ t, t ∈ starts ↔ g.Begins [s] t) ↔
        ∀ r ∈ g.rulesFor s, ∀ first rest, r.parts = first :: rest → g.Becomes [first] [] →
          ∀ t, g.Begins rest t → t ∈ starts) := by
  intro g starts
  have hstarts : starts = (SkipEntry.ofTerm g (.ofGrammar g) s).starts :=
    Skipping.starts_ofTerms hs
  have hterminal : g.isTerminal s = false := isTerminal_of_mem_skipTerms h hs
  rw [hstarts]
  refine ⟨SkipEntry.nodup_starts_ofTerm _, fun t => SkipEntry.mem_starts_ofTerm, fun t ht => ?_,
    SkipEntry.starts_complete_iff hterminal⟩
  obtain ⟨r, hr, first, rest, hparts, hfirst⟩ := SkipEntry.mem_starts_ofTerm.mp ht
  rw [Grammar.begins_iff_rule hterminal]
  exact ⟨r, hr, hparts ▸ hfirst.append rest⟩

end Blueprint

/-- Comments can be skipped that hold other comments. -/
def nestedComments : Text.Source :=
  ⟨"", "@top T \x7b \"a\" \x7d @skip \x7b C \x7d C \x7b \"(\" C \")\" | \"-\" \x7d"⟩

/-- No first part can stand for nothing, so both tokens that comments begin with are there. -/
theorem starts_nestedComments : ∃ b journal, ∃ numbering : Numbering,
    Blueprint.ofSource nestedComments = (.ok b, journal) ∧
    Numbering.ofRules b.draft.terms b.simplified = .ok numbering ∧ ∃ s ∈ b.draft.skipTerms,
      (b.skipping numbering).starts s = [⟨5⟩, ⟨7⟩] ∧
      ∀ t, t ∈ (b.skipping numbering).starts s ↔ (b.wholeGrammar numbering).Begins [s] t := by
  have hcheck : (Blueprint.ofSource nestedComments).1.toOption.any (fun b =>
      (Numbering.ofRules b.draft.terms b.simplified).toOption.any fun numbering =>
        let g := b.wholeGrammar numbering
        decide (⟨3⟩ ∈ b.draft.skipTerms ∧ (b.skipping numbering).starts ⟨3⟩ = [⟨5⟩, ⟨7⟩] ∧
          ∀ r ∈ g.rulesFor ⟨3⟩, ∀ first ∈ r.parts.head?,
            FirstTable.vanishes g (.ofGrammar g) [first] = false)) = true := by
    decide +kernel
  obtain ⟨b, journal, h, hcheck⟩ := exists_ok_fst_of_any hcheck
  obtain ⟨numbering, hnumbering, hcheck⟩ := exists_ok_of_any hcheck
  obtain ⟨hs, hstarts, hfirst⟩ := of_decide_eq_true hcheck
  refine ⟨b, journal, numbering, h, hnumbering, ⟨3⟩, hs, hstarts, ?_⟩
  refine (Blueprint.skipStarts_complete_iff h numbering hs).2.2.2.mpr fun r hr first rest hparts hnil => ?_
  have hno := hfirst r hr first (by simp [hparts])
  rw [Grammar.becomes_nil_iff.mp hnil] at hno
  cases hno

/-- Something is skipped that begins with a part that can stand for nothing. -/
def optionalFirst : Text.Source :=
  ⟨"", "@top T \x7b \"y\" \x7d @skip \x7b A \"y\" \x7d A \x7b \"x\"? \x7d"⟩

/-- The token behind this part is missing. -/
theorem starts_miss_optionalFirst : ∃ b journal, ∃ numbering : Numbering,
    Blueprint.ofSource optionalFirst = (.ok b, journal) ∧
    Numbering.ofRules b.draft.terms b.simplified = .ok numbering ∧ ∃ s ∈ b.draft.skipTerms,
      ∃ t, (b.wholeGrammar numbering).Begins [s] t ∧ t ∉ (b.skipping numbering).starts s := by
  have hcheck : (Blueprint.ofSource optionalFirst).1.toOption.any (fun b =>
      (Numbering.ofRules b.draft.terms b.simplified).toOption.any fun numbering =>
        let g := b.wholeGrammar numbering
        decide (⟨3⟩ ∈ b.draft.skipTerms ∧
          (FirstTable.beginnings g (.ofGrammar g) .empty [⟨3⟩]).contains ⟨6⟩ = true ∧
          ⟨6⟩ ∉ (b.skipping numbering).starts ⟨3⟩)) = true := by
    decide +kernel
  obtain ⟨b, journal, h, hcheck⟩ := exists_ok_fst_of_any hcheck
  obtain ⟨numbering, hnumbering, hcheck⟩ := exists_ok_of_any hcheck
  obtain ⟨hs, hbegins, hmissing⟩ := of_decide_eq_true hcheck
  exact ⟨b, journal, numbering, h, hnumbering, ⟨3⟩, hs, ⟨6⟩, Grammar.begins_iff.mpr hbegins,
    hmissing⟩

end GrammarCompiler
