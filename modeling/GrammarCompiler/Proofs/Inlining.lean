/-
GrammarCompiler.Proofs.Inlining — what inlining does to languages.

A pass takes the rules of all chosen symbols away and splices them into the
other rules, one level deep. A chosen symbol inside a rule of a chosen symbol
is then left without rules. So what can still be derived is what had a
derivation in which chosen symbols never stand directly inside each other:
such derivations are called flat.

  §1 Chosen symbols    — what their entries list.
  §2 Splicing          — the sequences that parts become, and the rules after
                         a pass.
  §3 Flat derivations  — they are the derivations after a pass.
  §4 The choice        — it lists all rules of a symbol, and ends.
  §5 Passes            — what a whole run keeps.
  §6 Languages         — what inlining does to the rules of a grammar text.
-/
import GrammarCompiler.Grammar.Inline
import GrammarCompiler.Proofs.Derivation
import GrammarCompiler.Proofs.Drafting
import Mathlib.Data.Finset.Card
import Mathlib.Data.List.Basic

namespace GrammarCompiler

namespace Replacements

/-! ## §1 Chosen symbols -/

theorem has_iff {chosen : Replacements} {t : Term} :
    chosen.has t = true ↔ ∃ rs, (t, rs) ∈ chosen := by
  simp [has]

theorem lookup_eq_none {chosen : Replacements} {t : Term} :
    chosen.lookup t = none ↔ chosen.has t = false := by
  rw [List.lookup_eq_none_iff, has, List.any_eq_false]
  exact forall₂_congr fun entry _ => by rw [bne_iff_ne, ne_comm, beq_iff_eq]

theorem exists_lookup {chosen : Replacements} {t : Term} (h : chosen.has t = true) :
    ∃ rs, chosen.lookup t = some rs := by
  cases hl : chosen.lookup t with
  | none =>
    rw [lookup_eq_none.mp hl] at h
    cases h
  | some rs => exact ⟨rs, rfl⟩

theorem mem_of_lookup {chosen : Replacements} {t : Term} {rs : List Rule}
    (h : chosen.lookup t = some rs) : (t, rs) ∈ chosen := by
  obtain ⟨before, after, rfl, _⟩ := List.lookup_eq_some_iff.mp h
  exact List.mem_append_right _ List.mem_cons_self

/-- An entry of a choice lists all rules of its symbol, and there are some. -/
def Lists (rules : List Rule) (entry : Term × List Rule) : Prop :=
  (∃ r ∈ rules, r.name = entry.1) ∧ entry.2 = rules.filter fun r => r.name == entry.1

/-- Every chosen symbol comes with its rules. -/
def ListsFrom (chosen : Replacements) (rules : List Rule) : Prop :=
  ∀ entry ∈ chosen, Lists rules entry

/-- No chosen symbol occurs in a rule of a chosen symbol. -/
def Apart (chosen : Replacements) (rules : List Rule) : Prop :=
  ∀ r ∈ rules, chosen.has r.name = true → ∀ t ∈ r.parts, chosen.has t = false

instance (chosen : Replacements) (rules : List Rule) : Decidable (chosen.Apart rules) :=
  inferInstanceAs (Decidable (∀ r ∈ rules, _ → ∀ t ∈ r.parts, chosen.has t = false))

namespace ListsFrom

variable {chosen : Replacements} {rules : List Rule}

theorem exists_rule (h : chosen.ListsFrom rules) {t : Term} (ht : chosen.has t = true) :
    ∃ r ∈ rules, r.name = t := by
  obtain ⟨rs, hrs⟩ := has_iff.mp ht
  exact (h _ hrs).1

theorem mem_lookup (h : chosen.ListsFrom rules) {t : Term} {rs : List Rule}
    (hl : chosen.lookup t = some rs) {r : Rule} : r ∈ rs ↔ r ∈ rules ∧ r.name = t := by
  have hrs : rs = rules.filter fun r => r.name == t := (h _ (mem_of_lookup hl)).2
  rw [hrs, List.mem_filter, beq_iff_eq]

end ListsFrom

/-! ## §2 Splicing -/

/-- `Splices chosen parts out`: putting a rule in the place of every chosen
symbol turns `parts` into `out`. -/
inductive Splices (chosen : Replacements) : List Term → List Term → Prop where
  | nil : Splices chosen [] []
  | keep {t : Term} {parts out : List Term} (ht : chosen.has t = false)
      (rest : Splices chosen parts out) : Splices chosen (t :: parts) (t :: out)
  | replace {t : Term} {rs : List Rule} {r : Rule} {parts out : List Term}
      (hl : chosen.lookup t = some rs) (hr : r ∈ rs) (rest : Splices chosen parts out) :
      Splices chosen (t :: parts) (r.parts ++ out)

namespace Splices

variable {chosen : Replacements} {parts out : List Term}

theorem of_mem_expandFrom {done p : Phrase} {gaps : List Marks}
    (h : p ∈ expandFrom chosen done parts gaps) :
    ∃ out, Splices chosen parts out ∧ p.parts = done.parts ++ out := by
  induction parts generalizing done gaps with
  | nil =>
    obtain rfl := List.mem_singleton.mp h
    exact ⟨[], .nil, (List.append_nil _).symm⟩
  | cons part parts ih =>
    rw [expandFrom] at h
    split at h
    next hl =>
      obtain ⟨out, hout, hp⟩ := ih h
      refine ⟨part :: out, .keep (lookup_eq_none.mp hl) hout, ?_⟩
      simpa [Phrase.markEnd, Phrase.append, Phrase.single] using hp
    next rules hl =>
      obtain ⟨inner, hinner, h⟩ := List.mem_flatMap.mp h
      obtain ⟨out, hout, hp⟩ := ih h
      refine ⟨inner.parts ++ out, .replace hl hinner hout, ?_⟩
      simpa [Phrase.markEnd, Phrase.append] using hp

theorem exists_mem_expandFrom (h : Splices chosen parts out) (done : Phrase)
    (gaps : List Marks) :
    ∃ p ∈ expandFrom chosen done parts gaps, p.parts = done.parts ++ out := by
  induction h generalizing done gaps with
  | nil => exact ⟨done, List.mem_singleton_self _, (List.append_nil _).symm⟩
  | @keep t parts out ht _ ih =>
    obtain ⟨p, hp, hparts⟩ :=
      ih ((done.append (.single t)).markEnd (gaps.headD Marks.none)) gaps.tail
    refine ⟨p, ?_, ?_⟩
    · rw [expandFrom]
      simpa only [lookup_eq_none.mpr ht] using hp
    · simpa [Phrase.markEnd, Phrase.append, Phrase.single] using hparts
  | @replace t rs r parts out hl hr _ ih =>
    obtain ⟨p, hp, hparts⟩ :=
      ih ((done.append r.toPhrase).markEnd (gaps.headD Marks.none)) gaps.tail
    refine ⟨p, ?_, ?_⟩
    · rw [expandFrom]
      simp only [hl]
      exact List.mem_flatMap.mpr ⟨r, hr, hp⟩
    · simpa [Phrase.markEnd, Phrase.append] using hparts

/-- Parts of which none is chosen stay as they are. -/
theorem self_of_not_any (h : parts.any chosen.has = false) : Splices chosen parts parts := by
  induction parts with
  | nil => exact .nil
  | cons t parts ih =>
    rw [List.any_cons, Bool.or_eq_false_iff] at h
    exact .keep h.1 (ih h.2)

theorem eq_of_not_any (h : parts.any chosen.has = false) (hs : Splices chosen parts out) :
    out = parts := by
  induction hs with
  | nil => rfl
  | keep _ _ ih =>
    rw [List.any_cons, Bool.or_eq_false_iff] at h
    rw [ih h.2]
  | @replace t _ _ _ _ hl _ _ _ =>
    rw [List.any_cons, Bool.or_eq_false_iff, ← lookup_eq_none, hl] at h
    cases h.1

end Splices

theorem mem_apply {chosen : Replacements} {next : Nat} {r r' : Rule}
    (h : r' ∈ chosen.apply next r) :
    chosen.has r.name = false ∧ r'.name = r.name ∧ Splices chosen r.parts r'.parts := by
  rw [apply] at h
  split at h
  next => cases h
  next hname =>
    have hname : chosen.has r.name = false := by simpa using hname
    split at h
    next =>
      obtain ⟨⟨body, i⟩, hbody, rfl⟩ := List.mem_map.mp h
      obtain ⟨out, hout, hparts⟩ := Splices.of_mem_expandFrom (List.fst_mem_of_mem_zipIdx hbody)
      rw [List.nil_append] at hparts
      exact ⟨hname, rfl, hparts ▸ hout⟩
    next hany =>
      obtain rfl := List.mem_singleton.mp h
      exact ⟨hname, rfl, .self_of_not_any (by simpa using hany)⟩

theorem exists_mem_apply {chosen : Replacements} {r : Rule} {out : List Term}
    (hname : chosen.has r.name = false) (hs : Splices chosen r.parts out) (next : Nat) :
    ∃ r' ∈ chosen.apply next r, r'.name = r.name ∧ r'.parts = out := by
  rw [apply, if_neg (by rw [hname]; exact Bool.false_ne_true)]
  split
  next =>
    obtain ⟨p, hp, hparts⟩ :=
      hs.exists_mem_expandFrom ⟨[], [r.marks.headD Marks.none]⟩ r.marks.tail
    obtain ⟨i, hi⟩ := List.mem_iff_getElem?.mp hp
    have hi : (p, i) ∈ (chosen.expand r).zipIdx := List.mk_mem_zipIdx_iff_getElem?.mpr hi
    exact ⟨_, List.mem_map.mpr ⟨(p, i), hi, rfl⟩, rfl, hparts⟩
  next hany =>
    exact ⟨r, List.mem_singleton_self r, rfl, (hs.eq_of_not_any (by simpa using hany)).symm⟩

/-- The rules after a pass come from the rules of symbols that stay. -/
theorem mem_applyAll {chosen : Replacements} {rules : List Rule} {next : Nat} {r' : Rule}
    (h : r' ∈ (chosen.applyAll next rules).1) :
    ∃ r ∈ rules, chosen.has r.name = false ∧ r'.name = r.name ∧
      Splices chosen r.parts r'.parts := by
  induction rules generalizing next with
  | nil => cases h
  | cons r rules ih =>
    rcases List.mem_append.mp h with h | h
    · exact ⟨r, List.mem_cons_self, mem_apply h⟩
    · obtain ⟨s, hs, hrest⟩ := ih h
      exact ⟨s, List.mem_cons_of_mem r hs, hrest⟩

/-- Every way to splice a rule of a symbol that stays is a rule after the
pass. -/
theorem exists_mem_applyAll {chosen : Replacements} {rules : List Rule} {r : Rule}
    {out : List Term} (hr : r ∈ rules) (hname : chosen.has r.name = false)
    (hs : Splices chosen r.parts out) (next : Nat) :
    ∃ r' ∈ (chosen.applyAll next rules).1, r'.name = r.name ∧ r'.parts = out := by
  induction rules generalizing next with
  | nil => cases hr
  | cons s rules ih =>
    rcases List.mem_cons.mp hr with rfl | hr
    · obtain ⟨r', hr', heq⟩ := exists_mem_apply hname hs next
      exact ⟨r', List.mem_append_left _ hr', heq⟩
    · obtain ⟨r', hr', heq⟩ := ih hr (next + chosen.created s)
      exact ⟨r', List.mem_append_right _ hr', heq⟩

/-- A pass gives rules to no symbol that had none. -/
theorem isTerminal_applyAll {isTerminal : Term → Bool} {rules : List Rule}
    (hnames : ∀ r ∈ rules, isTerminal r.name = false) (chosen : Replacements) (next : Nat) :
    ∀ r ∈ (chosen.applyAll next rules).1, isTerminal r.name = false := by
  intro r' h
  obtain ⟨r, hr, _, hname, _⟩ := mem_applyAll h
  rw [hname]
  exact hnames r hr

end Replacements

/-! ## §3 Flat derivations -/

/-- Derivations in which no chosen symbol is replaced directly inside a rule of
a chosen symbol. `within` tells whether the parts stand in such a rule. -/
inductive FlatDerives (isTerminal : Term → Bool) (rules : List Rule) (chosen : Replacements) :
    (within : Bool) → List Term → List Term → Prop where
  | nil {within : Bool} : FlatDerives isTerminal rules chosen within [] []
  | terminal {within : Bool} {t : Term} {parts word : List Term} (ht : isTerminal t = true)
      (rest : FlatDerives isTerminal rules chosen within parts word) :
      FlatDerives isTerminal rules chosen within (t :: parts) (t :: word)
  | rule {within : Bool} {r : Rule} {parts word rest : List Term} (hr : r ∈ rules)
      (hn : isTerminal r.name = false) (hflat : within = true → chosen.has r.name = false)
      (body : FlatDerives isTerminal rules chosen (chosen.has r.name) r.parts word)
      (after : FlatDerives isTerminal rules chosen within parts rest) :
      FlatDerives isTerminal rules chosen within (r.name :: parts) (word ++ rest)

namespace FlatDerives

variable {isTerminal : Term → Bool} {rules : List Rule} {chosen : Replacements}
variable {within : Bool} {parts word : List Term}

theorem append {xs ys u v : List Term} (h : FlatDerives isTerminal rules chosen within xs u)
    (h' : FlatDerives isTerminal rules chosen within ys v) :
    FlatDerives isTerminal rules chosen within (xs ++ ys) (u ++ v) := by
  induction h with
  | nil => exact h'
  | terminal ht _ ih => exact .terminal ht (ih h')
  | rule hr hn hflat body _ _ ih =>
    rw [List.append_assoc]
    exact .rule hr hn hflat body (ih h')

theorem exists_of_append {xs ys w : List Term}
    (h : FlatDerives isTerminal rules chosen within (xs ++ ys) w) :
    ∃ u v, w = u ++ v ∧ FlatDerives isTerminal rules chosen within xs u ∧
      FlatDerives isTerminal rules chosen within ys v := by
  induction xs generalizing w with
  | nil => exact ⟨[], w, rfl, .nil, h⟩
  | cons x xs ih =>
    cases h with
    | terminal ht rest =>
      obtain ⟨u, v, rfl, hu, hv⟩ := ih rest
      exact ⟨x :: u, v, rfl, .terminal ht hu, hv⟩
    | rule hr hn hflat body after =>
      obtain ⟨u, v, rfl, hu, hv⟩ := ih after
      exact ⟨_ ++ u, v, (List.append_assoc _ _ _).symm, .rule hr hn hflat body hu, hv⟩

theorem derives (h : FlatDerives isTerminal rules chosen within parts word) :
    Derives isTerminal rules parts word := by
  induction h with
  | nil => exact .nil
  | terminal ht _ ih => exact .terminal ht ih
  | rule hr hn _ _ _ ihBody ihAfter => exact .rule hr hn ihBody ihAfter

/-- When no chosen symbol occurs in a rule of a chosen symbol, every derivation
is flat. -/
theorem of_derives (hapart : chosen.Apart rules) (h : Derives isTerminal rules parts word)
    (hparts : within = true → ∀ t ∈ parts, chosen.has t = false) :
    FlatDerives isTerminal rules chosen within parts word := by
  induction h generalizing within with
  | nil => exact .nil
  | terminal ht _ ih =>
    exact .terminal ht (ih fun hw t ht => hparts hw t (List.mem_cons_of_mem _ ht))
  | rule hr hn _ _ ihBody ihAfter =>
    refine .rule hr hn (fun hw => hparts hw _ List.mem_cons_self) (ihBody (hapart _ hr)) ?_
    exact ihAfter fun hw t ht => hparts hw t (List.mem_cons_of_mem _ ht)

/-- What the spliced parts stand for, the parts stand for. -/
theorem of_splices (hlists : chosen.ListsFrom rules)
    (hnames : ∀ r ∈ rules, isTerminal r.name = false) {out : List Term}
    (hs : chosen.Splices parts out) (h : FlatDerives isTerminal rules chosen true out word) :
    FlatDerives isTerminal rules chosen false parts word := by
  induction hs generalizing word with
  | nil =>
    cases h
    exact .nil
  | keep _ _ ih =>
    cases h with
    | terminal ht rest => exact .terminal ht (ih rest)
    | rule hr hn _ body after => exact .rule hr hn nofun body (ih after)
  | @replace t rs r _ _ hl hr _ ih =>
    obtain ⟨hr, rfl⟩ := (hlists.mem_lookup hl).mp hr
    obtain ⟨u, v, rfl, hu, hv⟩ := h.exists_of_append
    have hname : chosen.has r.name = true :=
      Replacements.has_iff.mpr ⟨rs, Replacements.mem_of_lookup hl⟩
    exact .rule hr (hnames r hr) nofun (hname ▸ hu) (ih hv)

/-- Derivations after a pass are flat ones before it. -/
theorem of_applyAll (hlists : chosen.ListsFrom rules)
    (hnames : ∀ r ∈ rules, isTerminal r.name = false) {next : Nat}
    (h : Derives isTerminal (chosen.applyAll next rules).1 parts word) :
    FlatDerives isTerminal rules chosen true parts word := by
  induction h with
  | nil => exact .nil
  | terminal ht _ ih => exact .terminal ht ih
  | rule hr hn _ _ ihBody ihAfter =>
    obtain ⟨r, hr, hkept, hname, hs⟩ := Replacements.mem_applyAll hr
    rw [hname] at hn ⊢
    exact .rule hr hn (fun _ => hkept) (hkept ▸ of_splices hlists hnames hs ihBody) ihAfter

/-- Flat derivations before a pass are derivations after it. Parts outside the
rules of chosen symbols have to be spliced first. -/
theorem derives_applyAll (hlists : chosen.ListsFrom rules)
    (hnames : ∀ r ∈ rules, isTerminal r.name = false) (next : Nat)
    (h : FlatDerives isTerminal rules chosen within parts word) :
    (within = true → Derives isTerminal (chosen.applyAll next rules).1 parts word) ∧
      (within = false → ∃ out, chosen.Splices parts out ∧
        Derives isTerminal (chosen.applyAll next rules).1 out word) := by
  induction h with
  | nil => exact ⟨fun _ => .nil, fun _ => ⟨[], .nil, .nil⟩⟩
  | @terminal _ t _ _ ht _ ih =>
    have hkept : chosen.has t = false := by
      by_contra hne
      obtain ⟨r, hr, rfl⟩ := hlists.exists_rule (Bool.eq_true_of_not_eq_false hne)
      rw [hnames r hr] at ht
      cases ht
    refine ⟨fun hw => .terminal ht (ih.1 hw), fun hw => ?_⟩
    obtain ⟨out, hs, hout⟩ := ih.2 hw
    exact ⟨t :: out, .keep hkept hs, .terminal ht hout⟩
  | @rule _ r _ u _ hr hn hflat _ _ ihBody ihAfter =>
    -- A rule of a symbol that stays is spliced, one of a chosen symbol is not.
    have hkeeps : chosen.has r.name = false → ∃ r' ∈ (chosen.applyAll next rules).1,
        r'.name = r.name ∧ Derives isTerminal (chosen.applyAll next rules).1 r'.parts u := by
      intro hkept
      obtain ⟨out, hs, hout⟩ := ihBody.2 hkept
      obtain ⟨r', hr', hname, rfl⟩ := Replacements.exists_mem_applyAll hr hkept hs next
      exact ⟨r', hr', hname, hout⟩
    constructor
    · intro hw
      obtain ⟨r', hr', hname, hbody⟩ := hkeeps (hflat hw)
      rw [← hname] at hn ⊢
      exact .rule hr' hn hbody (ihAfter.1 hw)
    · intro hw
      obtain ⟨out, hs, hout⟩ := ihAfter.2 hw
      cases hchosen : chosen.has r.name with
      | false =>
        obtain ⟨r', hr', hname, hbody⟩ := hkeeps hchosen
        rw [← hname] at hn hchosen ⊢
        exact ⟨r'.name :: out, .keep hchosen hs, .rule hr' hn hbody hout⟩
      | true =>
        obtain ⟨rs, hl⟩ := Replacements.exists_lookup hchosen
        exact ⟨r.parts ++ out, .replace hl ((hlists.mem_lookup hl).mpr ⟨hr, rfl⟩) hs,
          (ihBody.1 hchosen).append hout⟩

end FlatDerives

/-- After a pass exactly the flat derivations of before are left. -/
theorem Replacements.derives_applyAll_iff {isTerminal : Term → Bool} {rules : List Rule}
    {chosen : Replacements} (hlists : chosen.ListsFrom rules)
    (hnames : ∀ r ∈ rules, isTerminal r.name = false) (next : Nat) (parts word : List Term) :
    Derives isTerminal (chosen.applyAll next rules).1 parts word ↔
      FlatDerives isTerminal rules chosen true parts word :=
  ⟨.of_applyAll hlists hnames, fun h => (h.derives_applyAll hlists hnames next).1 rfl⟩

/-! ## §4 The choice -/

namespace Replacements

variable {terms : TermTable} {preserve : List Term} {rules : List Rule}

theorem lists_of_marked : ∀ entry ∈ marked terms rules,
    (terms.info entry.1).inlined = true ∧ Lists rules entry := by
  rw [marked]
  refine List.foldlRecOn (motive := fun chosen : Replacements => ∀ entry ∈ chosen,
    (terms.info entry.1).inlined = true ∧ Lists rules entry) rules _ (fun _ h => nomatch h)
    fun chosen ih r hr entry h => ?_
  split at h
  next => exact ih entry h
  next hnew =>
    simp only at h
    split at h
    next => exact ih entry h
    next =>
      rcases List.mem_append.mp h with h | h
      · exact ih entry h
      · obtain rfl := List.mem_singleton.mp h
        rw [Bool.or_eq_true, not_or, Bool.not_eq_true', Bool.not_eq_false] at hnew
        exact ⟨hnew.1, ⟨r, hr, rfl⟩, rfl⟩

/-- A small rule is the only one of its symbol, which need not be preserved. -/
theorem lists_of_isSmall {chosen : Replacements} {r : Rule} (hr : r ∈ rules)
    (h : isSmall terms preserve rules chosen r = true) :
    r.name ∉ preserve ∧ Lists rules (r.name, [r]) := by
  simp only [isSmall, Bool.and_eq_true, Bool.not_eq_true', List.contains_eq_mem,
    decide_eq_false_iff_not, beq_iff_eq] at h
  obtain ⟨⟨⟨⟨_, hkeep⟩, _⟩, _⟩, hone⟩ := h
  rw [List.countP_eq_length_filter] at hone
  obtain ⟨s, hs⟩ := List.length_eq_one_iff.mp hone
  have hmem : r ∈ rules.filter fun other => other.name == r.name :=
    List.mem_filter.mpr ⟨hr, beq_self_eq_true _⟩
  rw [hs] at hmem
  obtain rfl := List.mem_singleton.mp hmem
  exact ⟨hkeep, ⟨r, hr, rfl⟩, hs.symm⟩

theorem lists_of_withSmall {chosen : Replacements} :
    ∀ entry ∈ withSmall terms preserve rules chosen,
      entry ∈ chosen ∨ entry.1 ∉ preserve ∧ Lists rules entry := by
  rw [withSmall]
  refine List.foldlRecOn (motive := fun found : Replacements => ∀ entry ∈ found,
    entry ∈ chosen ∨ entry.1 ∉ preserve ∧ Lists rules entry) rules _ (fun _ h => .inl h)
    fun found ih r hr entry h => ?_
  split at h
  next hsmall =>
    rcases List.mem_append.mp h with h | h
    · exact ih entry h
    · obtain rfl := List.mem_singleton.mp h
      exact .inr (lists_of_isSmall hr hsmall)
  next => exact ih entry h

theorem subset_withSmall {chosen : Replacements} :
    chosen ⊆ withSmall terms preserve rules chosen := by
  refine List.foldlRecOn rules _ (List.Subset.refl _) fun found ih r _ => ?_
  split
  · exact fun entry h => List.mem_append_left _ (ih h)
  · exact ih

/-- When there is nothing to choose in the first pass, there would not be in
another. -/
theorem choose_eq_nil {first : Bool} (h : choose terms preserve first rules = []) :
    choose terms preserve false rules = [] := by
  cases first with
  | false => exact h
  | true =>
    have hmarked : marked terms rules = [] := List.subset_nil.mp (h ▸ subset_withSmall)
    rwa [choose, if_pos rfl, hmarked] at h

theorem lists_of_choose {first : Bool} {entry : Term × List Rule}
    (h : entry ∈ choose terms preserve first rules) :
    ((terms.info entry.1).inlined = true ∨ entry.1 ∉ preserve) ∧ Lists rules entry := by
  rcases lists_of_withSmall entry h with h | h
  · cases first with
    | false => cases h
    | true => exact (lists_of_marked entry h).imp_left .inl
  · exact h.imp_left .inr

theorem choose_listsFrom (first : Bool) :
    (choose terms preserve first rules).ListsFrom rules :=
  fun _ h => (lists_of_choose h).2

/-- The symbols of `preserve` stay, unless they are marked. -/
theorem has_choose_of_mem {first : Bool} {t : Term} (ht : t ∈ preserve)
    (hmark : (terms.info t).inlined = false) :
    (choose terms preserve first rules).has t = false := by
  by_contra hne
  obtain ⟨rs, hrs⟩ := has_iff.mp (Bool.eq_true_of_not_eq_false hne)
  rcases (lists_of_choose hrs).1 with h | h
  · rw [hmark] at h
    cases h
  · exact h ht

/-- A pass takes at least one symbol's rules away. -/
theorem card_names_applyAll_lt {chosen : Replacements} (hlists : chosen.ListsFrom rules)
    (hne : chosen ≠ []) (next : Nat) :
    ((chosen.applyAll next rules).1.map Rule.name).toFinset.card <
      (rules.map Rule.name).toFinset.card := by
  obtain ⟨entry, hentry⟩ := List.exists_mem_of_ne_nil chosen hne
  obtain ⟨r, hr, hname⟩ := (hlists entry hentry).1
  refine Finset.card_lt_card (Finset.ssubset_iff_subset_ne.mpr ⟨fun t ht => ?_, fun heq => ?_⟩)
  · obtain ⟨r', hr', rfl⟩ := List.mem_map.mp (List.mem_toFinset.mp ht)
    obtain ⟨s, hs, _, hname, _⟩ := mem_applyAll hr'
    exact List.mem_toFinset.mpr (List.mem_map.mpr ⟨s, hs, hname.symm⟩)
  · have hmem : r.name ∈ (rules.map Rule.name).toFinset :=
      List.mem_toFinset.mpr (List.mem_map.mpr ⟨r, hr, rfl⟩)
    rw [← heq] at hmem
    obtain ⟨r', hr', hname'⟩ := List.mem_map.mp (List.mem_toFinset.mp hmem)
    obtain ⟨s, _, hkept, hs, _⟩ := mem_applyAll hr'
    rw [← hs, hname', hname, has_iff.mpr ⟨entry.2, hentry⟩] at hkept
    cases hkept

end Replacements

/-! ## §5 Passes -/

namespace Inlining

variable {terms : TermTable} {preserve : List Term}

/-- A pass: the rules before it, and what it chose. -/
structure Pass where
  rules : List Rule
  chosen : Replacements

/-- Every word of the symbols `starts` has a flat derivation in the pass. -/
def Pass.Flat (isTerminal : Term → Bool) (starts : List Term) (p : Pass) : Prop :=
  ∀ t ∈ starts, ∀ word, Derives isTerminal p.rules [t] word →
    FlatDerives isTerminal p.rules p.chosen true [t] word

/-- The passes of `run`. -/
def passesOf (terms : TermTable) (preserve : List Term) :
    (fuel : Nat) → (first : Bool) → (ruleCount : Nat) → List Rule → List Pass
  | 0, _, _, _ => []
  | fuel + 1, first, ruleCount, rules =>
    let chosen := Replacements.choose terms preserve first rules
    if chosen.isEmpty then []
    else
      let (next, nextCount) := chosen.applyAll ruleCount rules
      ⟨rules, chosen⟩ :: passesOf terms preserve fuel false nextCount next

/-- `Runs terms preserve first rules passes result`: choosing and splicing goes
on through `passes`, and ends with `result`, where nothing is left to choose. -/
inductive Runs (terms : TermTable) (preserve : List Term) :
    (first : Bool) → List Rule → List Pass → List Rule → Prop where
  | done {first : Bool} {rules : List Rule}
      (h : Replacements.choose terms preserve first rules = []) :
      Runs terms preserve first rules [] rules
  | pass {first : Bool} {rules result : List Rule} {passes : List Pass} (count : Nat)
      (hne : Replacements.choose terms preserve first rules ≠ [])
      (rest : Runs terms preserve false
        ((Replacements.choose terms preserve first rules).applyAll count rules).1 passes result) :
      Runs terms preserve first rules
        (⟨rules, Replacements.choose terms preserve first rules⟩ :: passes) result

/-- With more passes allowed than there are symbols with rules, a run ends. -/
theorem runs_run {fuel count : Nat} {first : Bool} {rules : List Rule}
    (hfuel : (rules.map Rule.name).toFinset.card < fuel) :
    Runs terms preserve first rules (passesOf terms preserve fuel first count rules)
      (run terms preserve fuel first count rules).rules := by
  induction fuel generalizing first count rules with
  | zero => omega
  | succ fuel ih =>
    by_cases hc : Replacements.choose terms preserve first rules = []
    · rw [run, passesOf, hc]
      exact .done hc
    · have hempty : ¬ (Replacements.choose terms preserve first rules).isEmpty = true :=
        fun h => hc (List.isEmpty_iff.mp h)
      have hlt := Replacements.card_names_applyAll_lt (Replacements.choose_listsFrom first) hc count
      simp only [run, passesOf, if_neg hempty]
      exact .pass count hc (ih (by omega))

/-- Inlining ends. -/
theorem runs_ofRules (terms : TermTable) (preserve : List Term) (count : Nat) (rules : List Rule) :
    Runs terms preserve true rules (passesOf terms preserve (rules.length + 1) true count rules)
      (ofRules terms preserve count rules).rules :=
  runs_run (Nat.lt_succ_of_le
    ((List.toFinset_card_le _).trans (Nat.le_of_eq (List.length_map _))))

namespace Runs

variable {first : Bool} {rules result : List Rule} {passes : List Pass}

theorem choose_eq_nil (h : Runs terms preserve first rules passes result) :
    Replacements.choose terms preserve false result = [] := by
  induction h with
  | done h => exact Replacements.choose_eq_nil h
  | pass _ _ _ ih => exact ih

/-- What no pass breaks holds in the end. -/
theorem preserves {Q : List Rule → Prop} (h : Runs terms preserve first rules passes result)
    (hpass : ∀ (chosen : Replacements) count rules, Q rules → Q (chosen.applyAll count rules).1)
    (hrules : Q rules) : Q result := by
  induction h with
  | done => exact hrules
  | pass count _ _ ih => exact ih (hpass _ count _ hrules)

/-- The symbols of `preserve` stay in every pass, unless they are marked. -/
theorem has_chosen_of_mem (h : Runs terms preserve first rules passes result) {p : Pass}
    (hp : p ∈ passes) {t : Term} (ht : t ∈ preserve) (hmark : (terms.info t).inlined = false) :
    p.chosen.has t = false := by
  induction h with
  | done => cases hp
  | pass _ _ _ ih =>
    rcases List.mem_cons.mp hp with rfl | hp
    · exact Replacements.has_choose_of_mem ht hmark
    · exact ih hp

variable (hnames : ∀ r ∈ rules, terms.isTerminal r.name = false)
include hnames

/-- Inlining adds nothing to what symbols stand for. -/
theorem derives (h : Runs terms preserve first rules passes result) {parts word : List Term}
    (hw : Derives terms.isTerminal result parts word) :
    Derives terms.isTerminal rules parts word := by
  induction h with
  | done => exact hw
  | pass count _ _ ih =>
    have hnext := ih (Replacements.isTerminal_applyAll hnames _ count) hw
    exact (FlatDerives.of_applyAll (Replacements.choose_listsFrom _) hnames hnext).derives

/-- Inlining loses nothing exactly when every pass leaves flat derivations of
everything that it finds. -/
theorem keeps_iff (h : Runs terms preserve first rules passes result) (starts : List Term) :
    (∀ t ∈ starts, ∀ word, Derives terms.isTerminal rules [t] word →
        Derives terms.isTerminal result [t] word) ↔
      ∀ p ∈ passes, p.Flat terms.isTerminal starts := by
  induction h with
  | done => exact ⟨fun _ _ hp => (nomatch hp), fun _ _ _ _ hw => hw⟩
  | @pass first rules result passes count _ hrest ih =>
    have hnext := Replacements.isTerminal_applyAll hnames
      (Replacements.choose terms preserve first rules) count
    have hlists : (Replacements.choose terms preserve first rules).ListsFrom rules :=
      Replacements.choose_listsFrom first
    have hpass := Replacements.derives_applyAll_iff hlists hnames count
    rw [List.forall_mem_cons, ← ih hnext]
    constructor
    · refine fun h => ⟨fun t ht word hw => (hpass _ _).mp ?_, fun t ht word hw => ?_⟩
      · exact hrest.derives hnext (h t ht word hw)
      · exact h t ht word ((hpass _ _).mp hw).derives
    · exact fun ⟨hflat, h⟩ t ht word hw => h t ht word ((hpass _ _).mpr (hflat t ht word hw))

end Runs

/-- A pass that keeps chosen symbols apart leaves flat derivations of all words
of symbols that it does not choose. -/
theorem Pass.flat_of_apart {isTerminal : Term → Bool} {starts : List Term} {p : Pass}
    (hapart : p.chosen.Apart p.rules) (hkept : ∀ t ∈ starts, p.chosen.has t = false) :
    p.Flat isTerminal starts := by
  refine fun t ht word hw => .of_derives hapart hw fun _ s hs => ?_
  obtain rfl := List.mem_singleton.mp hs
  exact hkept s ht

end Inlining

/-! ## §6 Languages -/

/-- Inlining the rules of a grammar ends, with nothing left to replace, and adds
nothing to what is skipped or to what the top symbols stand for. It loses
nothing exactly when all that is derived before a pass has a flat derivation. So
it is when chosen symbols are apart in every pass. -/
theorem Blueprint.inlining_keeps_iff {source : Text.Source} {b : Blueprint} {journal : Journal}
    (h : Blueprint.ofSource source = (.ok b, journal)) :
    let terms := b.draft.terms
    let preserve := b.draft.skipTerms ++ terms.tops
    let before := b.draft.rules
    let inlined := Inlining.ofRules terms preserve before.length before
    let passes := Inlining.passesOf terms preserve (before.length + 1) true before.length before
    let KeepsLanguages := ∀ t ∈ preserve, ∀ word,
      Derives terms.isTerminal inlined.rules [t] word ↔ Derives terms.isTerminal before [t] word
    Inlining.Runs terms preserve true before passes inlined.rules ∧
      Replacements.choose terms preserve false inlined.rules = [] ∧
      (∀ t ∈ preserve, ∀ word, Derives terms.isTerminal inlined.rules [t] word →
        Derives terms.isTerminal before [t] word) ∧
      (KeepsLanguages ↔ ∀ p ∈ passes, p.Flat terms.isTerminal preserve) ∧
      ((∀ p ∈ passes, p.chosen.Apart p.rules) → KeepsLanguages) := by
  intro terms preserve before inlined passes KeepsLanguages
  have hsound := sound_of_ofSource h
  have hnames : ∀ r ∈ before, terms.isTerminal r.name = false := hsound.isTerminal_name
  have hruns : Inlining.Runs terms preserve true before passes inlined.rules :=
    Inlining.runs_ofRules terms preserve before.length before
  have hiff : KeepsLanguages ↔ ∀ p ∈ passes, p.Flat terms.isTerminal preserve := by
    rw [← hruns.keeps_iff hnames]
    exact ⟨fun hk t ht word => (hk t ht word).mpr,
      fun hk t ht word => ⟨hruns.derives hnames, hk t ht word⟩⟩
  refine ⟨hruns, hruns.choose_eq_nil, fun _ _ _ => hruns.derives hnames, hiff, fun hapart => ?_⟩
  exact hiff.mpr fun p hp => Inlining.Pass.flat_of_apart (hapart p hp) fun t ht =>
    hruns.has_chosen_of_mem hp ht (hsound.stays t ht).inlined

/-- Chosen symbols side by side. -/
def sideBySide : Text.Source :=
  ⟨"", "@top T \x7b A b \x7d A[@inline] \x7b \"y\" | \"z\" \x7d b \x7b \"x\" \x7d"⟩

/-- The symbols that stand side by side can all be replaced at once. -/
theorem Blueprint.inlining_keeps_sideBySide :
    ∃ b journal, Blueprint.ofSource sideBySide = (.ok b, journal) ∧
      ∀ t ∈ b.draft.skipTerms ++ b.draft.terms.tops, ∀ word,
        Derives b.draft.terms.isTerminal
            (Inlining.ofRules b.draft.terms (b.draft.skipTerms ++ b.draft.terms.tops)
              b.draft.rules.length b.draft.rules).rules [t] word ↔
          Derives b.draft.terms.isTerminal b.draft.rules [t] word := by
  have hcheck : (match Blueprint.ofSource sideBySide with
      | (.ok b, _) =>
        let d := b.draft
        (Inlining.passesOf d.terms (d.skipTerms ++ d.terms.tops) (d.rules.length + 1) true
          d.rules.length d.rules).all fun p => decide (p.chosen.Apart p.rules)
      | (.error _, _) => false) = true := by
    decide +kernel
  split at hcheck
  next b journal h =>
    refine ⟨b, journal, h, (Blueprint.inlining_keeps_iff h).2.2.2.2 fun p hp => ?_⟩
    exact of_decide_eq_true (List.all_eq_true.mp hcheck p hp)
  next => cases hcheck

/-- A symbol that is marked for inlining inside another one. -/
def nested : Text.Source :=
  ⟨"", "@top T \x7b A \x7d A[@inline] \x7b B \"x\" \x7d B[@inline] \x7b \"y\" | \"z\" \x7d"⟩

/-- The top symbol stands for `y x`, but no longer after inlining: the rules of
`B` are gone, and `B` is still there. -/
theorem Blueprint.inlining_loses_nested :
    ∃ b journal, Blueprint.ofSource nested = (.ok b, journal) ∧
      ∃ t ∈ b.draft.skipTerms ++ b.draft.terms.tops, ∃ word,
        Derives b.draft.terms.isTerminal b.draft.rules [t] word ∧
          ¬ Derives b.draft.terms.isTerminal
            (Inlining.ofRules b.draft.terms (b.draft.skipTerms ++ b.draft.terms.tops)
              b.draft.rules.length b.draft.rules).rules [t] word := by
  have hcheck : (match Blueprint.ofSource nested with
      | (.ok b, _) =>
        let d := b.draft
        let inlined := Inlining.ofRules d.terms (d.skipTerms ++ d.terms.tops) d.rules.length d.rules
        d.terms.tops == [⟨3⟩] &&
          ((d.rules.map fun r => (r.name, r.parts)) ==
            [(⟨5⟩, [⟨6⟩]), (⟨5⟩, [⟨7⟩]), (⟨4⟩, [⟨5⟩, ⟨8⟩]), (⟨3⟩, [⟨4⟩])] &&
          ((inlined.rules.map fun r => (r.name, r.parts)) == [(⟨3⟩, [⟨5⟩, ⟨8⟩])] &&
          (d.terms.isTerminal ⟨6⟩ && (d.terms.isTerminal ⟨8⟩ &&
            [⟨3⟩, ⟨4⟩, ⟨5⟩].all fun t => !d.terms.isTerminal t))))
      | (.error _, _) => false) = true := by
    decide +kernel
  split at hcheck
  next b journal h =>
    simp only [Bool.and_eq_true, beq_iff_eq, List.all_eq_true, Bool.not_eq_true'] at hcheck
    obtain ⟨htops, hrules, hafter, hy, hx, hnames⟩ := hcheck
    have hderive {t : Term} {parts word : List Term} (ht : t ∈ [⟨3⟩, ⟨4⟩, (⟨5⟩ : Term)])
        (hmem : (t, parts) ∈ b.draft.rules.map fun r => (r.name, r.parts))
        (hbody : Derives b.draft.terms.isTerminal b.draft.rules parts word) :
        Derives b.draft.terms.isTerminal b.draft.rules [t] word := by
      obtain ⟨r, hr, heq⟩ := List.mem_map.mp hmem
      cases heq
      exact .of_rule hr (hnames _ ht) hbody
    have hinner : Derives b.draft.terms.isTerminal b.draft.rules [⟨5⟩] [⟨6⟩] :=
      hderive (by decide) (by rw [hrules]; decide) (.of_terminal hy)
    have houter : Derives b.draft.terms.isTerminal b.draft.rules [⟨4⟩] [⟨6⟩, ⟨8⟩] :=
      hderive (by decide) (by rw [hrules]; decide) (hinner.append (.of_terminal hx))
    refine ⟨b, journal, h, ⟨3⟩, by simp [htops], [⟨6⟩, ⟨8⟩], ?_, fun hword => ?_⟩
    · exact hderive (by decide) (by rw [hrules]; decide) houter
    · have honly : ∀ r ∈ (Inlining.ofRules b.draft.terms (b.draft.skipTerms ++ b.draft.terms.tops)
          b.draft.rules.length b.draft.rules).rules, (r.name, r.parts) = (⟨3⟩, [⟨5⟩, ⟨8⟩]) := by
        intro r hr
        exact List.mem_singleton.mp (hafter ▸ List.mem_map_of_mem hr)
      obtain ⟨r, hr, _, hbody⟩ := hword.exists_rule (hnames _ (by decide))
      rw [(Prod.mk.inj (honly r hr)).2] at hbody
      have hbody : Derives _ _ ([⟨5⟩] ++ [⟨8⟩]) _ := hbody
      obtain ⟨u, v, _, hu, _⟩ := hbody.exists_of_append
      obtain ⟨r', hr', hname, _⟩ := hu.exists_rule (hnames _ (by decide))
      have hname' := (Prod.mk.inj (honly r' hr')).1
      rw [hname] at hname'
      cases hname'
  next => cases hcheck

end GrammarCompiler
