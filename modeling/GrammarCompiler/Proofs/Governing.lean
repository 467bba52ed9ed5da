/-
GrammarCompiler.Proofs.Governing — what may be skipped between parts that
inlining brings along.

What may be skipped between two parts of a rule depends on the scope that the
rule is declared in. When the rule is spliced into another one, its parts come
under what is skipped there. To see which parts of a rule stood next to each
other before, inlining is done here with rules that keep a record of it: the
ties of their parts. A small symbol is only replaced where the same is skipped,
so its ties keep what governs them. A symbol that is marked for inlining is
replaced everywhere.

  §1 Ties    — rules with a record of where their parts stood side by side.
  §2 Weaving — inlining with ties, and that it is inlining.
  §3 Guards  — what is known of chosen symbols.
  §4 Splices — the ties of a spliced rule, and where they come from.
  §5 Passes  — what one pass keeps, and so a whole run.
-/
import GrammarCompiler.Proofs.Inlining

namespace GrammarCompiler

/-! ## §1 Ties -/

/-- A rule, and with each of its parts the rule in which this part stood right behind the part
before it, if there is such a rule. -/
structure Woven where
  rule : Rule
  ties : List (Option Rule)

/-- All parts of a rule but the first stand behind another one in this rule. -/
def Woven.ofRule (r : Rule) : Woven where
  rule := r
  ties := (r.parts.map fun _ => some r).modifyHead fun _ => none

/-- `Tied before last parts ties`: a part with a tie stands right behind the part before it in that
rule, which is one of `before`. The part before the first one is `last`. -/
inductive Tied (before : List Rule) : Option Term → List Term → List (Option Rule) → Prop where
  | nil {last : Option Term} : Tied before last [] []
  | loose {last : Option Term} {t : Term} {parts : List Term} {ties : List (Option Rule)}
      (rest : Tied before (some t) parts ties) : Tied before last (t :: parts) (none :: ties)
  | behind {s t : Term} {r : Rule} {parts : List Term} {ties : List (Option Rule)}
      (hr : r ∈ before) (hside : [s, t] <:+: r.parts) (rest : Tied before (some t) parts ties) :
      Tied before (some s) (t :: parts) (some r :: ties)

namespace Tied

variable {before : List Rule} {last : Option Term} {parts parts' : List Term}
variable {ties ties' : List (Option Rule)}

/-- Parts of which the first has no tie can stand anywhere. -/
theorem of_none (h : Tied before none parts ties) : Tied before last parts ties := by
  cases h with
  | nil => exact .nil
  | loose rest => exact .loose rest

theorem append (h : Tied before last parts ties)
    (h' : Tied before (parts.getLast?.or last) parts' ties') :
    Tied before last (parts ++ parts') (ties ++ ties') := by
  have hlast (t : Term) (parts : List Term) (last : Option Term) :
      (t :: parts).getLast?.or last = parts.getLast?.or (some t) := by
    rw [List.getLast?_cons]
    cases parts.getLast? <;> rfl
  induction h with
  | nil => simpa using h'
  | loose _ ih => exact .loose (ih (hlast _ _ _ ▸ h'))
  | behind hr hside _ ih => exact .behind hr hside (ih (hlast _ _ _ ▸ h'))

/-- A tie is a rule of the grammar with at least two parts. -/
theorem of_mem (h : Tied before last parts ties) {r : Rule} (hr : some r ∈ ties) :
    r ∈ before ∧ 2 ≤ r.parts.length := by
  induction h with
  | nil => cases hr
  | loose _ ih => exact ih (by simpa using hr)
  | behind ho hside _ ih =>
    rcases List.mem_cons.mp hr with heq | hr
    · cases heq
      exact ⟨ho, hside.length_le⟩
    · exact ih hr

/-- A rule of one part has no ties. -/
theorem notMem_of_length_le_one (h : Tied before none parts ties) (hlength : parts.length ≤ 1)
    (r : Rule) : some r ∉ ties := by
  cases h with
  | nil => exact List.not_mem_nil
  | loose rest =>
    cases rest with
    | nil => simp
    | loose => simp at hlength
    | behind => simp at hlength

end Tied

theorem tied_ofRule {before : List Rule} {r : Rule} (hr : r ∈ before) :
    Tied before none r.parts (Woven.ofRule r).ties := by
  have hsuffix (s : Term) (parts : List Term) (hparts : s :: parts <:+ r.parts) :
      Tied before (some s) parts (parts.map fun _ => some r) := by
    induction parts generalizing s with
    | nil => exact .nil
    | cons t parts ih =>
      have hside : [s, t] <:+: r.parts := by
        obtain ⟨front, hfront⟩ := hparts
        exact ⟨front, parts, by simpa using hfront⟩
      exact .behind hr hside (ih t ((List.suffix_cons s _).trans hparts))
  unfold Woven.ofRule
  cases hparts : r.parts with
  | nil => exact .nil
  | cons s parts => exact .loose (hsuffix s parts (by rw [hparts]))

theorem eq_of_mem_ties_ofRule {r o : Rule} (h : some o ∈ (Woven.ofRule r).ties) : o = r := by
  unfold Woven.ofRule at h
  cases hparts : r.parts with
  | nil => simp [hparts] at h
  | cons t parts =>
    have hmem : parts ≠ [] ∧ o = r := by simpa [hparts] using h
    exact hmem.2

/-! ## §2 Weaving -/

namespace Replacements

/-- `expandFrom` with ties. The rules that can be put in are those of `all`. Their parts keep their
ties, and the parts on both sides of what is put in lose theirs. `loose` tells whether the part
before was replaced. -/
def weaveFrom (chosen : Replacements) (all : List Woven) :
    (done : Phrase × List (Option Rule)) → (loose : Bool) → List Term → List Marks →
      List (Option Rule) → List (Phrase × List (Option Rule))
  | done, _, [], _, _ => [done]
  | done, loose, part :: parts, gaps, ties =>
    let after := gaps.headD Marks.none
    match chosen.lookup part with
    | none =>
      weaveFrom chosen all ((done.1.append (.single part)).markEnd after,
        done.2 ++ [if loose then none else ties.headD none]) false parts gaps.tail ties.tail
    | some _ =>
      (all.filter fun w => w.rule.name == part).flatMap fun inner =>
        weaveFrom chosen all ((done.1.append inner.rule.toPhrase).markEnd after,
          done.2 ++ inner.ties) true parts gaps.tail ties.tail

/-- `apply` with ties. -/
def weave (chosen : Replacements) (all : List Woven) (next : Nat) (w : Woven) : List Woven :=
  if chosen.has w.rule.name then []
  else if w.rule.parts.any chosen.has then
    (chosen.weaveFrom all (⟨[], [w.rule.marks.headD Marks.none]⟩, []) false w.rule.parts
      w.rule.marks.tail w.ties).zipIdx.map fun (body, i) =>
        ⟨{ toPhrase := body.1, id := next + i, name := w.rule.name, skip := w.rule.skip }, body.2⟩
  else [w]

/-- `applyAll` with ties. -/
def weaveAll (chosen : Replacements) (all : List Woven) : (next : Nat) → List Woven → List Woven
  | _, [] => []
  | next, w :: rest =>
    chosen.weave all next w ++ weaveAll chosen all (next + chosen.created w.rule) rest

variable {chosen : Replacements} {all : List Woven}
variable (hlists : chosen.ListsFrom (all.map Woven.rule))
include hlists

theorem weaveFrom_fst (done : Phrase × List (Option Rule)) (loose : Bool) (parts : List Term)
    (gaps : List Marks) (ties : List (Option Rule)) :
    (chosen.weaveFrom all done loose parts gaps ties).map Prod.fst =
      expandFrom chosen done.1 parts gaps := by
  induction parts generalizing done loose gaps ties with
  | nil => rfl
  | cons part parts ih =>
    rw [weaveFrom, expandFrom]
    cases hl : chosen.lookup part with
    | none =>
      simp only
      rw [ih]
    | some rs =>
      have hlisted : rs = (all.map Woven.rule).filter fun r => r.name == part :=
        (hlists _ (mem_of_lookup hl)).2
      have hrs : rs = (all.filter fun w => w.rule.name == part).map Woven.rule := by
        rw [hlisted, List.filter_map]
        rfl
      simp only [List.map_flatMap, ih, hrs, List.flatMap_map]

theorem weave_rule (next : Nat) (w : Woven) :
    (chosen.weave all next w).map Woven.rule = chosen.apply next w.rule := by
  unfold weave apply
  split
  next => rfl
  next =>
    split
    next =>
      rw [expand, ← weaveFrom_fst hlists (⟨[], [w.rule.marks.headD Marks.none]⟩, []) false
        w.rule.parts w.rule.marks.tail w.ties, List.zipIdx_map, List.map_map, List.map_map]
      rfl
    next => rfl

theorem weaveAll_rule (next : Nat) (ws : List Woven) :
    (chosen.weaveAll all next ws).map Woven.rule =
      (chosen.applyAll next (ws.map Woven.rule)).1 := by
  induction ws generalizing next with
  | nil => rfl
  | cons w ws ih =>
    simp only [weaveAll, List.map_append, weave_rule hlists, ih, List.map_cons, applyAll]

end Replacements

/-- Inlining with ties. -/
def Inlining.weave (terms : TermTable) (preserve : List Term) :
    (fuel : Nat) → (first : Bool) → (ruleCount : Nat) → List Woven → List Woven
  | 0, _, _, woven => woven
  | fuel + 1, first, ruleCount, woven =>
    let rules := woven.map Woven.rule
    let chosen := Replacements.choose terms preserve first rules
    if chosen.isEmpty then woven
    else
      Inlining.weave terms preserve fuel false (chosen.applyAll ruleCount rules).2
        (chosen.weaveAll woven ruleCount woven)

/-- The ties do not change what inlining does. -/
theorem Inlining.weave_rule {terms : TermTable} {preserve : List Term} (fuel : Nat) (first : Bool)
    (ruleCount : Nat) (woven : List Woven) :
    (Inlining.weave terms preserve fuel first ruleCount woven).map Woven.rule =
      (Inlining.run terms preserve fuel first ruleCount (woven.map Woven.rule)).rules := by
  induction fuel generalizing first ruleCount woven with
  | zero => rfl
  | succ fuel ih =>
    unfold Inlining.weave Inlining.run
    simp only
    split
    next => rfl
    next =>
      rw [ih, Replacements.weaveAll_rule (Replacements.choose_listsFrom first)]

/-! ## §3 Guards -/

namespace Replacements

variable {terms : TermTable} {preserve : List Term} {rules : List Rule}

/-- The rules of a symbol have a single part, or all rules that it is a part of skip the same. -/
def Guarded (rules : List Rule) (t : Term) : Prop :=
  ∀ r ∈ rules, r.name = t → r.parts.length = 1 ∨
    ∀ other ∈ rules, t ∈ other.parts → other.skip = r.skip

theorem guarded_of_isSmall {chosen : Replacements} {r : Rule} (hr : r ∈ rules)
    (h : isSmall terms preserve rules chosen r = true) : Guarded rules r.name := by
  have hall := (lists_of_isSmall hr h).2.2
  simp only [isSmall, Bool.and_eq_true, Bool.or_eq_true, beq_iff_eq, List.all_eq_true,
    Bool.not_eq_true', List.contains_eq_mem, decide_eq_false_iff_not] at h
  obtain ⟨⟨⟨_, hguard⟩, _⟩, _⟩ := h
  intro s hs hname
  -- It is the only rule of its symbol.
  have hmem : s ∈ rules.filter fun other => other.name == r.name :=
    List.mem_filter.mpr ⟨hs, beq_iff_eq.mpr hname⟩
  rw [← hall] at hmem
  obtain rfl := List.mem_singleton.mp hmem
  refine hguard.imp_right fun hskip other hother hpart => ?_
  exact (hskip other hother).resolve_right fun hnot => hnot hpart

/-- A chosen symbol is guarded, or it is the first pass and the symbol is marked. -/
theorem guarded_of_has_choose {first : Bool} {t : Term}
    (h : (choose terms preserve first rules).has t = true) :
    Guarded rules t ∨ first = true ∧ (terms.info t).inlined = true := by
  obtain ⟨rs, hrs⟩ := has_iff.mp h
  have hfold : ∀ entry ∈ choose terms preserve first rules, Guarded rules entry.1 ∨
      entry ∈ if first then marked terms rules else [] := by
    refine List.foldlRecOn (motive := fun found : Replacements => ∀ entry ∈ found,
      Guarded rules entry.1 ∨ entry ∈ if first then marked terms rules else []) rules _
      (fun entry h => .inr h) fun found ih r hr entry hentry => ?_
    split at hentry
    next hsmall =>
      rcases List.mem_append.mp hentry with hentry | hentry
      · exact ih entry hentry
      · obtain rfl := List.mem_singleton.mp hentry
        exact .inl (guarded_of_isSmall hr hsmall)
    next => exact ih entry hentry
  refine (hfold _ hrs).imp_right fun hmarked => ?_
  cases first with
  | false => cases hmarked
  | true => exact ⟨rfl, (lists_of_marked _ hmarked).1⟩

/-! ## §4 Splices -/

variable {chosen : Replacements} {all : List Woven} {before : List Rule}

/-- What comes out of splicing is tied as it says. -/
theorem tied_weaveFrom (hall : ∀ w ∈ all, Tied before none w.rule.parts w.ties)
    {done p : Phrase × List (Option Rule)} {loose : Bool} {last : Option Term} {parts : List Term}
    {gaps : List Marks} {ties : List (Option Rule)} (hdone : Tied before none done.1.parts done.2)
    (hlast : loose = false → done.1.parts.getLast? = last) (hparts : Tied before last parts ties)
    (hp : p ∈ chosen.weaveFrom all done loose parts gaps ties) :
    Tied before none p.1.parts p.2 := by
  induction parts generalizing done loose last gaps ties with
  | nil =>
    obtain rfl := List.mem_singleton.mp hp
    exact hdone
  | cons part parts ih =>
    have hrest : Tied before (some part) parts ties.tail := by
      cases hparts with
      | loose rest => exact rest
      | behind _ _ rest => exact rest
    rw [weaveFrom] at hp
    split at hp
    next =>
      have hkeep : Tied before (done.1.parts.getLast?.or none) [part]
          [if loose then none else ties.headD none] := by
        cases loose with
        | true => exact .loose .nil
        | false =>
          rw [hlast rfl, Option.or_none]
          cases hparts with
          | loose => exact .loose .nil
          | behind hr hside => exact .behind hr hside .nil
      refine ih ?_ ?_ hrest hp
      · simpa [Phrase.markEnd, Phrase.append, Phrase.single] using hdone.append hkeep
      · intro _
        simp [Phrase.markEnd, Phrase.append, Phrase.single]
    next =>
      obtain ⟨inner, hinner, hp⟩ := List.mem_flatMap.mp hp
      have htied := hall inner (List.mem_filter.mp hinner).1
      refine ih ?_ ?_ hrest hp
      · simpa [Phrase.markEnd, Phrase.append] using hdone.append htied.of_none
      · intro h
        cases h

/-- A tie of what comes out of splicing was there before, or comes with a rule that was put in. -/
theorem mem_ties_weaveFrom {done p : Phrase × List (Option Rule)} {loose : Bool} {parts : List Term}
    {gaps : List Marks} {ties : List (Option Rule)} {o : Rule}
    (hp : p ∈ chosen.weaveFrom all done loose parts gaps ties) (ho : some o ∈ p.2) :
    some o ∈ done.2 ∨ some o ∈ ties ∨ ∃ inner ∈ all, inner.rule.name ∈ parts ∧
      chosen.has inner.rule.name = true ∧ some o ∈ inner.ties := by
  induction parts generalizing done loose gaps ties with
  | nil =>
    obtain rfl := List.mem_singleton.mp hp
    exact .inl ho
  | cons part parts ih =>
    have htail {done : Phrase × List (Option Rule)} {loose : Bool}
        (hp : p ∈ chosen.weaveFrom all done loose parts gaps.tail ties.tail) :
        some o ∈ done.2 ∨ some o ∈ ties ∨ ∃ inner ∈ all, inner.rule.name ∈ part :: parts ∧
          chosen.has inner.rule.name = true ∧ some o ∈ inner.ties := by
      rcases ih hp with h | h | ⟨inner, hinner, hname, hrest⟩
      · exact .inl h
      · exact .inr (.inl (List.mem_of_mem_tail h))
      · exact .inr (.inr ⟨inner, hinner, .tail _ hname, hrest⟩)
    rw [weaveFrom] at hp
    split at hp
    next =>
      rcases htail hp with h | h
      · rcases List.mem_append.mp h with h | h
        · exact .inl h
        · refine .inr (.inl ?_)
          have hhead : ties.headD none = some o := by
            cases loose with
            | true => simp at h
            | false => exact (List.mem_singleton.mp h).symm
          cases ties with
          | nil => cases hhead
          | cons tie ties =>
            obtain rfl : tie = some o := hhead
            exact .head _
      · exact .inr h
    next rs hl =>
      obtain ⟨inner, hinner, hp⟩ := List.mem_flatMap.mp hp
      obtain ⟨hinner, hname⟩ := List.mem_filter.mp hinner
      have hname : inner.rule.name = part := beq_iff_eq.mp hname
      rcases htail hp with h | h
      · rcases List.mem_append.mp h with h | h
        · exact .inl h
        · refine .inr (.inr ⟨inner, hinner, ?_, ?_, h⟩)
          · rw [hname]
            exact .head _
          · rw [hname]
            exact has_iff.mpr ⟨rs, mem_of_lookup hl⟩
      · exact .inr h

end Replacements

/-! ## §5 Passes -/

namespace Inlining

variable {terms : TermTable} {preserve : List Term} {before : List Rule}

/-- What holds of rules at any time: between parts that are tied, the same is skipped as in the
rule that ties them, or this is a rule of a marked symbol, which is used where that is skipped. -/
structure Fits (terms : TermTable) (before : List Rule) (w : Woven) : Prop where
  tied : Tied before none w.rule.parts w.ties
  governed : ∀ o, some o ∈ w.ties → w.rule.skip = o.skip ∨
    (terms.info o.name).inlined = true ∧ ∃ r ∈ before, o.name ∈ r.parts ∧ r.skip = w.rule.skip

theorem fits_ofRule {r : Rule} (hr : r ∈ before) : Fits terms before (Woven.ofRule r) where
  tied := tied_ofRule hr
  governed o ho := by
    rw [eq_of_mem_ties_ofRule ho]
    exact .inl rfl

section

variable {woven : List Woven} {first : Bool} {w w' : Woven}
variable (hfits : ∀ w ∈ woven, Fits terms before w)
variable (hfirst : first = true → woven = before.map Woven.ofRule)
include hfits hfirst

/-- A tie that a rule brings along is governed where the rule is put in. -/
theorem governed_of_inner {inner : Woven} (hw : w ∈ woven) (hinner : inner ∈ woven)
    (hpart : inner.rule.name ∈ w.rule.parts)
    (hchosen : (Replacements.choose terms preserve first (woven.map Woven.rule)).has
      inner.rule.name = true) {o : Rule} (ho : some o ∈ inner.ties) :
    w.rule.skip = o.skip ∨
      (terms.info o.name).inlined = true ∧ ∃ r ∈ before, o.name ∈ r.parts ∧ r.skip = w.rule.skip := by
  rcases Replacements.guarded_of_has_choose hchosen with hguarded | ⟨hpass, hmarked⟩
  · rcases hguarded inner.rule (List.mem_map_of_mem hinner) rfl with hone | hskip
    · exact absurd ho ((hfits inner hinner).tied.notMem_of_length_le_one (Nat.le_of_eq hone) o)
    · rw [hskip w.rule (List.mem_map_of_mem hw) hpart]
      exact (hfits inner hinner).governed o ho
  · -- In the first pass rules are as they are in the grammar.
    rw [hfirst hpass] at hw hinner
    obtain ⟨r, hr, rfl⟩ := List.mem_map.mp hw
    obtain ⟨r', _, rfl⟩ := List.mem_map.mp hinner
    rw [eq_of_mem_ties_ofRule ho]
    exact .inr ⟨hmarked, r, hr, hpart, rfl⟩

theorem fits_weave {next : Nat} (hw : w ∈ woven)
    (hw' : w' ∈ (Replacements.choose terms preserve first (woven.map Woven.rule)).weave
      woven next w) : Fits terms before w' := by
  unfold Replacements.weave at hw'
  split at hw'
  next => cases hw'
  next =>
    split at hw'
    next =>
      obtain ⟨⟨body, i⟩, hbody, rfl⟩ := List.mem_map.mp hw'
      have hbody := List.fst_mem_of_mem_zipIdx hbody
      refine ⟨?_, fun o ho => ?_⟩
      · have hempty : ([] : List Term).getLast? = none := rfl
        exact Replacements.tied_weaveFrom (fun w hw => (hfits w hw).tied) .nil (fun _ => hempty)
          (hfits w hw).tied hbody
      · rcases Replacements.mem_ties_weaveFrom hbody ho with h | h | ⟨inner, hinner, hpart, hhas, h⟩
        · cases h
        · exact (hfits w hw).governed o h
        · exact governed_of_inner hfits hfirst hw hinner hpart hhas h
    next =>
      obtain rfl := List.mem_singleton.mp hw'
      exact hfits _ hw

/-- A pass keeps what holds of rules. -/
theorem fits_weaveAll (next : Nat) : ∀ w' ∈ (Replacements.choose terms preserve first
    (woven.map Woven.rule)).weaveAll woven next woven, Fits terms before w' := by
  have hmem (next : Nat) (ws : List Woven) (hws : ws ⊆ woven) : ∀ w' ∈ (Replacements.choose terms
      preserve first (woven.map Woven.rule)).weaveAll woven next ws, Fits terms before w' := by
    induction ws generalizing next with
    | nil => exact nofun
    | cons w ws ih =>
      intro w' hw'
      rcases List.mem_append.mp hw' with hw' | hw'
      · exact fits_weave hfits hfirst (hws (.head _)) hw'
      · exact ih _ (fun x hx => hws (.tail _ hx)) w' hw'
  exact hmem next woven (List.Subset.refl _)

theorem fits_weave_run (fuel count : Nat) :
    ∀ w ∈ Inlining.weave terms preserve fuel first count woven, Fits terms before w := by
  induction fuel generalizing first count woven with
  | zero => exact hfits
  | succ fuel ih =>
    unfold Inlining.weave
    simp only
    split
    next => exact hfits
    next =>
      refine ih (fits_weaveAll hfits hfirst count) ?_ _
      intro h
      cases h

end

/-- What inlining does to what may be skipped between parts. The rules with ties are the rules
after inlining, and the ties are what they say. Two parts that stood side by side in one and the
same rule before are governed by what this rule skips. Only when the symbol of the rule is marked
for inlining they may be governed by what is skipped where the symbol was used. So nothing changes
if rules skip the same as the rules of several parts of the marked symbols among their parts. -/
theorem weave_governed (terms : TermTable) (preserve : List Term) (count : Nat)
    (before : List Rule) :
    let woven := Inlining.weave terms preserve (before.length + 1) true count
      (before.map Woven.ofRule)
    let Keeps := fun (w : Woven) (o : Rule) => w.rule.skip = o.skip
    woven.map Woven.rule = (Inlining.ofRules terms preserve count before).rules ∧
      (∀ w ∈ woven, Tied before none w.rule.parts w.ties) ∧
      (∀ w ∈ woven, ∀ o, some o ∈ w.ties → Keeps w o ∨ (terms.info o.name).inlined = true ∧
        ∃ r ∈ before, o.name ∈ r.parts ∧ r.skip = w.rule.skip) ∧
      ((∀ o ∈ before, (terms.info o.name).inlined = true → 2 ≤ o.parts.length →
          ∀ r ∈ before, o.name ∈ r.parts → r.skip = o.skip) →
        ∀ w ∈ woven, ∀ o, some o ∈ w.ties → Keeps w o) := by
  intro woven Keeps
  have hfits : ∀ w ∈ woven, Fits terms before w :=
    fits_weave_run (List.forall_mem_map.mpr fun r hr => fits_ofRule hr) (fun _ => rfl) _ _
  refine ⟨?_, fun w hw => (hfits w hw).tied, fun w hw => (hfits w hw).governed, ?_⟩
  · have hrules : (before.map Woven.ofRule).map Woven.rule = before := by
      rw [List.map_map]
      exact List.map_id before
    rw [weave_rule, hrules, ofRules]
  · intro hscope w hw o ho
    rcases (hfits w hw).governed o ho with hskip | ⟨hmarked, r, hr, hpart, hskip⟩
    · exact hskip
    · obtain ⟨hmem, hlength⟩ := (hfits w hw).tied.of_mem ho
      exact hskip.symm.trans (hscope o hmem hmarked hlength r hr hpart)

end Inlining

/-- A rule of two parts, and a rule that uses it in the same scope. -/
def scopedPair : Text.Source :=
  ⟨"", "@skip \x7b \" \" \x7d @skip \x7b\x7d \x7b str \x7b \"q\" pair \x7d pair \x7b \"a\" \"b\" \x7d \x7d
    @top T \x7b \"x\" str \x7d"⟩

/-- The two parts are put into the other rule, and nothing may be skipped between them as before. -/
theorem Blueprint.inlining_governs_scopedPair :
    ∃ b journal, Blueprint.ofSource scopedPair = (.ok b, journal) ∧
      let woven := Inlining.weave b.draft.terms (b.draft.skipTerms ++ b.draft.terms.tops)
        (b.draft.rules.length + 1) true b.draft.rules.length (b.draft.rules.map Woven.ofRule)
      (∃ w ∈ woven, ∃ o, some o ∈ w.ties ∧ w.rule.name ≠ o.name) ∧
        ∀ w ∈ woven, ∀ o, some o ∈ w.ties → w.rule.skip = o.skip := by
  have hcheck : (Blueprint.ofSource scopedPair).1.toOption.any (fun b =>
      let woven := Inlining.weave b.draft.terms (b.draft.skipTerms ++ b.draft.terms.tops)
        (b.draft.rules.length + 1) true b.draft.rules.length (b.draft.rules.map Woven.ofRule)
      woven.any (fun w => w.ties.any fun tie => tie.any fun o => w.rule.name != o.name) &&
        b.draft.rules.all fun o => !(b.draft.terms.info o.name).inlined) = true := by
    decide +kernel
  obtain ⟨b, journal, h, hcheck⟩ := exists_ok_fst_of_any hcheck
  simp only [Bool.and_eq_true, List.any_eq_true, Option.any_eq_true, bne_iff_ne, List.all_eq_true,
    Bool.not_eq_true'] at hcheck
  obtain ⟨⟨w, hw, tie, htie, o, rfl, hne⟩, hmarks⟩ := hcheck
  refine ⟨b, journal, h, ⟨w, hw, o, htie, hne⟩, ?_⟩
  refine (Inlining.weave_governed _ _ _ _).2.2.2 fun o ho hmarked => ?_
  rw [hmarks o ho] at hmarked
  cases hmarked

/-- A rule of two parts between which nothing may be skipped, marked for inlining, and a rule that
uses it where blanks are skipped. -/
def markedPair : Text.Source :=
  ⟨"", "@skip \x7b \" \" \x7d @skip \x7b\x7d \x7b pair[@inline] \x7b \"a\" \"b\" \x7d \x7d
    @top T \x7b \"x\" pair \x7d"⟩

/-- The two parts are put into the other rule, and blanks may be skipped between them then. -/
theorem Blueprint.inlining_moves_markedPair :
    ∃ b journal, Blueprint.ofSource markedPair = (.ok b, journal) ∧
      ∃ w ∈ Inlining.weave b.draft.terms (b.draft.skipTerms ++ b.draft.terms.tops)
          (b.draft.rules.length + 1) true b.draft.rules.length (b.draft.rules.map Woven.ofRule),
        w.rule ∈ (Inlining.ofRules b.draft.terms (b.draft.skipTerms ++ b.draft.terms.tops)
          b.draft.rules.length b.draft.rules).rules ∧
        ∃ o, some o ∈ w.ties ∧ w.rule.skip ≠ o.skip := by
  have hcheck : (Blueprint.ofSource markedPair).1.toOption.any (fun b =>
      let woven := Inlining.weave b.draft.terms (b.draft.skipTerms ++ b.draft.terms.tops)
        (b.draft.rules.length + 1) true b.draft.rules.length (b.draft.rules.map Woven.ofRule)
      let inlined := Inlining.ofRules b.draft.terms (b.draft.skipTerms ++ b.draft.terms.tops)
        b.draft.rules.length b.draft.rules
      woven.any fun w => inlined.rules.contains w.rule &&
        w.ties.any fun tie => tie.any fun o => w.rule.skip != o.skip) = true := by
    decide +kernel
  obtain ⟨b, journal, h, hcheck⟩ := exists_ok_fst_of_any hcheck
  simp only [Bool.and_eq_true, List.any_eq_true, Option.any_eq_true, bne_iff_ne,
    List.contains_iff_mem] at hcheck
  obtain ⟨w, hw, hrule, tie, htie, o, rfl, hne⟩ := hcheck
  exact ⟨b, journal, h, w, hw, hrule, o, htie, hne⟩

end GrammarCompiler
