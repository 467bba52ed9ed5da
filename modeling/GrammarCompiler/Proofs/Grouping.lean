/-
GrammarCompiler.Proofs.Grouping — groups keep conflicting tokens apart.

A state takes the first group that holds no opponent of its tokens. Later states
can add tokens to that group, but never an opponent of a token that is there, and
all tokens of a state that have opponents are there. So what was true of a state and
its group when it was placed stays true.

  §1 Opponents — tokens that conflict, and the threats to a state.
  §2 Places    — what putting tokens into a group does to the groups.
  §3 States    — one state after another.
  §4 Results   — the groups of all states.
-/
import GrammarCompiler.Proofs.Collapsing

namespace GrammarCompiler

/-! ## §1 Opponents -/

namespace Overlap

/-- Two tokens conflict if one of the overlaps is between them. -/
def Among (hard : List Overlap) (t u : Term) : Prop :=
  ∃ o ∈ hard, o.involves t u = true

theorem involves_comm (o : Overlap) (t u : Term) : o.involves t u = o.involves u t :=
  Bool.or_comm _ _

theorem Among.symm {hard : List Overlap} {t u : Term} (h : Among hard t u) : Among hard u t := by
  obtain ⟨o, ho, hinvolves⟩ := h
  exact ⟨o, ho, o.involves_comm t u ▸ hinvolves⟩

end Overlap

namespace TokenGroups

open Overlap (Among)

variable {g : Grammar} {origins : TokenOrigins} {skips : Skipping} {hard : List Overlap}

theorem partner?_eq_some_iff {o : Overlap} {t u : Term} :
    partner? o t = some u ↔ o.involves t u = true := by
  simp only [partner?, Overlap.involves, beq_iff_eq, Bool.or_eq_true, Bool.and_eq_true]
  grind

theorem mem_threats {wanted : List Term} {x : Threat} : x ∈ threats hard wanted ↔
    x.token ∈ wanted ∧ hard[x.index]? = some x.conflict ∧
      x.conflict.involves x.token x.other = true := by
  simp only [threats, List.mem_flatMap, List.mem_filterMap, List.mem_zipIdx_iff_getElem?,
    Option.map_eq_some_iff, partner?_eq_some_iff, Prod.exists]
  constructor
  · rintro ⟨token, htoken, conflict, index, hindex, other, hother, rfl⟩
    exact ⟨htoken, hindex, hother⟩
  · rintro ⟨htoken, hindex, hother⟩
    exact ⟨x.token, htoken, x.conflict, x.index, hindex, x.other, hother, rfl⟩

/-- The tokens of a state that have opponents. -/
theorem mem_tokens_threats {wanted : List Term} {t : Term} :
    t ∈ (threats hard wanted).map Threat.token ↔ t ∈ wanted ∧ ∃ u, Among hard t u := by
  simp only [List.mem_map, mem_threats]
  constructor
  · rintro ⟨x, ⟨hwanted, hindex, hother⟩, rfl⟩
    exact ⟨hwanted, x.other, x.conflict, List.mem_of_getElem? hindex, hother⟩
  · rintro ⟨hwanted, u, o, ho, hinvolves⟩
    obtain ⟨index, hindex⟩ := List.mem_iff_getElem?.mp ho
    exact ⟨⟨t, u, o, index⟩, ⟨hwanted, hindex, hinvolves⟩, rfl⟩

/-- The opponents of the tokens of a state. -/
theorem mem_others_threats {wanted : List Term} {u : Term} :
    u ∈ (threats hard wanted).map Threat.other ↔ ∃ t ∈ wanted, Among hard t u := by
  simp only [List.mem_map, mem_threats]
  constructor
  · rintro ⟨x, ⟨hwanted, hindex, hother⟩, rfl⟩
    exact ⟨x.token, hwanted, x.conflict, List.mem_of_getElem? hindex, hother⟩
  · rintro ⟨t, hwanted, o, ho, hinvolves⟩
    obtain ⟨index, hindex⟩ := List.mem_iff_getElem?.mp ho
    exact ⟨⟨t, u, o, index⟩, ⟨hwanted, hindex, hinvolves⟩, rfl⟩

theorem mem_wanted {s : State} {t : Term} : t ∈ wanted origins skips s ↔
    ∃ u ∈ usable skips s, origins.mainToken? u = some t := by
  simp [wanted, Term.mem_foldl_addNew]

/-! ## §2 Places -/

/-- `Places groups tokens apart k groups'`: tokens were put into the group `k`, which held none
of `apart`, and all other groups are as before. A group that is not there yet is empty. -/
structure Places (groups : List (List Term)) (tokens apart : List Term) (k : Nat)
    (groups' : List (List Term)) : Prop where
  lt_length : k < groups'.length
  length_le : groups.length ≤ groups'.length
  mem_iff : ∀ t, t ∈ groups'.getD k [] ↔ t ∈ groups.getD k [] ∨ t ∈ tokens
  apart : ∀ t ∈ apart, t ∉ groups.getD k []
  others : ∀ i, i ≠ k → groups'.getD i [] = groups.getD i []

theorem places_place (groups : List (List Term)) (tokens apart : List Term) :
    Places groups tokens apart (place groups tokens apart).1 (place groups tokens apart).2 := by
  rw [place]
  split
  next k hk =>
    obtain ⟨hlt, hfree, -⟩ := List.findIdx?_eq_some_iff_getElem.mp hk
    refine ⟨by simpa using hlt, by simp, fun t => ?_, fun t ht hmem => ?_, fun i hi => ?_⟩
    · simp [hlt, Term.mem_foldl_addNew]
    · simp only [Bool.not_eq_eq_eq_not, Bool.not_true, List.any_eq_false, List.contains_eq_mem,
        decide_eq_true_eq] at hfree
      rw [List.getD_eq_getElem _ _ hlt] at hmem
      exact hfree t ht hmem
    · simp [List.getD_eq_getElem?_getD, Ne.symm hi]
  next =>
    refine ⟨by simp, by simp, fun t => ?_, fun t ht hmem => ?_, fun i hi => ?_⟩
    · simp [Term.mem_foldl_addNew]
    · simp at hmem
    · simp only [List.getD_eq_getElem?_getD, List.getElem?_append]
      split
      next => rfl
      next hge =>
        rw [List.getElem?_eq_none (by simp; omega), List.getElem?_eq_none (by omega)]

/-! ## §3 States -/

theorem groups_foldl_report {s : State} {wanted : List Term} {threats : List Threat}
    {p : Progress} : (threats.foldl (report g s wanted) p).groups = p.groups := by
  induction threats generalizing p with
  | nil => rfl
  | cons t threats ih =>
    rw [List.foldl_cons, ih, report]
    split <;> rfl

/-- If nothing is reported, the tokens of a state have no opponents among each other. -/
theorem quiet_of_foldl_report {s : State} {wanted : List Term} {threats : List Threat}
    {p : Progress} (hreported : p.descriptions = [] → p.reported = [])
    (h : (threats.foldl (report g s wanted) p).descriptions = []) :
    p.descriptions = [] ∧ (threats.foldl (report g s wanted) p).reported = [] ∧
      ∀ x ∈ threats, x.other ∉ wanted := by
  induction threats generalizing p with
  | nil => exact ⟨h, hreported h, nofun⟩
  | cons x threats ih =>
    rw [List.foldl_cons] at h ⊢
    have hnext : (report g s wanted p x).descriptions = [] →
        (report g s wanted p x).reported = [] := by
      rw [report]
      split
      next => simp
      next => exact hreported
    obtain ⟨hdescriptions, hlast, hothers⟩ := ih hnext h
    rw [report] at hdescriptions
    split at hdescriptions
    next => simp at hdescriptions
    next hcond =>
      refine ⟨hdescriptions, hlast, List.forall_mem_cons.mpr ⟨fun hmem => hcond ?_, hothers⟩⟩
      simp [hmem, hreported hdescriptions]

/-- What finding the group of a state comes down to. -/
theorem assign_cases {p p' : Progress} {s : State} (h : assign g origins skips hard p s = .ok p') :
    (s.defaultReduce.isSome ∨ wanted origins skips s = []) ∧
        p' = { p with states := p.states.push s } ∨
      s.defaultReduce = none ∧ ∃ k groups,
        Places p.groups ((threats hard (wanted origins skips s)).map Threat.token)
          ((threats hard (wanted origins skips s)).map Threat.other) k groups ∧
        p' = { (threats hard (wanted origins skips s)).foldl
            (report g s (wanted origins skips s)) p with
          states := p.states.push { s with group := some k }, groups } := by
  rw [assign] at h
  split at h
  next hdefault =>
    cases h
    exact .inl ⟨.inl hdefault, rfl⟩
  next hdefault =>
    split at h
    next => cases h
    next =>
      dsimp only at h
      split at h
      next hempty =>
        cases h
        exact .inl ⟨.inr (List.isEmpty_iff.mp hempty), rfl⟩
      next =>
        cases h
        refine .inr ⟨by simpa using hdefault, _, _, places_place _ _ _, ?_⟩
        rw [groups_foldl_report, states_foldl_report]

/-- A state has found its group: the tokens that it reads are there if they have opponents, and
their opponents are not. -/
def IsServed (origins : TokenOrigins) (skips : Skipping) (hard : List Overlap)
    (groups : List (List Term)) (s : State) : Prop :=
  ∃ k < groups.length, s.group = some k ∧ ∀ t ∈ wanted origins skips s, ∀ u, Among hard t u →
    t ∈ groups.getD k [] ∧ u ∉ groups.getD k []

/-- Groups hold no opponents, and all states so far that read tokens have found theirs. -/
structure Separates (origins : TokenOrigins) (skips : Skipping) (hard : List Overlap)
    (p : Progress) : Prop where
  reported : p.reported = []
  apart : ∀ i, ∀ t ∈ p.groups.getD i [], ∀ u ∈ p.groups.getD i [], ¬ Among hard t u
  served : ∀ s ∈ p.states, s.defaultReduce = none → wanted origins skips s ≠ [] →
    IsServed origins skips hard p.groups s

variable {groups groups' : List (List Term)} {s : State} {k : Nat}

/-- What is added to a group has no opponents there. -/
theorem Places.not_mem_of_among (h : Places groups
    ((threats hard (wanted origins skips s)).map Threat.token)
    ((threats hard (wanted origins skips s)).map Threat.other) k groups')
    {t u : Term} (ht : t ∈ wanted origins skips s) (hamong : Among hard t u) :
    u ∉ groups.getD k [] :=
  h.apart u (mem_others_threats.mpr ⟨t, ht, hamong⟩)

/-- The groups of the states before stay right for them. -/
theorem Places.isServed (h : Places groups
    ((threats hard (wanted origins skips s)).map Threat.token)
    ((threats hard (wanted origins skips s)).map Threat.other) k groups')
    {old : State} (hold : IsServed origins skips hard groups old) :
    IsServed origins skips hard groups' old := by
  obtain ⟨i, hi, hgroup, hserved⟩ := hold
  refine ⟨i, Nat.lt_of_lt_of_le hi h.length_le, hgroup, fun t ht u hamong => ?_⟩
  obtain ⟨hmem, hnot⟩ := hserved t ht u hamong
  by_cases heq : i = k
  · subst heq
    refine ⟨(h.mem_iff t).mpr (.inl hmem), fun hu => ?_⟩
    rcases (h.mem_iff u).mp hu with hu | hu
    · exact hnot hu
    -- An opponent of `t` would not have been put into a group that holds `t`.
    · exact h.not_mem_of_among (mem_tokens_threats.mp hu).1 hamong.symm hmem
  · rw [h.others i heq]
    exact ⟨hmem, hnot⟩

/-- No group comes to hold opponents if the tokens of the state are none. -/
theorem Places.apart_of_quiet (h : Places groups
    ((threats hard (wanted origins skips s)).map Threat.token)
    ((threats hard (wanted origins skips s)).map Threat.other) k groups')
    (hquiet : ∀ t ∈ wanted origins skips s, ∀ u ∈ wanted origins skips s, ¬ Among hard t u)
    (hapart : ∀ i, ∀ t ∈ groups.getD i [], ∀ u ∈ groups.getD i [], ¬ Among hard t u) (i : Nat) :
    ∀ t ∈ groups'.getD i [], ∀ u ∈ groups'.getD i [], ¬ Among hard t u := by
  intro t ht u hu hamong
  by_cases heq : i = k
  · subst heq
    rcases (h.mem_iff t).mp ht with ht | ht <;> rcases (h.mem_iff u).mp hu with hu | hu
    · exact hapart i t ht u hu hamong
    · exact h.not_mem_of_among (mem_tokens_threats.mp hu).1 hamong.symm ht
    · exact h.not_mem_of_among (mem_tokens_threats.mp ht).1 hamong hu
    · exact hquiet t (mem_tokens_threats.mp ht).1 u (mem_tokens_threats.mp hu).1 hamong
  · rw [h.others i heq] at ht hu
    exact hapart i t ht u hu hamong

theorem Separates.assign {p p' : Progress} (hp : p.descriptions = [] → Separates origins skips hard p)
    (h : assign g origins skips hard p s = .ok p') (hquiet : p'.descriptions = []) :
    Separates origins skips hard p' := by
  rcases assign_cases h with ⟨hnone, rfl⟩ | ⟨_, k, groups, hplaces, rfl⟩
  · have hp := hp hquiet
    refine ⟨hp.reported, hp.apart, fun s' hs' hdefault hwanted => ?_⟩
    rcases Array.mem_push.mp hs' with hs' | rfl
    · exact hp.served s' hs' hdefault hwanted
    · rcases hnone with hnone | hnone
      · rw [hdefault] at hnone
        cases hnone
      · exact absurd hnone hwanted
  · obtain ⟨hbefore, hreported, hothers⟩ :=
      quiet_of_foldl_report (fun hd => (hp hd).reported) hquiet
    have hp := hp hbefore
    have hinner : ∀ t ∈ wanted origins skips s, ∀ u ∈ wanted origins skips s,
        ¬ Among hard t u := by
      intro t ht u hu hamong
      obtain ⟨x, hx, rfl⟩ := List.mem_map.mp (mem_others_threats.mpr ⟨t, ht, hamong⟩)
      exact hothers x hx hu
    refine ⟨hreported, hplaces.apart_of_quiet hinner hp.apart, fun s' hs' hdefault hwanted => ?_⟩
    rcases Array.mem_push.mp hs' with hs' | rfl
    · exact hplaces.isServed (hp.served s' hs' hdefault hwanted)
    · refine ⟨k, hplaces.lt_length, rfl, fun t ht u hamong => ⟨?_, fun hu => ?_⟩⟩
      · exact (hplaces.mem_iff t).mpr (.inr (mem_tokens_threats.mpr ⟨ht, u, hamong⟩))
      · rcases (hplaces.mem_iff u).mp hu with hu | hu
        · exact hplaces.not_mem_of_among ht hamong hu
        · exact hinner t ht u (mem_tokens_threats.mp hu).1 hamong

theorem Separates.foldlM {states : List State} {p p' : Progress}
    (hp : p.descriptions = [] → Separates origins skips hard p)
    (h : states.foldlM (TokenGroups.assign g origins skips hard) p = .ok p')
    (hquiet : p'.descriptions = []) : Separates origins skips hard p' := by
  induction states generalizing p with
  | nil =>
    cases h
    exact hp hquiet
  | cons s states ih =>
    rw [List.foldlM_cons] at h
    obtain ⟨p₁, hfirst, h⟩ := exists_ok_of_bind h
    exact ih (fun hq => Separates.assign hp hfirst hq) h

/-- The tokens in groups have opponents, and are read in one of the states so far. -/
def Collects (origins : TokenOrigins) (skips : Skipping) (hard : List Overlap) (p : Progress) :
    Prop :=
  ∀ k, ∀ t ∈ p.groups.getD k [], (∃ u, Among hard t u) ∧
    ∃ s ∈ p.states, s.defaultReduce = none ∧ t ∈ wanted origins skips s

theorem Collects.assign {p p' : Progress} (hp : Collects origins skips hard p)
    (h : assign g origins skips hard p s = .ok p') : Collects origins skips hard p' := by
  have hpush {s' : State} {t : Term} (ht : ∃ s ∈ p.states, s.defaultReduce = none ∧
      t ∈ wanted origins skips s) : ∃ s ∈ p.states.push s', s.defaultReduce = none ∧
        t ∈ wanted origins skips s := by
    obtain ⟨s, hs, hdefault, ht⟩ := ht
    exact ⟨s, Array.mem_push.mpr (.inl hs), hdefault, ht⟩
  rcases assign_cases h with ⟨_, rfl⟩ | ⟨hdefault, k, groups, hplaces, rfl⟩
  · intro i t ht
    exact (hp i t ht).imp_right hpush
  · intro i t ht
    by_cases heq : i = k
    · subst heq
      rcases (hplaces.mem_iff t).mp ht with ht | ht
      · exact (hp i t ht).imp_right hpush
      · obtain ⟨hwanted, hopponent⟩ := mem_tokens_threats.mp ht
        exact ⟨hopponent, _, Array.mem_push_self, hdefault, hwanted⟩
    · have ht : t ∈ groups.getD i [] := ht
      rw [hplaces.others i heq] at ht
      exact (hp i t ht).imp_right hpush

/-- States with groups read tokens, and their groups are there. -/
def Seats (p : Progress) : Prop :=
  ∀ s ∈ p.states, ∀ k, s.group = some k → s.defaultReduce = none ∧ k < p.groups.length

theorem Seats.assign {p p' : Progress} (hp : Seats p) (hs : s.group = none)
    (h : TokenGroups.assign g origins skips hard p s = .ok p') : Seats p' := by
  rcases assign_cases h with ⟨_, rfl⟩ | ⟨hdefault, k, groups, hplaces, rfl⟩
  · intro s' hs' i hi
    rcases Array.mem_push.mp hs' with hs' | rfl
    · exact hp s' hs' i hi
    · rw [hs] at hi
      cases hi
  · intro s' hs' i hi
    rcases Array.mem_push.mp hs' with hs' | rfl
    · obtain ⟨hdefault', hlt⟩ := hp s' hs' i hi
      exact ⟨hdefault', Nat.lt_of_lt_of_le hlt hplaces.length_le⟩
    · cases hi
      exact ⟨hdefault, hplaces.lt_length⟩

/-! ## §4 Results -/

/-- All states find their groups without conflicts, and there are not too many groups. -/
theorem exists_progress_of_ofConflicts {conflicts : List Overlap} {states : Automaton}
    {result : TokenGroups} (h : ofConflicts g origins skips conflicts states = .ok result) :
    result.hard = conflicts.filter (fun o => o.soft == 0) ∧ result.groups.length ≤ 16 ∧
      ∃ p, states.toList.foldlM (assign g origins skips result.hard) {} = .ok p ∧
        p.descriptions = [] ∧ p.states = result.states ∧ p.groups = result.groups := by
  have hhard : (conflicts.partition fun o => o.soft != 0).2 =
      conflicts.filter fun o => o.soft == 0 := by
    rw [List.partition_eq_filter_filter]
    refine List.filter_congr fun o _ => ?_
    simp [bne]
  obtain ⟨p, hfold, h⟩ := exists_ok_of_bind h
  rw [← Array.foldlM_toList] at hfold
  dsimp only at h
  split at h
  next => cases h
  next hdescriptions =>
    split at h
    next => cases h
    next hlength =>
      cases h
      exact ⟨hhard, Nat.le_of_not_lt hlength, p, hfold, by simpa using hdescriptions, rfl, rfl⟩

/-- The groups of all states, if there are no conflicts within states and not too many groups. -/
theorem separates_of_ofConflicts {conflicts : List Overlap} {states : Automaton}
    {result : TokenGroups} (h : ofConflicts g origins skips conflicts states = .ok result) :
    result.hard = conflicts.filter (fun o => o.soft == 0) ∧ result.groups.length ≤ 16 ∧
      ∃ p, Separates origins skips result.hard p ∧ Collects origins skips result.hard p ∧
        p.states = result.states ∧ p.groups = result.groups := by
  obtain ⟨hhard, hlength, p, hfold, hquiet, hstates, hgroups⟩ := exists_progress_of_ofConflicts h
  exact ⟨hhard, hlength, p, Separates.foldlM (fun _ => ⟨rfl, by simp, by simp⟩) hfold hquiet,
    foldlM_ok_induction hfold (by simp [Collects]) fun _ _ _ _ hp h => hp.assign h, hstates,
    hgroups⟩

/-- States that had no groups before have a group only if they read tokens. -/
theorem seats_of_ofConflicts {conflicts : List Overlap} {states : Automaton} {result : TokenGroups}
    (hstates : ∀ s ∈ states, s.group = none)
    (h : ofConflicts g origins skips conflicts states = .ok result) {s : State}
    (hs : s ∈ result.states) {k : Nat} (hk : s.group = some k) :
    s.defaultReduce = none ∧ k < result.groups.length := by
  obtain ⟨_, _, p, hfold, _, hresult, hgroups⟩ := exists_progress_of_ofConflicts h
  have hseats : Seats p := foldlM_ok_induction hfold (by simp [Seats]) fun s hs _ _ hp h =>
    hp.assign (hstates s (Array.mem_toList_iff.mp hs)) h
  rw [← hgroups]
  exact hseats s (hresult ▸ hs) k hk

end TokenGroups

end GrammarCompiler
