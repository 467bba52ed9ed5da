/-
GrammarCompiler.Proofs.Deciding — which of two actions stays.

When a reduction meets another action for the same terminal, the two are compared
once (`Cause.verdict`), and only the marks and repeats of their items count. Where
every such comparison has a winner, adding the reductions of a state leaves no
conflict, and the actions that remain are those that lose to none
(`Search.mem_addReductions_of_decided`).

  §1 Verdicts   — two actions, and one action among others.
  §2 Reductions — all reductions of a state.
  §3 Marks      — items that were read on decide by their own precedence.
-/
import GrammarCompiler.Proofs.Resolution

namespace GrammarCompiler

/-! ## §1 Verdicts -/

namespace Cause

variable {g : Grammar} {context : List Item} {new : Cause}

/-- How a new action fares against one that is there: it is preferred, not
preferred, or neither. -/
def verdict (g : Grammar) (context : List Item) (new old : Cause) : Ordering :=
  let newItems := withOrigins context new.items
  let oldItems := withOrigins context old.items
  (compareRepeats g.terms newItems oldItems).then
    (compare (marksOf newItems).precedence (marksOf oldItems).precedence)

/-- An action meets others that do something else, and each time one of the two is
preferred. -/
def IsDecided (g : Grammar) (context : List Item) (new : Cause) (causes : List Cause) : Prop :=
  ∀ old ∈ causes, old.action.term = new.action.term →
    old.action.same g new.action = false ∧ verdict g context new old ≠ .eq

theorem IsDecided.tail {old : Cause} {causes : List Cause}
    (h : IsDecided g context new (old :: causes)) : IsDecided g context new causes :=
  fun c hc => h c (.tail _ hc)

/-- Adding an action that is preferred to all others for its terminal, if there are any,
takes the place of these. -/
theorem add_of_preferred {causes : List Cause} (hd : IsDecided g context new causes)
    (h : ∀ old ∈ causes, old.action.term = new.action.term → verdict g context new old = .gt) :
    add g context new causes =
      .added ((causes.filter fun old => old.action.term != new.action.term) ++ [new]) := by
  induction causes with
  | nil => rfl
  | cons old rest ih =>
    have ih := ih hd.tail fun c hc => h c (.tail _ hc)
    unfold add
    dsimp only
    by_cases hterm : old.action.term = new.action.term
    · have hgt := h old (.head _) hterm
      unfold verdict at hgt
      dsimp only at hgt
      rw [if_neg (by simpa using hterm), (hd old (.head _) hterm).1, if_neg Bool.false_ne_true,
        hgt, ih, List.filter_cons_of_neg (by simpa using hterm)]
    · rw [if_pos (by simpa using hterm), ih, List.filter_cons_of_pos (by simpa using hterm)]
      rfl

/-- Adding an action changes nothing where another one is preferred, the only one for
the terminal. -/
theorem add_of_refused {causes : List Cause} (hd : IsDecided g context new causes)
    (hnodup : (termsOf causes).Nodup) {old : Cause} (hold : old ∈ causes)
    (hterm : old.action.term = new.action.term) (hlt : verdict g context new old = .lt) :
    add g context new causes = .refused causes := by
  induction causes with
  | nil => cases hold
  | cons first rest ih =>
    obtain ⟨hfirst, hrest⟩ := List.nodup_cons.mp hnodup
    unfold add
    dsimp only
    rcases List.mem_cons.mp hold with rfl | hold
    · unfold verdict at hlt
      dsimp only at hlt
      rw [if_neg (by simpa using hterm), (hd old (.head _) hterm).1, if_neg Bool.false_ne_true, hlt]
    · have hne : first.action.term ≠ new.action.term :=
        fun heq => hfirst (List.mem_map.mpr ⟨old, hold, hterm.trans heq.symm⟩)
      rw [if_pos (by simpa using hne), ih hd.tail hrest hold]
      rfl

end Cause

/-! ## §2 Reductions -/

namespace Search

variable {g : Grammar} {context : List Item} {new : Cause} {causes : Array Cause} {s : Search}

open Cause (verdict IsDecided)

theorem nodup_termsOf_append {causes : List Cause} (h : (termsOf causes).Nodup)
    (hnew : ∀ c ∈ causes, c.action.term ≠ new.action.term) :
    (termsOf (causes ++ [new])).Nodup := by
  rw [termsOf, List.map_append, ← termsOf, List.nodup_append']
  refine ⟨h, List.nodup_singleton _, ?_⟩
  simpa [termsOf] using hnew

/-- Adding an action where each comparison has a winner leaves the search as it is, and
of the actions those that win. -/
theorem addAction_of_decided (hd : IsDecided g context new causes.toList)
    (hnodup : (termsOf causes.toList).Nodup) (s : Search) :
    (addAction g context new causes s).2 = s ∧
      (termsOf (addAction g context new causes s).1.toList).Nodup ∧
      ∀ c, c ∈ (addAction g context new causes s).1.toList ↔
        (c ∈ causes.toList ∧ (new.action.term = c.action.term → verdict g context new c = .lt)) ∨
          c = new ∧ ∀ old ∈ causes.toList, old.action.term = new.action.term →
            verdict g context new old = .gt := by
  by_cases hterm : ∃ old ∈ causes.toList, old.action.term = new.action.term
  · obtain ⟨old, hold, hterm⟩ := hterm
    have honly : ∀ c ∈ causes.toList, c.action.term = new.action.term → c = old := by
      intro c hc heq
      exact List.inj_on_of_nodup_map hnodup hc hold (heq.trans hterm.symm)
    have hany : (causes.any fun old => old.action.term == new.action.term) = true := by
      rw [← Array.any_toList, List.any_eq_true]
      exact ⟨old, hold, by simpa using hterm⟩
    unfold addAction
    rw [if_pos hany]
    cases hv : verdict g context new old with
    | eq => exact absurd hv (hd old hold hterm).2
    | gt =>
      have hall : ∀ c ∈ causes.toList, c.action.term = new.action.term →
          verdict g context new c = .gt := fun c hc heq => honly c hc heq ▸ hv
      rw [Cause.add_of_preferred hd hall]
      refine ⟨rfl, ?_, fun c => ?_⟩
      · exact nodup_termsOf_append (hnodup.sublist (List.filter_sublist.map _))
          fun c hc => by simpa using (List.mem_filter.mp hc).2
      · simp only [Cause.Outcome.causes, List.mem_append, List.mem_filter, List.mem_singleton,
          bne_iff_ne]
        refine or_congr (and_congr_right fun hc => ⟨fun hne heq => absurd heq.symm hne,
          fun hlt heq => ?_⟩) ⟨fun heq => ⟨heq, hall⟩, And.left⟩
        cases (hall c hc heq).symm.trans (hlt heq.symm)
    | lt =>
      rw [Cause.add_of_refused hd hnodup hold hterm hv]
      refine ⟨rfl, hnodup, fun c => ⟨fun hc => .inl ⟨hc, fun heq => honly c hc heq.symm ▸ hv⟩, ?_⟩⟩
      rintro (⟨hc, _⟩ | ⟨_, hall⟩)
      · exact hc
      · cases (hall old hold hterm).symm.trans hv
  · have hnone : ∀ c ∈ causes.toList, c.action.term ≠ new.action.term :=
      fun c hc heq => hterm ⟨c, hc, heq⟩
    rw [addAction_of_new_term hnone, Array.toList_push]
    refine ⟨rfl, nodup_termsOf_append hnodup hnone, fun c => ?_⟩
    rw [List.mem_append, List.mem_singleton]
    exact or_congr ⟨fun hc => ⟨hc, fun heq => absurd heq.symm (hnone c hc)⟩, And.left⟩
      ⟨fun heq => ⟨heq, fun old hold h => absurd h (hnone old hold)⟩, And.left⟩

/-- Adding reductions for different terminals, where each comparison has a winner,
leaves the search as it is, and of all actions those that lose to none. -/
theorem mem_addReductions_of_decided {news : List Cause} (hnews : (termsOf news).Nodup)
    {r : Reading} (hd : ∀ new ∈ news, IsDecided g context new r.causes.toList)
    (hnodup : (termsOf r.causes.toList).Nodup) (s : Search) :
    (news.foldl (addReduction g context) (r, s)).2 = s ∧
      ∀ c, c ∈ (news.foldl (addReduction g context) (r, s)).1.causes.toList ↔
        (c ∈ r.causes.toList ∧ ∀ new ∈ news, new.action.term = c.action.term →
          verdict g context new c = .lt) ∨
        c ∈ news ∧ ∀ old ∈ r.causes.toList, old.action.term = c.action.term →
          verdict g context c old = .gt := by
  induction news generalizing r with
  | nil => simp
  | cons new news ih =>
    obtain ⟨hnew, hrest⟩ := List.nodup_cons.mp hnews
    have hother : ∀ c ∈ news, c.action.term ≠ new.action.term :=
      fun c hc heq => hnew (List.mem_map.mpr ⟨c, hc, heq⟩)
    obtain ⟨hkept, hdistinct, hstep⟩ := addAction_of_decided (hd new (.head _)) hnodup s
    have hadd : addReduction g context (r, s) new =
        ((addReduction g context (r, s) new).1, s) := Prod.ext rfl hkept
    -- What is added is for another terminal than the reductions that are left.
    have hsame : ∀ c ∈ news, ∀ old, old.action.term = c.action.term →
        (old ∈ (addAction g context new r.causes s).1.toList ↔ old ∈ r.causes.toList) := by
      intro c hc old heq
      have hne : old.action.term ≠ new.action.term := heq ▸ hother c hc
      rw [hstep]
      refine ⟨?_, fun hold => .inl ⟨hold, fun h => absurd h.symm hne⟩⟩
      rintro (⟨hold, _⟩ | ⟨rfl, _⟩)
      · exact hold
      · exact absurd rfl hne
    rw [List.foldl_cons, hadd]
    obtain ⟨hs, hmem⟩ := ih hrest (r := (addReduction g context (r, s) new).1)
      (fun c hc old hold heq => hd c (.tail _ hc) old ((hsame c hc old heq).mp hold) heq) hdistinct
    refine ⟨hs, fun c => (hmem c).trans ?_⟩
    rw [causes_addReduction, hstep]
    have hnews : (∀ old ∈ (addAction g context new r.causes s).1.toList,
        old.action.term = c.action.term → verdict g context c old = .gt) ∧ c ∈ news ↔
        (∀ old ∈ r.causes.toList, old.action.term = c.action.term →
          verdict g context c old = .gt) ∧ c ∈ news :=
      and_congr_left fun hc => forall_congr' fun old =>
        ⟨fun h hold heq => h ((hsame c hc old heq).mpr hold) heq,
          fun h hold heq => h ((hsame c hc old heq).mp hold) heq⟩
    rw [and_comm (a := c ∈ news), hnews]
    constructor
    · rintro (⟨⟨hc, hlt⟩ | ⟨rfl, hgt⟩, hall⟩ | ⟨hgt, hc⟩)
      · exact .inl ⟨hc, List.forall_mem_cons.mpr ⟨hlt, hall⟩⟩
      · exact .inr ⟨.head _, hgt⟩
      · exact .inr ⟨.tail _ hc, hgt⟩
    · rintro (⟨hc, hall⟩ | ⟨hc, hgt⟩)
      · obtain ⟨hlt, hall⟩ := List.forall_mem_cons.mp hall
        exact .inl ⟨.inl ⟨hc, hlt⟩, hall⟩
      · rcases List.mem_cons.mp hc with rfl | hc
        · exact .inl ⟨.inr ⟨rfl, hgt⟩, fun c' hc' heq => absurd heq (hother c' hc')⟩
        · exact .inr ⟨hgt, hc⟩

end Search

/-! ## §3 Marks -/

namespace Cause

variable {g : Grammar} {context : List Item}

/-- Items of rules that were begun earlier come from no other items of their state. -/
theorem withOrigins_of_dot_ne_zero {items : List Item} (h : ∀ i ∈ items, i.dot ≠ 0) :
    withOrigins context items = items := by
  have hfrom : ∀ (fuel : Nat) (queue : List Item), (∀ i ∈ queue, i.dot ≠ 0) →
      originsFrom context fuel items queue = items := by
    intro fuel
    induction fuel with
    | zero => exact fun _ _ => rfl
    | succ fuel ih =>
      intro queue hqueue
      cases queue with
      | nil => rfl
      | cons i queue =>
        have hi : (i.dot == 0) = false := by simpa using hqueue i (.head _)
        unfold originsFrom
        dsimp only
        rw [hi, if_neg Bool.false_ne_true]
        exact ih queue fun j hj => hqueue j (.tail _ hj)
  exact hfrom _ items h

/-- Where nothing is repeated, two actions that are due to one item each, of rules that
were begun earlier, are compared by the precedences where these items are. -/
theorem verdict_of_single {t u : Action} {i j : Item} (hi : i.dot ≠ 0) (hj : j.dot ≠ 0)
    (hrepeat : g.terms.isRepeat i.rule.name = false) :
    verdict g context ⟨t, [i]⟩ ⟨u, [j]⟩ = compare i.marks.precedence j.marks.precedence := by
  have hwith : ∀ {k : Item}, k.dot ≠ 0 → withOrigins context [k] = [k] :=
    fun hk => withOrigins_of_dot_ne_zero fun k' hk' => List.mem_singleton.mp hk' ▸ hk
  have hrepeats : compareRepeats g.terms [i] [j] = .eq := by
    unfold compareRepeats
    simp [hrepeat]
  have hmarks : ∀ k : Item, (marksOf [k]).precedence = k.marks.precedence := by
    intro k
    simp [marksOf, Marks.joinAll, Marks.join, Marks.none]
  rw [verdict]
  dsimp only
  rw [hwith hi, hwith hj, hrepeats, hmarks, hmarks]
  rfl

end Cause

end GrammarCompiler
