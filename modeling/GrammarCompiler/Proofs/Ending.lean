/-
GrammarCompiler.Proofs.Ending — closures come to an end.

A closure looks at a rule again only when there is something new that can
follow it. So what is pending, together with all that can still be new for some
rule, never becomes more (`work_startAll`), and becomes less with every look.
There is one obstacle left, a rule that starts where different things are
skipped: that is the only way for a closure to fail (`Starts.closure`), and where
all rules skip alike, each closure is found (`exists_closure`).

  §1 Measures — what is new for a rule, and what can still be.
  §2 Starts   — starting rules where all skip alike.
  §3 Closures — looking at rules until none is pending, or until one cannot be
                started.
-/
import GrammarCompiler.Proofs.Closure
import Mathlib.Algebra.Order.BigOperators.Group.List
import Mathlib.Algebra.Order.Ring.Nat

namespace GrammarCompiler

/-! ## §1 Measures -/

/-- Whether a set holds symbols of the grammar only. -/
def Grammar.Knows (g : Grammar) (s : TermSet) : Prop :=
  ∀ t, s.contains t = true → t ∈ g.terms.all

/-- How many symbols of the grammar a set does not hold. -/
def Grammar.missing (g : Grammar) (s : TermSet) : Nat :=
  g.terms.all.countP fun t => !s.contains t

section

variable {g : Grammar} {s s' : TermSet}

theorem Grammar.knows_empty (g : Grammar) : g.Knows TermSet.empty := by
  intro t ht
  rw [TermSet.contains_empty] at ht
  cases ht

theorem Grammar.Knows.union (h : g.Knows s) (h' : g.Knows s') : g.Knows (s.union s') := by
  intro t ht
  rw [TermSet.contains_union, Bool.or_eq_true] at ht
  exact ht.elim (h t) (h' t)

theorem Grammar.missing_le_empty (g : Grammar) (s : TermSet) :
    g.missing s ≤ g.missing TermSet.empty :=
  List.countP_mono_left fun t _ _ => by simp [TermSet.contains_empty]

theorem Grammar.missing_le_size (g : Grammar) (s : TermSet) : g.missing s ≤ g.terms.size := by
  have hlength : g.terms.all.length = g.terms.size := by simp [TermTable.all]
  exact hlength ▸ List.countP_le_length

/-- A set that becomes larger by symbols of the grammar misses fewer. -/
theorem Grammar.missing_union (h' : g.Knows s') :
    g.missing (s.union s') + (if s.union s' = s then 0 else 1) ≤ g.missing s := by
  have hmono : ∀ t ∈ g.terms.all, (!(s.union s').contains t) = true →
      (!s.contains t) = true := by
    intro t _ ht
    simp only [TermSet.contains_union, Bool.not_or, Bool.and_eq_true] at ht
    exact ht.1
  split
  · exact List.countP_mono_left hmono
  next hne =>
    -- Some symbol of the second set is not in the first one.
    obtain ⟨t, ht, hnew⟩ : ∃ t, s'.contains t = true ∧ s.contains t = false := by
      by_contra hnone
      refine hne (TermSet.ext fun t => ?_)
      rw [TermSet.contains_union]
      cases hs' : s'.contains t with
      | false => simp
      | true =>
        cases hs : s.contains t with
        | true => rfl
        | false => exact absurd ⟨t, hs', hs⟩ hnone
    exact FirstTable.countP_lt hmono (h' t ht) (by simp [TermSet.contains_union, ht])
      (by simp [hnew])

end

namespace Closing

variable {g : Grammar} {table : FirstTable} {kernel : List Item}

/-- What can follow a rule, as far as it is known. -/
def aheadOf (c : Closing) (r : Rule) : TermSet :=
  ((c.itemOf? r).map Item.ahead).getD TermSet.empty

/-- What there is to do at most: the rules that are pending, and one more look
for each symbol that can still be new for a rule. -/
def work (g : Grammar) (c : Closing) : Nat :=
  c.pending.length + (g.rules.map fun r => g.missing (c.aheadOf r)).sum

theorem length_pending_grow (q : Request) (items : List Item) (pending : List Rule) :
    (grow g q items pending).2.length ≤
      pending.length +
        (items.map fun i => if i.ahead.union q.ahead = i.ahead then 0 else 1).sum := by
  induction items generalizing pending with
  | nil => exact Nat.le_refl _
  | cons i items ih =>
    simp only [grow, TermSet.addAll, List.map_cons, List.sum_cons]
    refine (ih _).trans ?_
    by_cases hnew : i.ahead.union q.ahead = i.ahead
    · simp [hnew]
    · have hle : ∀ (p : Prop) [Decidable p],
          (if p then i.rule :: pending else pending).length ≤ pending.length + 1 := by
        intro p _
        by_cases hp : p <;> simp [hp]
      rw [if_neg hnew, ← Nat.add_assoc]
      exact Nat.add_le_add_right (hle _) _

theorem aheadOf_of_mem {c : Closing} (hc : Tidy g c.started) {i : Item} (hi : i ∈ c.entries) :
    c.aheadOf i.rule = i.ahead := by
  rw [aheadOf, itemOf?_rule hc hi]
  rfl

/-- What can follow a new item is no less than what was known before. -/
theorem missing_itemsFor {c : Closing} (hc : Tidy g c.started) {q : Request} {i : Item}
    (hi : i ∈ c.itemsFor g kernel q) : g.missing i.ahead ≤ g.missing (c.aheadOf i.rule) := by
  have hname : i.rule.name = q.name := by
    have hmem : i.rule ∈ g.rulesFor q.name :=
      itemsFor_rules kernel hc q ▸ List.mem_map.mpr ⟨i, hi, rfl⟩
    exact (mem_rulesFor.mp hmem).2
  cases hl : c.started.lookup q.name with
  | some items =>
    rw [itemsFor, hl, Option.getD_some] at hi
    rw [aheadOf_of_mem hc ((mem_entries hc.keys).mpr ⟨q.name, items, hl, hi⟩)]
  | none =>
    have hnone : c.itemOf? i.rule = none := by
      rw [itemOf?, hname, hl]
      rfl
    rw [aheadOf, hnone]
    exact g.missing_le_empty i.ahead

/-- Starting rules makes no more work. -/
theorem work_startAll {c c' : Closing} {i : Item} (hc : Tidy g c.started)
    (h : startAll g table kernel c i = .ok c')
    (hknows : ∀ q, Request.ofItem? g table i = some q → g.Knows q.ahead) :
    c'.work g ≤ c.work g := by
  rcases startAll_ok h with ⟨_, rfl⟩ | ⟨q, hq, hstarted, hpending⟩
  · exact Nat.le_refl _
  · have hc' := hc.startAll h
    have hrules := itemsFor_rules kernel hc q
    have hgrown : ∀ j ∈ c.itemsFor g kernel q, c'.aheadOf j.rule = j.ahead.union q.ahead := by
      intro j hj
      have hmem : q.grown j ∈ c'.entries := (mem_entries hc'.keys).mpr
        ⟨q.name, _, hstarted ▸ lookup_put_self _ _ _, List.mem_map.mpr ⟨j, hj, rfl⟩⟩
      exact aheadOf_of_mem hc' hmem
    have hother : ∀ r ∈ g.rules.filter (fun r => !(r.name == q.name)),
        g.missing (c'.aheadOf r) = g.missing (c.aheadOf r) := by
      intro r hr
      have hne : r.name ≠ q.name := by simpa using (List.mem_filter.mp hr).2
      rw [aheadOf, itemOf?, hstarted, lookup_put_of_ne hne]
      rfl
    -- The rules of the symbol have as much less to come as is pending more.
    have hsplit : ∀ f : Rule → Nat, (g.rules.map f).sum =
        ((c.itemsFor g kernel q).map fun j => f j.rule).sum +
          ((g.rules.filter fun r => !(r.name == q.name)).map f).sum := by
      intro f
      have hmap : (c.itemsFor g kernel q).map (fun j => f j.rule) = (g.rulesFor q.name).map f := by
        rw [← hrules, List.map_map]
        rfl
      rw [hmap, Grammar.rulesFor]
      induction g.rules with
      | nil => rfl
      | cons r rules ih =>
        rw [List.map_cons, List.sum_cons, ih]
        cases hn : r.name == q.name <;> simp [hn] <;> omega
    have hstep : ((c.itemsFor g kernel q).map fun j => g.missing (c'.aheadOf j.rule)).sum +
        ((c.itemsFor g kernel q).map fun j =>
          if j.ahead.union q.ahead = j.ahead then 0 else 1).sum ≤
        ((c.itemsFor g kernel q).map fun j => g.missing (c.aheadOf j.rule)).sum := by
      rw [← List.sum_map_add]
      refine List.sum_le_sum fun j hj => ?_
      rw [hgrown j hj]
      exact (Grammar.missing_union (hknows q hq)).trans (missing_itemsFor hc hj)
    have hlength := length_pending_grow (g := g) q (c.itemsFor g kernel q) c.pending
    rw [work, work, hpending, hsplit, hsplit fun r => g.missing (c.aheadOf r),
      List.map_congr_left hother]
    omega

end Closing

/-! ## §2 Starts -/

/-- The same is skipped in all rules of a grammar, and only symbols of the grammar
come behind a symbol with rules, if only such symbols come behind the rule. -/
structure Grammar.SkipsAlike (g : Grammar) (table : FirstTable) (skip : Term) : Prop where
  skip : ∀ r ∈ g.rules, r.skip = skip
  knows : ∀ r ∈ g.rules, ∀ dot t s, r.parts[dot]? = some t → g.isTerminal t = false → g.Knows s →
    g.Knows (table.termsAhead g r dot s)

/-- An item of a grammar where `skip` is skipped. -/
structure Item.Skips (g : Grammar) (skip : Term) (i : Item) : Prop where
  rule : i.rule ∈ g.rules
  skipAhead : i.skipAhead = skip
  knows : g.Knows i.ahead

namespace Closing

variable {g : Grammar} {table : FirstTable} {kernel : List Item} {skip : Term}

/-- What is requested on behalf of an item is skipped alike. -/
theorem skip_of_request (hg : g.SkipsAlike table skip) {i : Item} (hi : i.Skips g skip)
    {q : Request} (hq : Request.ofItem? g table i = some q) :
    q.skip = skip ∧ g.Knows q.ahead := by
  obtain ⟨hnext, hterminal, hahead, _⟩ := ofItem?_eq_some hq
  refine ⟨?_, hahead ▸ hg.knows i.rule hi.rule i.dot q.name i.ahead hnext hterminal hi.knows⟩
  unfold Request.ofItem? at hq
  split at hq
  · cases hq
  · split at hq
    · cases hq
    · cases hq
      dsimp only
      split
      · exact hi.skipAhead
      · exact hg.skip i.rule hi.rule

theorem skips_newItem (hk : ∀ k ∈ kernel, k.Skips g skip) {q : Request} (hq : q.skip = skip)
    {r : Rule} (hr : r ∈ g.rules) : (newItem kernel q r).Skips g skip := by
  unfold newItem
  cases hf : kernel.find? fun i => i.dot == 0 && i.rule == r with
  | none => exact ⟨hr, hq, g.knows_empty⟩
  | some k => exact hk k (List.mem_of_find?_eq_some hf)

theorem skips_itemsFor (hk : ∀ k ∈ kernel, k.Skips g skip) {c : Closing}
    (hc : ∀ i ∈ c.entries, i.Skips g skip) {q : Request} (hq : q.skip = skip) {i : Item}
    (hi : i ∈ c.itemsFor g kernel q) : i.Skips g skip := by
  rcases mem_itemsFor hi with hi | ⟨r, hr, rfl⟩
  · exact hc i hi
  · exact skips_newItem hk hq (mem_rulesFor.mp hr).1

/-- Rules that skip alike can be started. -/
theorem exists_startAll (hg : g.SkipsAlike table skip) (hk : ∀ k ∈ kernel, k.Skips g skip)
    {c : Closing} (hc : ∀ i ∈ c.entries, i.Skips g skip) {i : Item} (hi : i.Skips g skip) :
    ∃ c', startAll g table kernel c i = .ok c' ∧ ∀ i ∈ c'.entries, i.Skips g skip := by
  cases hq : Request.ofItem? g table i with
  | none => exact ⟨c, by rw [startAll, hq], hc⟩
  | some q =>
    obtain ⟨hskip, hknows⟩ := skip_of_request hg hi hq
    have hitems : ∀ j ∈ c.itemsFor g kernel q, j.Skips g skip :=
      fun j hj => skips_itemsFor hk hc hskip hj
    have hany : ((c.itemsFor g kernel q).any fun j => j.skipAhead != q.skip) = false := by
      rw [List.any_eq_false]
      intro j hj
      rw [(hitems j hj).skipAhead, hskip]
      simp
    refine ⟨_, by rw [startAll, hq]; dsimp only; rw [hany]; rfl, fun j hj => ?_⟩
    obtain ⟨entry, he, hj⟩ := List.mem_flatMap.mp hj
    rcases mem_put he with rfl | he
    · rw [grow_fst] at hj
      obtain ⟨k, hmem, rfl⟩ := List.mem_map.mp hj
      exact ⟨(hitems k hmem).rule, (hitems k hmem).skipAhead, (hitems k hmem).knows.union hknows⟩
    · exact hc j (List.mem_flatMap.mpr ⟨entry, he, hj⟩)

end Closing

/-! ## §3 Closures -/

/-- A result of which one thing holds, or an error of which another does. -/
def Outcome {ε α : Type} (E : ε → Prop) (P : α → Prop) : Except ε α → Prop
  | .ok a => P a
  | .error e => E e

theorem Outcome.mono {ε α : Type} {E : ε → Prop} {P Q : α → Prop} {x : Except ε α}
    (h : Outcome E P x) (hPQ : ∀ a, P a → Q a) : Outcome E Q x := by
  cases x with
  | ok a => exact hPQ a h
  | error e => exact h

theorem Outcome.error_mono {ε α : Type} {E E' : ε → Prop} {P : α → Prop} {x : Except ε α}
    (h : Outcome E P x) (hE : ∀ e, E e → E' e) : Outcome E' P x := by
  cases x with
  | ok a => exact h
  | error e => exact hE e h

theorem Outcome.bind {ε α β : Type} {E : ε → Prop} {P : α → Prop} {Q : β → Prop} {x : Except ε α}
    {f : α → Except ε β} (h : Outcome E P x) (hf : ∀ a, x = .ok a → P a → Outcome E Q (f a)) :
    Outcome E Q (x >>= f) := by
  cases x with
  | ok a => exact hf a rfl h
  | error e => exact h

namespace Closing

variable {g : Grammar} {table : FirstTable} {kernel : List Item} {P : Item → Prop}
  {E : BuildError → Prop}

/-- On behalf of items of a kind, items of that kind are started, and only symbols of
the grammar come behind what they read next; or else there are certain errors. -/
structure Starts (g : Grammar) (table : FirstTable) (kernel : List Item) (P : Item → Prop)
    (E : BuildError → Prop) : Prop where
  knows : ∀ i q, P i → Request.ofItem? g table i = some q → g.Knows q.ahead
  outcome : ∀ c i, (∀ j ∈ c.entries, P j) → P i →
    Outcome E (fun c' => ∀ j ∈ c'.entries, P j) (startAll g table kernel c i)

/-- Starting rules for one item after another makes no more work. -/
theorem Starts.foldlM (h : Starts g table kernel P E) {items : List Item}
    (hitems : ∀ i ∈ items, P i) {c : Closing} (ht : Tidy g c.started)
    (hc : ∀ i ∈ c.entries, P i) :
    Outcome E (fun c' => Tidy g c'.started ∧ (∀ i ∈ c'.entries, P i) ∧ c'.work g ≤ c.work g)
      (items.foldlM (startAll g table kernel) c) := by
  induction items generalizing c with
  | nil => exact ⟨ht, hc, Nat.le_refl _⟩
  | cons i items ih =>
    obtain ⟨hi, hitems⟩ := List.forall_mem_cons.mp hitems
    rw [List.foldlM_cons]
    refine (h.outcome c i hc hi).bind fun next hstep hnext => ?_
    have hwork := work_startAll ht hstep fun q hq => h.knows i q hi hq
    exact (ih hitems (ht.startAll hstep) hnext).mono
      fun c' hc' => ⟨hc'.1, hc'.2.1, hc'.2.2.trans hwork⟩

/-- Looking at pending rules comes to an end: each look leaves less to do. -/
theorem Starts.settle (h : Starts g table kernel P E) {fuel : Nat} {c : Closing}
    (ht : Tidy g c.started) (hc : ∀ i ∈ c.entries, P i) (hfuel : c.work g < fuel) :
    Outcome E (fun _ => True) (settle g table kernel fuel c) := by
  induction fuel generalizing c with
  | zero => cases hfuel
  | succ fuel ih =>
    unfold Closing.settle
    split
    · trivial
    next r pending hp =>
      have hless : work g { c with pending } + 1 = c.work g := by
        simp only [work, hp, List.length_cons]
        have : ∀ r, aheadOf { c with pending } r = c.aheadOf r := fun _ => rfl
        simp only [this]
        omega
      dsimp only
      split
      · exact ih (c := { c with pending }) ht hc (by omega)
      next i hi =>
        have hi' := hc i (mem_entries_of_itemOf? hi).1
        refine (h.outcome { c with pending } i hc hi').bind fun next hstep hnext => ?_
        have hwork := work_startAll (c := { c with pending }) ht hstep
          fun q hq => h.knows i q hi' hq
        exact ih (Tidy.startAll (c := { c with pending }) ht hstep) hnext (by omega)

/-- There is enough fuel for a closure. -/
theorem Starts.closure (h : Starts g table kernel P E) (hk : ∀ k ∈ kernel, P k) :
    Outcome E (fun _ => True) (closure g table kernel) := by
  have hstart : work g ⟨[], []⟩ ≤ g.rules.length * g.terms.size := by
    rw [work, List.length_nil, Nat.zero_add, Nat.mul_comm]
    refine (List.sum_le_card_nsmul _ g.terms.size fun n hn => ?_).trans (by simp [Nat.mul_comm])
    obtain ⟨r, _, rfl⟩ := List.mem_map.mp hn
    exact g.missing_le_size _
  have hfirst := h.foldlM hk (c := ⟨[], []⟩) (tidy_nil g) fun i hi => (List.not_mem_nil hi).elim
  refine hfirst.bind fun first _ hfirst => ?_
  obtain ⟨ht, hc, hwork⟩ := hfirst
  have hfuel : first.work g < g.rules.length * (g.terms.size + 1) + 1 := by
    rw [Nat.mul_add]
    omega
  exact (h.settle ht hc hfuel).bind fun _ _ _ => trivial

end Closing

/-- Where all rules skip alike, every closure is found. -/
theorem exists_closure {g : Grammar} {table : FirstTable} {skip : Term}
    (hg : g.SkipsAlike table skip) {kernel : List Item} (hk : ∀ k ∈ kernel, k.Skips g skip) :
    ∃ items, closure g table kernel = .ok items ∧ ∀ i ∈ items, i.Skips g skip := by
  have hstarts : Closing.Starts g table kernel (Item.Skips g skip) fun _ => False := by
    refine ⟨fun i q hi hq => (Closing.skip_of_request hg hi hq).2, fun c i hc hi => ?_⟩
    obtain ⟨c', hstep, hc'⟩ := Closing.exists_startAll hg hk hc hi
    exact hstep ▸ hc'
  have houtcome := hstarts.closure hk
  cases hclosed : closure g table kernel with
  | error e =>
    rw [hclosed] at houtcome
    cases houtcome
  | ok items =>
    refine ⟨items, rfl, fun i hi => ?_⟩
    obtain ⟨c, hfinds, rfl⟩ := Closing.closure_ok hclosed
    rcases Closing.mem_items.mp hi with ⟨hi, _⟩ | hi
    · exact hk i hi
    · refine hfinds.entries_induction (P := Item.Skips g skip) (fun j q hj hq r hr => ?_)
        (fun j q hj hq j' hj' => ?_) i hi
      · exact Closing.skips_newItem hk (Closing.skip_of_request hg (hj.elim (hk j) id) hq).1
          (Closing.mem_rulesFor.mp hr).1
      · have hknows := (Closing.skip_of_request hg (hj.elim (hk j) id) hq).2
        exact ⟨hj'.rule, hj'.skipAhead, hj'.knows.union hknows⟩

/-- Where no rule can start, the closure is the kernel. -/
theorem closure_eq_sort {g : Grammar} (table : FirstTable) {kernel : List Item}
    (h : ∀ k ∈ kernel, ∀ t, k.next? = some t → g.isTerminal t = true) :
    closure g table kernel = .ok (Item.sort kernel) := by
  have hrequest : ∀ k ∈ kernel, Closing.Request.ofItem? g table k = none := by
    intro k hk
    unfold Closing.Request.ofItem?
    cases hnext : k.next? with
    | none => rfl
    | some t => simp [h k hk t hnext]
  have hfold : ∀ items ⊆ kernel, items.foldlM (Closing.startAll g table kernel) ⟨[], []⟩ =
      .ok ⟨[], []⟩ := by
    intro items hsub
    induction items with
    | nil => rfl
    | cons i items ih =>
      obtain ⟨hi, hsub⟩ := List.cons_subset.mp hsub
      rw [List.foldlM_cons, Closing.startAll, hrequest i hi]
      exact ih hsub
  rw [closure, hfold kernel (List.Subset.refl _)]
  simp [bind, Except.bind, Closing.settle, Closing.items]
  rfl

/-- Nothing can follow the rules of a closure that cannot follow those of the kernel, or
come behind a symbol with rules. -/
theorem closure_ahead {g : Grammar} {table : FirstTable} {kernel items : List Item} {s : TermSet}
    (h : closure g table kernel = .ok items)
    (hrule : ∀ k ∈ kernel, k.rule ∈ g.rules)
    (hk : ∀ k ∈ kernel, ∀ t, k.ahead.contains t = true → s.contains t = true)
    (hstep : ∀ r ∈ g.rules, ∀ dot t after, r.parts[dot]? = some t → g.isTerminal t = false →
      (∀ u, after.contains u = true → s.contains u = true) →
        ∀ u, (table.termsAhead g r dot after).contains u = true → s.contains u = true) :
    ∀ i ∈ items, ∀ t, i.ahead.contains t = true → s.contains t = true := by
  obtain ⟨c, hc, rfl⟩ := Closing.closure_ok h
  have hentries : ∀ i ∈ c.entries, i.rule ∈ g.rules ∧
      ∀ t, i.ahead.contains t = true → s.contains t = true := by
    refine hc.entries_induction (fun i q _ _ r hr => ?_) (fun i q hi hq j hj => ⟨hj.1, ?_⟩)
    · refine ⟨(Closing.newItem_rule kernel q r).symm ▸ (Closing.mem_rulesFor.mp hr).1, ?_⟩
      rcases Closing.newItem_cases kernel q r with hnew | ⟨hempty, _⟩
      · exact hk _ hnew
      · exact fun t ht => absurd hempty (TermSet.ne_empty ht)
    · obtain ⟨hmem, hahead⟩ := hi.elim (fun hi => ⟨hrule i hi, hk i hi⟩) id
      obtain ⟨hnext, hterminal, hq, _⟩ := Closing.ofItem?_eq_some hq
      intro t ht
      rw [Closing.Request.grown, TermSet.contains_union, Bool.or_eq_true] at ht
      rcases ht with ht | ht
      · exact hj.2 t ht
      · exact hstep i.rule hmem i.dot q.name i.ahead hnext hterminal hahead t (hq ▸ ht)
  intro i hi
  rcases Closing.mem_items.mp hi with ⟨hi, _⟩ | hi
  · exact hk i hi
  · exact (hentries i hi).2

end GrammarCompiler
