/-
GrammarCompiler.Proofs.Closure — what the closure of a kernel holds.

A closure starts rules one symbol at a time. What a single start does
(`startAll_ok`) is all that the invariants rest on: which items can be there at
all (`Tidy`), and which rules still have to be looked at (`Settled`). They are
kept from one stage of the closure to the next (`Stage`), whether an item of the
kernel is looked at or a pending rule.

  §1 Comparison    — folds that can fail, and items that allow more.
  §2 Single starts — looking up items, putting them back, what is pending, and the
                     stages that single starts lead to.
  §3 Tidiness      — the items that can be there.
  §4 Growth        — what is started stays, and can be followed by more.
  §5 Settlement    — an item is settled when nothing is left to do for it.
  §6 Closures      — the items of a closure, no more and no less.
-/
import GrammarCompiler.Automaton.Closure
import GrammarCompiler.Proofs.Lists
import GrammarCompiler.Proofs.Lookahead
import Mathlib.Data.List.Nodup

namespace GrammarCompiler

/-! ## §1 Comparison -/

/-- What every step of a fold keeps holds at its end. -/
theorem foldlM_ok_induction {α β ε : Type} {f : β → α → Except ε β} {P : β → Prop}
    {l : List α} {b c : β} (h : l.foldlM f b = .ok c) (hb : P b)
    (hstep : ∀ a ∈ l, ∀ b b', P b → f b a = .ok b' → P b') : P c := by
  induction l generalizing b with
  | nil =>
    cases h
    exact hb
  | cons a l ih =>
    rw [List.foldlM_cons] at h
    obtain ⟨b', hf, h⟩ := exists_ok_of_bind h
    have hb' := hstep a (.head _) b b' hb hf
    exact ih h hb' fun a' ha' => hstep a' (.tail _ ha')

theorem Item.rule_of_dotted {i : Item} {r : Rule} {n : Nat} (h : i.toDotted = ⟨r, n⟩) :
    i.rule = r := by
  rw [h]

theorem Item.dot_of_dotted {i : Item} {r : Rule} {n : Nat} (h : i.toDotted = ⟨r, n⟩) :
    i.dot = n := by
  rw [h]

/-- `i.Below j`: both are for the same dotted rule, and what can follow the
first can follow the second. -/
structure Item.Below (i j : Item) : Prop where
  dotted : j.toDotted = i.toDotted
  ahead : ∀ t, i.ahead.contains t = true → j.ahead.contains t = true

theorem Item.Below.refl (i : Item) : i.Below i :=
  ⟨rfl, fun _ h => h⟩

theorem Item.Below.trans {i j k : Item} (h : i.Below j) (h' : j.Below k) : i.Below k :=
  ⟨h'.dotted.trans h.dotted, fun t ht => h'.ahead t (h.ahead t ht)⟩

theorem Item.Below.rule {i j : Item} (h : i.Below j) : j.rule = i.rule :=
  congrArg Dotted.rule h.dotted

theorem Item.Below.dot {i j : Item} (h : i.Below j) : j.dot = i.dot :=
  congrArg Dotted.dot h.dotted

namespace Closing

variable {g : Grammar} {table : FirstTable} {kernel : List Item}

/-! ## §2 Single starts -/

/-- The items of all rules that were started. -/
def entries (c : Closing) : List Item :=
  c.started.flatMap Prod.snd

theorem lookup_put_self (name : Term) (items : List Item) (l : List (Term × List Item)) :
    (put name items l).lookup name = some items := by
  induction l with
  | nil => rw [put, List.lookup_cons_self]
  | cons entry l ih =>
    obtain ⟨key, its⟩ := entry
    unfold put
    split
    · rw [List.lookup_cons_self]
    · rename_i h
      have hk : key ≠ name := by simpa using h
      have hne : (name == key) = false := by simpa using hk.symm
      rw [List.lookup_cons, hne]
      exact ih

theorem lookup_put_of_ne {name other : Term} (h : other ≠ name) (items : List Item)
    (l : List (Term × List Item)) : (put name items l).lookup other = l.lookup other := by
  have hne : (other == name) = false := by simpa using h
  induction l with
  | nil => rw [put, List.lookup_cons, hne]
  | cons entry l ih =>
    obtain ⟨key, its⟩ := entry
    unfold put
    split
    · rename_i hk
      have hk : key = name := by simpa using hk
      subst hk
      rw [List.lookup_cons, List.lookup_cons, hne]
    · rw [List.lookup_cons, List.lookup_cons, ih]

theorem mem_keys_put {name key : Term} {items : List Item} {l : List (Term × List Item)}
    (h : key ∈ (put name items l).map Prod.fst) : key = name ∨ key ∈ l.map Prod.fst := by
  induction l with
  | nil => exact .inl (by simpa [put] using h)
  | cons entry l ih =>
    unfold put at h
    split at h
    · rw [List.map_cons, List.mem_cons] at h
      rw [List.map_cons, List.mem_cons]
      exact h.imp_right .inr
    · rw [List.map_cons, List.mem_cons] at h
      rw [List.map_cons, List.mem_cons]
      rcases h with h | h
      · exact .inr (.inl h)
      · exact (ih h).imp_right .inr

theorem nodup_keys_put {name : Term} {items : List Item} {l : List (Term × List Item)}
    (h : (l.map Prod.fst).Nodup) : ((put name items l).map Prod.fst).Nodup := by
  induction l with
  | nil => simp [put]
  | cons entry l ih =>
    rw [List.map_cons, List.nodup_cons] at h
    unfold put
    split
    · rename_i hk
      have hk : entry.1 = name := by simpa using hk
      rw [List.map_cons, List.nodup_cons]
      exact hk ▸ h
    · rename_i hk
      have hk : entry.1 ≠ name := by simpa using hk
      rw [List.map_cons, List.nodup_cons]
      refine ⟨fun hm => ?_, ih h.2⟩
      exact (mem_keys_put hm).elim hk h.1

/-- Where each symbol has one place, it is found there. -/
theorem lookup_of_mem {name : Term} {items : List Item} {l : List (Term × List Item)}
    (hl : (l.map Prod.fst).Nodup) (h : (name, items) ∈ l) : l.lookup name = some items := by
  induction l with
  | nil => cases h
  | cons entry l ih =>
    obtain ⟨key, its⟩ := entry
    rw [List.map_cons, List.nodup_cons] at hl
    rw [List.lookup_cons]
    rcases List.mem_cons.mp h with heq | hmem
    · cases heq
      rw [beq_self_eq_true]
    · have hne : name ≠ key := by
        rintro rfl
        exact hl.1 (List.mem_map.mpr ⟨(name, items), hmem, rfl⟩)
      have hne : (name == key) = false := by simpa using hne
      rw [hne]
      exact ih hl.2 hmem

theorem mem_of_lookup {name : Term} {items : List Item} {l : List (Term × List Item)}
    (h : l.lookup name = some items) : (name, items) ∈ l := by
  obtain ⟨before, after, hl, _⟩ := List.lookup_eq_some_iff.mp h
  rw [hl]
  exact List.mem_append_right _ (.head _)

theorem mem_entries {c : Closing} (hc : (c.started.map Prod.fst).Nodup) {i : Item} :
    i ∈ c.entries ↔ ∃ name items, c.started.lookup name = some items ∧ i ∈ items := by
  constructor
  · intro h
    obtain ⟨⟨name, items⟩, hm, hi⟩ := List.mem_flatMap.mp h
    exact ⟨name, items, lookup_of_mem hc hm, hi⟩
  · rintro ⟨name, items, hl, hi⟩
    exact List.mem_flatMap.mpr ⟨_, mem_of_lookup hl, hi⟩

/-- An item to which a request has added what can follow its rule. -/
def Request.grown (q : Request) (i : Item) : Item :=
  { i with
    ahead := i.ahead.union q.ahead
    ambigAhead := unionNames i.ambigAhead q.ambiguities }

theorem grow_fst (g : Grammar) (q : Request) (items : List Item) (pending : List Rule) :
    (grow g q items pending).1 = items.map q.grown := by
  induction items generalizing pending with
  | nil => rfl
  | cons i items ih =>
    simp only [grow, List.map_cons, ih]
    rfl

theorem mem_pending_grow {q : Request} {items : List Item} {pending : List Rule} {r : Rule}
    (h : r ∈ pending) : r ∈ (grow g q items pending).2 := by
  induction items generalizing pending with
  | nil => exact h
  | cons i items ih =>
    simp only [grow]
    apply ih
    split
    · exact .tail _ h
    · exact h

/-- What is pending was so before, or there is something new that can follow it. -/
theorem mem_pending_of_grow {q : Request} {items : List Item} {pending : List Rule} {r : Rule}
    (h : r ∈ (grow g q items pending).2) :
    r ∈ pending ∨ ∃ i ∈ items, i.rule = r ∧ i.ahead.union q.ahead ≠ i.ahead := by
  induction items generalizing pending with
  | nil => exact .inl h
  | cons i items ih =>
    have hnext : (grow g q (i :: items) pending).2 = (grow g q items
        (if i.ahead.union q.ahead != i.ahead && beginsWithRules g i.rule &&
          !pending.contains i.rule then i.rule :: pending else pending)).2 := rfl
    rw [hnext] at h
    rcases ih h with h | ⟨j, hj, hrest⟩
    · split at h
      next hnew =>
        simp only [Bool.and_eq_true, bne_iff_ne] at hnew
        exact (List.mem_cons.mp h).symm.imp_right fun h => ⟨i, .head _, h.symm, hnew.1.1⟩
      next => exact .inl h
    · exact .inr ⟨j, .tail _ hj, hrest⟩

/-- A rule that something new can follow is pending, if it begins with rules. -/
theorem mem_pending_grow_of_new {q : Request} {items : List Item} {pending : List Rule}
    {i : Item} (hi : i ∈ items) (hnew : i.ahead.union q.ahead ≠ i.ahead)
    (hr : beginsWithRules g i.rule = true) : i.rule ∈ (grow g q items pending).2 := by
  induction items generalizing pending with
  | nil => cases hi
  | cons j items ih =>
    rcases List.mem_cons.mp hi with rfl | hi
    · simp only [grow, TermSet.addAll]
      apply mem_pending_grow
      by_cases hp : i.rule ∈ pending <;> simp [hnew, hr, hp]
    · simp only [grow]
      exact ih hi

/-- All that starting rules on behalf of an item can do. -/
theorem startAll_ok {c c' : Closing} {i : Item} (h : startAll g table kernel c i = .ok c') :
    (Request.ofItem? g table i = none ∧ c' = c) ∨
    ∃ q, Request.ofItem? g table i = some q ∧
      c'.started = put q.name ((c.itemsFor g kernel q).map q.grown) c.started ∧
      c'.pending = (grow g q (c.itemsFor g kernel q) c.pending).2 := by
  unfold startAll at h
  split at h
  · rename_i hq
    cases h
    exact .inl ⟨hq, rfl⟩
  · rename_i q hq
    dsimp only at h
    split at h
    · cases h
    · cases h
      exact .inr ⟨q, hq, by rw [← grow_fst], rfl⟩

/-- A request is for the symbol that its item reads next. -/
theorem ofItem?_eq_some {i : Item} {q : Request}
    (h : Request.ofItem? g table i = some q) :
    i.next? = some q.name ∧ g.isTerminal q.name = false ∧
      q.ahead = table.termsAhead g i.rule i.dot i.ahead ∧
      q.ambiguities = (i.marksAt (i.dot + 1)).ambiguities := by
  unfold Request.ofItem? at h
  split at h
  · cases h
  · rename_i name hname
    split at h
    · cases h
    · rename_i ht
      cases h
      exact ⟨hname, by simpa using ht, rfl, rfl⟩

theorem ofItem?_eq_none {i : Item} (h : Request.ofItem? g table i = none) {name : Term}
    (hn : i.next? = some name) : g.isTerminal name = true := by
  unfold Request.ofItem? at h
  rw [hn] at h
  simpa using h

theorem newItem_rule (kernel : List Item) (q : Request) (r : Rule) :
    (newItem kernel q r).rule = r := by
  unfold newItem
  cases hf : kernel.find? fun i => i.dot == 0 && i.rule == r with
  | none => rfl
  | some i =>
    have := List.find?_some hf
    simp only [Bool.and_eq_true, beq_iff_eq] at this
    exact this.2

theorem newItem_dot (kernel : List Item) (q : Request) (r : Rule) :
    (newItem kernel q r).dot = 0 := by
  unfold newItem
  cases hf : kernel.find? fun i => i.dot == 0 && i.rule == r with
  | none => rfl
  | some i =>
    have := List.find?_some hf
    simp only [Bool.and_eq_true, beq_iff_eq] at this
    exact this.1

theorem toDotted_newItem (kernel : List Item) (q : Request) (r : Rule) :
    (newItem kernel q r).toDotted = ⟨r, 0⟩ := by
  calc (newItem kernel q r).toDotted
      = ⟨(newItem kernel q r).rule, (newItem kernel q r).dot⟩ := rfl
    _ = ⟨r, 0⟩ := by rw [newItem_rule, newItem_dot]

/-- A new item is one of the kernel, or nothing can follow it yet. -/
theorem newItem_cases (kernel : List Item) (q : Request) (r : Rule) :
    newItem kernel q r ∈ kernel ∨
      (newItem kernel q r).ahead = TermSet.empty ∧ (newItem kernel q r).ambigAhead = [] ∧
        ∀ k ∈ kernel, k.dot = 0 → k.rule ≠ r := by
  unfold newItem
  cases hf : kernel.find? fun i => i.dot == 0 && i.rule == r with
  | none =>
    refine .inr ⟨rfl, rfl, fun k hk hd hr => ?_⟩
    have := List.find?_eq_none.mp hf k hk
    simp [hd, hr] at this
  | some i => exact .inl (List.mem_of_find?_eq_some hf)

theorem mem_put {name : Term} {items : List Item} {l : List (Term × List Item)}
    {entry : Term × List Item} (h : entry ∈ put name items l) :
    entry = (name, items) ∨ entry ∈ l := by
  induction l with
  | nil => exact .inl (List.mem_singleton.mp h)
  | cons first l ih =>
    unfold put at h
    split at h
    · exact (List.mem_cons.mp h).imp_right (.tail _)
    · rcases List.mem_cons.mp h with rfl | h
      · exact .inr (.head _)
      · exact (ih h).imp_right (.tail _)

/-- The items that a request is about were started before, or are new. -/
theorem mem_itemsFor {c : Closing} {q : Request} {i : Item} (h : i ∈ c.itemsFor g kernel q) :
    i ∈ c.entries ∨ ∃ r ∈ g.rulesFor q.name, i = newItem kernel q r := by
  unfold itemsFor at h
  cases hl : c.started.lookup q.name with
  | none =>
    rw [hl] at h
    obtain ⟨r, hr, rfl⟩ := List.mem_map.mp h
    exact .inr ⟨r, hr, rfl⟩
  | some items =>
    rw [hl] at h
    exact .inl (List.mem_flatMap.mpr ⟨_, mem_of_lookup hl, h⟩)

/-- After rules were started on behalf of an item, there are the items that were there
before, and those for the rules of the symbol that the item reads next. -/
theorem mem_entries_startAll {c c' : Closing} {i j : Item}
    (h : startAll g table kernel c i = .ok c') (hj : j ∈ c'.entries) :
    j ∈ c.entries ∨ ∃ q, Request.ofItem? g table i = some q ∧
      ∃ k ∈ c.itemsFor g kernel q, j = q.grown k := by
  rcases startAll_ok h with ⟨_, rfl⟩ | ⟨q, hq, hstarted, _⟩
  · exact .inl hj
  · obtain ⟨entry, he, hj⟩ := List.mem_flatMap.mp hj
    rw [hstarted] at he
    rcases mem_put he with rfl | he
    · obtain ⟨k, hk, rfl⟩ := List.mem_map.mp hj
      exact .inr ⟨q, hq, k, hk, rfl⟩
    · exact .inl (List.mem_flatMap.mpr ⟨entry, he, hj⟩)

/-- What is requested for a symbol is there for all its rules afterwards. -/
theorem grown_mem_entries {c c' : Closing} {i k : Item} {q : Request}
    (h : startAll g table kernel c i = .ok c') (hq : Request.ofItem? g table i = some q)
    (hk : k ∈ c.itemsFor g kernel q) : q.grown k ∈ c'.entries := by
  rcases startAll_ok h with ⟨hnone, _⟩ | ⟨q', hq', hstarted, _⟩
  · cases hnone.symm.trans hq
  · cases hq'.symm.trans hq
    refine List.mem_flatMap.mpr ⟨(q.name, (c.itemsFor g kernel q).map q.grown), ?_,
      List.mem_map_of_mem hk⟩
    rw [hstarted]
    exact mem_of_lookup (lookup_put_self _ _ _)

/-- What is pending stays so while rules are started. -/
theorem mem_pending_startAll {c c' : Closing} {i : Item} {r : Rule}
    (h : startAll g table kernel c i = .ok c') (hr : r ∈ c.pending) : r ∈ c'.pending := by
  rcases startAll_ok h with ⟨_, rfl⟩ | ⟨_, _, _, hpending⟩
  · exact hr
  · exact hpending ▸ mem_pending_grow hr

/-- Rules can only fail to start because of what may be skipped behind them. -/
theorem startAll_error {c : Closing} {i : Item} {e : BuildError}
    (h : startAll g table kernel c i = .error e) :
    ∃ text, e = .grammar (.inconsistentSkip text) none := by
  unfold startAll at h
  split at h
  · cases h
  · dsimp only at h
    split at h
    · cases h
      exact ⟨_, rfl⟩
    · cases h

/-- `Finds g table kernel c`: the rules that can start at a kernel are those
started in `c`. -/
def Finds (g : Grammar) (table : FirstTable) (kernel : List Item) (c : Closing) : Prop :=
  ∃ first fuel, kernel.foldlM (startAll g table kernel) ⟨[], []⟩ = .ok first ∧
    settle g table kernel fuel first = .ok c

theorem closure_ok {items : List Item} (h : closure g table kernel = .ok items) :
    ∃ c, Finds g table kernel c ∧ items = c.items kernel := by
  unfold closure at h
  dsimp only at h
  obtain ⟨first, hk, h⟩ := exists_ok_of_bind h
  obtain ⟨c, hs, h⟩ := exists_ok_of_bind h
  cases h
  exact ⟨c, ⟨first, _, hk, hs⟩, rfl⟩

theorem mem_entries_of_itemOf? {c : Closing} {r : Rule} {i : Item} (h : c.itemOf? r = some i) :
    i ∈ c.entries ∧ i.rule = r := by
  unfold itemOf? at h
  obtain ⟨items, hl, hf⟩ := Option.bind_eq_some_iff.mp h
  have hr := List.find?_some hf
  simp only [Bool.and_eq_true, beq_iff_eq] at hr
  exact ⟨List.mem_flatMap.mpr ⟨_, mem_of_lookup hl, List.mem_of_find?_eq_some hf⟩, hr.2⟩

/-- `Stage g table kernel rest c`: on the way of a closure, the rules in `c` have been
started while the items `rest` of the kernel are still to be looked at. After the
kernel come the rules that are pending. -/
inductive Stage (g : Grammar) (table : FirstTable) (kernel : List Item) :
    List Item → Closing → Prop where
  | start : Stage g table kernel kernel ⟨[], []⟩
  | kernel {k : Item} {rest : List Item} {c c' : Closing} (h : Stage g table kernel (k :: rest) c)
      (hstep : startAll g table kernel c k = .ok c') : Stage g table kernel rest c'
  | pending {c c' : Closing} {r : Rule} {pending : List Rule} {i : Item}
      (h : Stage g table kernel [] c) (hp : c.pending = r :: pending)
      (hi : itemOf? { c with pending } r = some i)
      (hstep : startAll g table kernel { c with pending } i = .ok c') : Stage g table kernel [] c'
  | drop {c : Closing} {r : Rule} {pending : List Rule} (h : Stage g table kernel [] c)
      (hp : c.pending = r :: pending) (hi : itemOf? { c with pending } r = none) :
      Stage g table kernel [] { c with pending }

theorem Stage.subset {rest : List Item} {c : Closing} (h : Stage g table kernel rest c) :
    ∀ k ∈ rest, k ∈ kernel := by
  induction h with
  | start => exact fun _ hk => hk
  | kernel _ _ ih => exact fun k hk => ih k (.tail _ hk)
  | pending => exact fun _ hk => nomatch hk
  | drop => exact fun _ hk => nomatch hk

/-- On the way of a closure, rules are started on behalf of `i` when those in `c` have been
started before. -/
inductive Looks (g : Grammar) (table : FirstTable) (kernel : List Item) :
    Closing → Item → Prop where
  | kernel {k : Item} {rest : List Item} {c : Closing} (h : Stage g table kernel (k :: rest) c) :
      Looks g table kernel c k
  | pending {c : Closing} {r : Rule} {pending : List Rule} {i : Item}
      (h : Stage g table kernel [] c) (hp : c.pending = r :: pending)
      (hi : itemOf? { c with pending } r = some i) : Looks g table kernel { c with pending } i

theorem Stage.foldlM {rest : List Item} {c c' : Closing} (h : Stage g table kernel rest c)
    (hrun : rest.foldlM (startAll g table kernel) c = .ok c') : Stage g table kernel [] c' := by
  induction rest generalizing c with
  | nil =>
    cases hrun
    exact h
  | cons k rest ih =>
    rw [List.foldlM_cons] at hrun
    obtain ⟨next, hstep, hrun⟩ := exists_ok_of_bind hrun
    exact ih (.kernel h hstep) hrun

theorem Stage.settle {fuel : Nat} {c c' : Closing} (h : Stage g table kernel [] c)
    (hrun : settle g table kernel fuel c = .ok c') :
    Stage g table kernel [] c' ∧ c'.pending = [] := by
  induction fuel generalizing c with
  | zero => cases hrun
  | succ fuel ih =>
    unfold Closing.settle at hrun
    split at hrun
    next hp =>
      cases hrun
      exact ⟨h, hp⟩
    next r pending hp =>
      dsimp only at hrun
      split at hrun
      next hi => exact ih (.drop h hp hi) hrun
      next i hi =>
        obtain ⟨next, hstep, hrun⟩ := exists_ok_of_bind hrun
        exact ih (.pending h hp hi hstep) hrun

/-- A closure comes to a stage where nothing is left to be looked at. -/
theorem Finds.stage {c : Closing} (h : Finds g table kernel c) :
    Stage g table kernel [] c ∧ c.pending = [] := by
  obtain ⟨first, fuel, hfirst, hsettle⟩ := h
  exact (Stage.start.foldlM hfirst).settle hsettle

/-- What single starts keep of the started rules, on behalf of the kernel or of
what was started before, holds at the end. -/
theorem Finds.induction {P : List (Term × List Item) → Prop} {c : Closing}
    (h : Finds g table kernel c) (start : P [])
    (step : ∀ c c' i, P c.started → i ∈ kernel ∨ i ∈ c.entries →
      startAll g table kernel c i = .ok c' → P c'.started) : P c.started := by
  obtain ⟨hstage, -⟩ := h.stage
  clear h
  generalize [] = rest at hstage
  induction hstage with
  | start => exact start
  | kernel hstage hstep ih => exact step _ _ _ ih (.inl (hstage.subset _ (.head _))) hstep
  | @pending c c' r pending i _ _ hi hstep ih =>
    have hm := (mem_entries_of_itemOf? hi).1
    exact step { c with pending } c' i ih (.inr hm) hstep
  | drop _ _ _ ih => exact ih

/-- What holds of new items and is kept when more can follow them holds of all
started rules. -/
theorem Finds.entries_induction {P : Item → Prop} {c : Closing} (h : Finds g table kernel c)
    (new : ∀ i q, i ∈ kernel ∨ P i → Request.ofItem? g table i = some q →
      ∀ r ∈ g.rulesFor q.name, P (newItem kernel q r))
    (grown : ∀ i q, i ∈ kernel ∨ P i → Request.ofItem? g table i = some q →
      ∀ j, P j → P (q.grown j)) : ∀ i ∈ c.entries, P i := by
  refine h.induction (P := fun started => ∀ i ∈ started.flatMap Prod.snd, P i)
    (fun i hi => (List.not_mem_nil hi).elim) ?_
  intro c c' i hc hi hstep j hj
  rcases mem_entries_startAll hstep hj with hj | ⟨q, hq, k, hk, rfl⟩
  · exact hc j hj
  · have hask : i ∈ kernel ∨ P i := hi.imp_right (hc i)
    refine grown i q hask hq k ?_
    rcases mem_itemsFor hk with hk | ⟨r, hr, rfl⟩
    · exact hc k hk
    · exact new i q hask hq r hr

/-! ## §3 Tidiness -/

/-- A symbol that occurs in the rules of a grammar, or in those of a kernel. -/
def Occurs (g : Grammar) (kernel : List Item) (t : Term) : Prop :=
  ∃ r, (r ∈ g.rules ∨ ∃ k ∈ kernel, k.rule = r) ∧ t ∈ r.parts

/-- What is known of the item of a started rule, whatever can follow it. -/
structure IsStart (g : Grammar) (kernel : List Item) (i : Item) : Prop where
  dot : i.dot = 0
  rule : i.rule ∈ g.rules
  nonterminal : g.isTerminal i.rule.name = false
  occurs : Occurs g kernel i.rule.name

theorem mem_rulesFor {r : Rule} {name : Term} :
    r ∈ g.rulesFor name ↔ r ∈ g.rules ∧ r.name = name := by
  simp [Grammar.rulesFor, List.mem_filter]

theorem Finds.isStart {c : Closing} (h : Finds g table kernel c) :
    ∀ i ∈ c.entries, IsStart g kernel i := by
  refine h.entries_induction (fun i q hi hq r hr => ?_)
    (fun i q _ _ j hj => ⟨hj.1, hj.2, hj.3, hj.4⟩)
  obtain ⟨hnext, hterminal, _⟩ := ofItem?_eq_some hq
  obtain ⟨hr, hname⟩ := mem_rulesFor.mp hr
  have hparts : q.name ∈ i.rule.parts := List.mem_of_getElem? hnext
  have hrule : (newItem kernel q r).rule = r := newItem_rule kernel q r
  refine ⟨newItem_dot kernel q r, by rwa [hrule], by rwa [hrule, hname], ?_⟩
  rw [hrule, hname]
  rcases hi with hi | hi
  · exact ⟨i.rule, .inr ⟨i, hi, rfl⟩, hparts⟩
  · exact ⟨i.rule, .inl hi.rule, hparts⟩

/-- The started rules stand under their symbols, all rules of a symbol under
one. -/
structure Tidy (g : Grammar) (started : List (Term × List Item)) : Prop where
  keys : (started.map Prod.fst).Nodup
  rules : ∀ name items, started.lookup name = some items →
    items.map (fun i => i.rule) = g.rulesFor name
  dots : ∀ name items, started.lookup name = some items → ∀ i ∈ items, i.dot = 0
  inj : ∀ name items, started.lookup name = some items → ∀ i ∈ items, ∀ j ∈ items,
    i.rule = j.rule → i = j

theorem itemsFor_rules (kernel : List Item) {c : Closing} (hc : Tidy g c.started) (q : Request) :
    (c.itemsFor g kernel q).map (fun i => i.rule) = g.rulesFor q.name := by
  unfold itemsFor
  cases hl : c.started.lookup q.name with
  | some items => exact hc.rules q.name items hl
  | none =>
    have hrules : (fun i : Item => i.rule) ∘ newItem kernel q = id :=
      funext fun r => newItem_rule kernel q r
    rw [Option.getD_none, List.map_map, hrules, List.map_id]

theorem itemsFor_dot {c : Closing} (hc : Tidy g c.started) {q : Request} {i : Item}
    (hi : i ∈ c.itemsFor g kernel q) : i.dot = 0 := by
  unfold itemsFor at hi
  cases hl : c.started.lookup q.name with
  | some items =>
    rw [hl] at hi
    exact hc.dots q.name items hl i hi
  | none =>
    rw [hl] at hi
    obtain ⟨r, _, rfl⟩ := List.mem_map.mp hi
    exact newItem_dot kernel q r

/-- Items that are started together are for different rules. -/
theorem itemsFor_inj {c : Closing} (hc : Tidy g c.started) {q : Request} {i j : Item}
    (hi : i ∈ c.itemsFor g kernel q) (hj : j ∈ c.itemsFor g kernel q) (h : i.rule = j.rule) :
    i = j := by
  unfold itemsFor at hi hj
  cases hl : c.started.lookup q.name with
  | some items =>
    rw [hl] at hi hj
    exact hc.inj q.name items hl i hi j hj h
  | none =>
    rw [hl] at hi hj
    obtain ⟨r, _, rfl⟩ := List.mem_map.mp hi
    obtain ⟨r', _, rfl⟩ := List.mem_map.mp hj
    rw [newItem_rule, newItem_rule] at h
    rw [h]

theorem tidy_nil (g : Grammar) : Tidy g [] where
  keys := List.nodup_nil
  rules _ _ hl := nomatch hl
  dots _ _ hl := nomatch hl
  inj _ _ hl := nomatch hl

theorem Tidy.startAll {c c' : Closing} {i : Item} (hc : Tidy g c.started)
    (h : startAll g table kernel c i = .ok c') : Tidy g c'.started := by
  rcases startAll_ok h with ⟨_, rfl⟩ | ⟨q, _, hstarted, _⟩
  · exact hc
  · rw [hstarted]
    have hgrown : ∀ items, (put q.name ((c.itemsFor g kernel q).map q.grown) c.started).lookup
        q.name = some items → items = (c.itemsFor g kernel q).map q.grown := fun items hl =>
      Option.some.inj (hl.symm.trans (lookup_put_self q.name _ _))
    refine ⟨nodup_keys_put hc.keys, fun name items hl => ?_, fun name items hl j hj => ?_,
      fun name items hl j hj j' hj' heq => ?_⟩ <;>
      by_cases hn : name = q.name
    · subst hn
      rw [hgrown items hl, List.map_map, ← itemsFor_rules kernel hc q]
      rfl
    · rw [lookup_put_of_ne hn] at hl
      exact hc.rules name items hl
    · subst hn
      rw [hgrown items hl] at hj
      obtain ⟨k, hk, rfl⟩ := List.mem_map.mp hj
      exact itemsFor_dot (i := k) hc hk
    · rw [lookup_put_of_ne hn] at hl
      exact hc.dots name items hl j hj
    · subst hn
      rw [hgrown items hl] at hj hj'
      obtain ⟨k, hk, rfl⟩ := List.mem_map.mp hj
      obtain ⟨k', hk', rfl⟩ := List.mem_map.mp hj'
      exact congrArg q.grown (itemsFor_inj hc hk hk' heq)
    · rw [lookup_put_of_ne hn] at hl
      exact hc.inj name items hl j hj j' hj' heq

theorem Stage.tidy {rest : List Item} {c : Closing} (h : Stage g table kernel rest c) :
    Tidy g c.started := by
  induction h with
  | start => exact tidy_nil g
  | kernel _ hstep ih => exact ih.startAll hstep
  | @pending c _ _ pending _ _ _ _ hstep ih =>
    exact Tidy.startAll (c := { c with pending }) ih hstep
  | drop _ _ _ ih => exact ih

theorem Finds.tidy {c : Closing} (h : Finds g table kernel c) : Tidy g c.started :=
  h.stage.1.tidy

theorem Tidy.dot_eq_zero {c : Closing} (hc : Tidy g c.started) {i : Item} (hi : i ∈ c.entries) :
    i.dot = 0 := by
  obtain ⟨name, items, hl, hi⟩ := (mem_entries hc.keys).mp hi
  exact hc.dots name items hl i hi

/-- Items that were started are for different rules. -/
theorem Tidy.eq_of_rule {c : Closing} (hc : Tidy g c.started) {i j : Item} (hi : i ∈ c.entries)
    (hj : j ∈ c.entries) (h : i.rule = j.rule) : i = j := by
  obtain ⟨name, items, hl, hi⟩ := (mem_entries hc.keys).mp hi
  obtain ⟨name', items', hl', hj⟩ := (mem_entries hc.keys).mp hj
  have hrule : i.rule ∈ g.rulesFor name := hc.rules name items hl ▸ List.mem_map.mpr ⟨i, hi, rfl⟩
  have hrule' : j.rule ∈ g.rulesFor name' :=
    hc.rules name' items' hl' ▸ List.mem_map.mpr ⟨j, hj, rfl⟩
  obtain rfl : name = name' :=
    (mem_rulesFor.mp hrule).2.symm.trans (h ▸ (mem_rulesFor.mp hrule').2)
  cases hl.symm.trans hl'
  exact hc.inj name items hl i hi j hj h

/-- Of each rule at most one item was started. -/
theorem Tidy.nodup (hg : g.rules.Nodup) {c : Closing} (hc : Tidy g c.started) :
    (c.entries.map fun i => i.rule).Nodup := by
  rw [entries, List.map_flatMap, List.nodup_flatMap]
  have hrules : ∀ e ∈ c.started, e.2.map (fun i => i.rule) = g.rulesFor e.1 :=
    fun e he => hc.rules e.1 e.2 (lookup_of_mem hc.keys he)
  refine ⟨fun e he => ?_, ?_⟩
  · rw [hrules e he]
    exact hg.filter _
  · have hkeys := List.pairwise_map.mp hc.keys
    refine hkeys.imp_of_mem fun {e e'} he he' hne => ?_
    simp only [Function.onFun]
    rw [hrules e he, hrules e' he']
    intro r hr hr'
    exact hne ((mem_rulesFor.mp hr).2.symm.trans (mem_rulesFor.mp hr').2)

/-! ## §4 Growth -/

theorem Request.below_grown (q : Request) (i : Item) : i.Below (q.grown i) :=
  ⟨rfl, fun _ h => TermSet.contains_union_of_left h⟩

/-- What is started in the first closing is started in the second, and can be
followed by as much. -/
def Grows (c c' : Closing) : Prop :=
  ∀ name items, c.started.lookup name = some items →
    ∃ items', c'.started.lookup name = some items' ∧ ∀ j ∈ items', ∃ i ∈ items, i.Below j

theorem Grows.refl (c : Closing) : Grows c c :=
  fun _ items h => ⟨items, h, fun j hj => ⟨j, hj, .refl j⟩⟩

theorem Grows.trans {c d e : Closing} (h : Grows c d) (h' : Grows d e) : Grows c e := by
  intro name items hl
  obtain ⟨items', hl', hbelow⟩ := h name items hl
  obtain ⟨items'', hl'', hbelow'⟩ := h' name items' hl'
  refine ⟨items'', hl'', fun k hk => ?_⟩
  obtain ⟨j, hj, hjk⟩ := hbelow' k hk
  obtain ⟨i, hi, hij⟩ := hbelow j hj
  exact ⟨i, hi, hij.trans hjk⟩

theorem grows_startAll {c c' : Closing} {i : Item} (h : startAll g table kernel c i = .ok c') :
    Grows c c' := by
  rcases startAll_ok h with ⟨_, rfl⟩ | ⟨q, _, hstarted, _⟩
  · exact .refl _
  · intro name items hl
    rw [hstarted]
    by_cases hn : name = q.name
    · subst hn
      refine ⟨_, lookup_put_self _ _ _, fun j hj => ?_⟩
      obtain ⟨k, hk, rfl⟩ := List.mem_map.mp hj
      refine ⟨k, ?_, q.below_grown k⟩
      rwa [itemsFor, hl] at hk
    · rw [lookup_put_of_ne hn]
      exact ⟨items, hl, fun j hj => ⟨j, hj, .refl j⟩⟩

/-- What was started stays, and can be followed by as much. -/
theorem exists_below_of_startAll {c c' : Closing} {i j : Item} (hc : Tidy g c.started)
    (h : startAll g table kernel c i = .ok c') (hj : j ∈ c.entries) :
    ∃ j' ∈ c'.entries, j.Below j' := by
  have hc' := hc.startAll h
  obtain ⟨name, items, hl, hj⟩ := (mem_entries hc.keys).mp hj
  obtain ⟨items', hl', hbelow⟩ := grows_startAll h name items hl
  have hrule : j.rule ∈ items'.map fun i => i.rule := by
    rw [hc'.rules name items' hl', ← hc.rules name items hl]
    exact List.mem_map.mpr ⟨j, hj, rfl⟩
  obtain ⟨j', hj', heq⟩ := List.mem_map.mp hrule
  obtain ⟨k, hk, hkj⟩ := hbelow j' hj'
  obtain rfl : k = j := hc.inj name items hl k hk j hj (hkj.rule.symm.trans heq)
  exact ⟨j', (mem_entries hc'.keys).mpr ⟨name, items', hl', hj'⟩, hkj⟩

/-- A rule is started because an item reads its name next. -/
theorem Finds.exists_starter {c : Closing} (h : Finds g table kernel c) :
    ∀ i ∈ c.entries, ∃ j, (j ∈ kernel ∨ j ∈ c.entries) ∧ j.next? = some i.rule.name := by
  refine (h.induction (P := fun started => Tidy g started ∧ ∀ i ∈ started.flatMap Prod.snd,
    ∃ j, (j ∈ kernel ∨ j ∈ started.flatMap Prod.snd) ∧ j.next? = some i.rule.name)
    ⟨tidy_nil g, fun i hi => (List.not_mem_nil hi).elim⟩ ?_).2
  rintro c c' i ⟨hc, hold⟩ hi hstep
  refine ⟨hc.startAll hstep, fun i' hi' => ?_⟩
  have hstays : ∀ j, j ∈ kernel ∨ j ∈ c.entries → ∀ name, j.next? = some name →
      ∃ j', (j' ∈ kernel ∨ j' ∈ c'.entries) ∧ j'.next? = some name := by
    rintro j (hj | hj) name hnext
    · exact ⟨j, .inl hj, hnext⟩
    · obtain ⟨j', hj', hbelow⟩ := exists_below_of_startAll hc hstep hj
      exact ⟨j', .inr hj', hbelow.dotted ▸ hnext⟩
  rcases startAll_ok hstep with ⟨_, rfl⟩ | ⟨q, hq, hstarted, _⟩
  · exact hold i' hi'
  · obtain ⟨entry, he, hi'⟩ := List.mem_flatMap.mp hi'
    rw [hstarted] at he
    rcases mem_put he with rfl | he
    · obtain ⟨k, hk, rfl⟩ := List.mem_map.mp hi'
      have hrule : k.rule ∈ g.rulesFor q.name :=
        itemsFor_rules kernel hc q ▸ List.mem_map.mpr ⟨k, hk, rfl⟩
      rw [show (q.grown k).rule.name = q.name from (mem_rulesFor.mp hrule).2]
      exact hstays i hi q.name (ofItem?_eq_some hq).1
    · obtain ⟨j, hj, hnext⟩ := hold i' (List.mem_flatMap.mpr ⟨entry, he, hi'⟩)
      exact hstays j hj _ hnext

/-! ## §5 Settlement -/

/-- All rules that start because of an item are started, and can be followed
by what the item says. -/
def Covered (g : Grammar) (table : FirstTable) (c : Closing) (i : Item) : Prop :=
  ∀ name, i.next? = some name → g.isTerminal name = false →
    ∃ items, c.started.lookup name = some items ∧ ∀ j ∈ items, ∀ t,
      (table.termsAhead g i.rule i.dot i.ahead).contains t = true → j.ahead.contains t = true

theorem Covered.mono {c c' : Closing} {i : Item} (h : Covered g table c i) (hg : Grows c c') :
    Covered g table c' i := by
  intro name hnext hterminal
  obtain ⟨items, hl, hahead⟩ := h name hnext hterminal
  obtain ⟨items', hl', hbelow⟩ := hg name items hl
  refine ⟨items', hl', fun j hj t ht => ?_⟩
  obtain ⟨k, hk, hkj⟩ := hbelow j hj
  exact hkj.ahead t (hahead k hk t ht)

/-- Whether an item is covered depends on its dotted rule and on what can
follow it. -/
theorem Covered.congr {c : Closing} {i j : Item} (h : Covered g table c i)
    (hd : j.toDotted = i.toDotted) (ha : j.ahead = i.ahead) : Covered g table c j := by
  intro name hnext hterminal
  have hnext : i.next? = some name := by rwa [hd] at hnext
  rw [hd, ha]
  exact h name hnext hterminal

theorem covered_startAll {c c' : Closing} {i : Item}
    (h : startAll g table kernel c i = .ok c') : Covered g table c' i := by
  intro name hnext hterminal
  rcases startAll_ok h with ⟨hq, _⟩ | ⟨q, hq, hstarted, _⟩
  · have := ofItem?_eq_none hq hnext
    rw [this] at hterminal
    cases hterminal
  · obtain ⟨hname, _, hahead, _⟩ := ofItem?_eq_some hq
    cases hnext.symm.trans hname
    refine ⟨_, hstarted ▸ lookup_put_self _ _ _, fun j hj t ht => ?_⟩
    obtain ⟨k, _, rfl⟩ := List.mem_map.mp hj
    exact TermSet.contains_union_of_right (hahead ▸ ht)

/-- Nothing is left to do for the item of a started rule: it will be looked at
again, nothing can follow it, it is covered, or an item of the kernel takes
care of it. -/
inductive Settled (g : Grammar) (table : FirstTable) (kernel : List Item) (c : Closing)
    (i : Item) : Prop where
  | pending (h : i.rule ∈ c.pending)
  | empty (h : i.ahead = TermSet.empty)
  | covered (h : Covered g table c i)
  | kernel (k : Item) (hk : k ∈ kernel) (hd : i.toDotted = k.toDotted) (ha : i.ahead = k.ahead)

/-- An item stays settled while starting rules adds to a closing. -/
theorem Settled.mono {c c' : Closing} {i : Item} (h : Settled g table kernel c i)
    (hg : Grows c c') (hp : ∀ r ∈ c.pending, r ∈ c'.pending) : Settled g table kernel c' i := by
  cases h with
  | pending h => exact .pending (hp _ h)
  | empty h => exact .empty h
  | covered h => exact .covered (h.mono hg)
  | kernel k hk hd ha => exact .kernel k hk hd ha

theorem Settled.congr {c : Closing} {i j : Item} (h : Settled g table kernel c i)
    (hd : j.toDotted = i.toDotted) (ha : j.ahead = i.ahead) : Settled g table kernel c j := by
  cases h with
  | pending h =>
    have hrule : j.rule = i.rule := congrArg Dotted.rule hd
    exact .pending (hrule ▸ h)
  | empty h => exact .empty (ha.trans h)
  | covered h => exact .covered (h.congr hd ha)
  | kernel k hk hd' ha' => exact .kernel k hk (hd.trans hd') (ha.trans ha')

/-- A rule that begins without rules begins with a terminal, if at all. -/
theorem isTerminal_of_beginsWithRules_eq_false {i : Item} (hd : i.dot = 0)
    (h : beginsWithRules g i.rule = false) {name : Term} (hnext : i.next? = some name) :
    g.isTerminal name = true := by
  rw [Dotted.next?, hd, ← List.head?_eq_getElem?] at hnext
  simpa [beginsWithRules, hnext] using h

/-- An item of a rule that begins without rules needs nothing. -/
theorem covered_of_beginsWithRules_eq_false {c : Closing} {i : Item} (hd : i.dot = 0)
    (h : beginsWithRules g i.rule = false) : Covered g table c i := by
  intro name hnext hterminal
  cases hterminal.symm.trans (isTerminal_of_beginsWithRules_eq_false hd h hnext)

/-- What is there after rules were started was there before; or nothing new can follow it;
or it is pending, unless it begins without rules. -/
theorem mem_entries_cases {c c' : Closing} {i j : Item}
    (h : startAll g table kernel c i = .ok c') (ht : Tidy g c.started) (hj : j ∈ c'.entries) :
    j ∈ c.entries ∨
      (∃ q, Request.ofItem? g table i = some q ∧ ∃ k ∈ c.itemsFor g kernel q,
        j = q.grown k ∧ k.ahead.union q.ahead = k.ahead) ∨
      j.rule ∈ c'.pending ∨ j.dot = 0 ∧ beginsWithRules g j.rule = false := by
  rcases startAll_ok h with ⟨_, rfl⟩ | ⟨q', hq', _, hpending⟩
  · exact .inl hj
  rcases mem_entries_startAll h hj with hj | ⟨q, hq, k, hk, rfl⟩
  · exact .inl hj
  obtain rfl : q = q' := Option.some.inj (hq.symm.trans hq')
  by_cases hnew : k.ahead.union q.ahead = k.ahead
  · exact .inr (.inl ⟨q, hq, k, hk, rfl, hnew⟩)
  · cases hb : beginsWithRules g k.rule with
    | true =>
      have hp : k.rule ∈ (grow g q (c.itemsFor g kernel q) c.pending).2 :=
        mem_pending_grow_of_new hk hnew hb
      exact .inr (.inr (.inl (hpending ▸ hp)))
    | false =>
      have hdot : k.dot = 0 := itemsFor_dot ht hk
      exact .inr (.inr (.inr ⟨hdot, hb⟩))

/-- Starting rules on behalf of an item settles all items, if the others were
settled before. -/
theorem settled_startAll {c c' : Closing} {i : Item} (h : startAll g table kernel c i = .ok c')
    (ht : Tidy g c.started) (hc : ∀ j ∈ c.entries, j = i ∨ Settled g table kernel c j) :
    ∀ j ∈ c'.entries, Settled g table kernel c' j := by
  have hkeep : ∀ j ∈ c.entries, Settled g table kernel c' j := by
    intro j hj
    rcases hc j hj with rfl | hs
    · exact .covered (covered_startAll h)
    · exact hs.mono (grows_startAll h) fun r hr => mem_pending_startAll h hr
  intro j hj
  rcases mem_entries_cases h ht hj with hj | ⟨q, _, k, hk, rfl, hnew⟩ | hp | ⟨hdot, hb⟩
  · exact hkeep j hj
  · refine Settled.congr (i := k) ?_ rfl hnew
    rcases mem_itemsFor hk with hk | ⟨r, _, rfl⟩
    · exact hkeep k hk
    · rcases newItem_cases kernel q r with hker | ⟨hempty, _⟩
      · exact .kernel _ hker rfl rfl
      · exact .empty hempty
  · exact .pending hp
  · exact .covered (covered_of_beginsWithRules_eq_false hdot hb)

/-- A rule that was started is found again. -/
theorem itemOf?_rule {c : Closing} (hc : Tidy g c.started) {i : Item}
    (hi : i ∈ c.entries) : c.itemOf? i.rule = some i := by
  obtain ⟨name, items, hl, hmem⟩ := (mem_entries hc.keys).mp hi
  have hname : i.rule.name = name := by
    have hrule : i.rule ∈ g.rulesFor name :=
      hc.rules name items hl ▸ List.mem_map.mpr ⟨i, hmem, rfl⟩
    exact (mem_rulesFor.mp hrule).2
  cases hf : c.itemOf? i.rule with
  | none =>
    rw [itemOf?, hname, hl, Option.bind_some] at hf
    have := List.find?_eq_none.mp hf i hmem
    simp at this
  | some j =>
    obtain ⟨hj, hrule⟩ := mem_entries_of_itemOf? hf
    exact congrArg some (hc.eq_of_rule hj hi hrule)

/-- What starting rules on behalf of an item makes true of all started rules, if it was true
of the others, is true of all of them at each stage, if it only stops being true of the
rules that are no longer pending. -/
theorem Stage.entries {P : Closing → Item → Prop} {rest : List Item} {c : Closing}
    (h : Stage g table kernel rest c)
    (step : ∀ {c c' i}, Looks g table kernel c i → Tidy g c.started →
      startAll g table kernel c i = .ok c' → (∀ j ∈ c.entries, j = i ∨ P c j) →
        ∀ j ∈ c'.entries, P c' j)
    (drop : ∀ {c r pending j}, c.pending = r :: pending → P c j →
      j.rule = r ∨ P { c with pending } j) : ∀ j ∈ c.entries, P c j := by
  induction h with
  | start => exact fun j hj => (List.not_mem_nil hj).elim
  | kernel hstage hstep ih =>
    exact step (.kernel hstage) hstage.tidy hstep fun j hj => .inr (ih j hj)
  | @pending c c' r pending i hstage hp hi hstep ih =>
    refine step (c := { c with pending }) (.pending hstage hp hi) hstage.tidy hstep
      fun j hj => (drop hp (ih j hj)).imp_left ?_
    rintro rfl
    exact Option.some.inj ((itemOf?_rule (c := { c with pending }) hstage.tidy hj).symm.trans hi)
  | @drop c r pending hstage hp hi ih =>
    intro j hj
    rcases drop hp (ih j hj) with rfl | hP
    · cases hi.symm.trans (itemOf?_rule (c := { c with pending }) hstage.tidy hj)
    · exact hP

/-- What is true of an item when rules have been started on its behalf, and stays so, is
true of the items of the kernel that have been looked at. -/
theorem Stage.looked {P : Closing → Item → Prop} {rest : List Item} {c : Closing}
    (h : Stage g table kernel rest c)
    (look : ∀ {c c' i}, startAll g table kernel c i = .ok c' → P c' i)
    (step : ∀ {c c' i k}, startAll g table kernel c i = .ok c' → P c k → P c' k)
    (drop : ∀ {c k} (pending), P c k → P { c with pending } k) :
    ∀ k ∈ kernel, k ∈ rest ∨ P c k := by
  induction h with
  | start => exact fun k hk => .inl hk
  | kernel _ hstep ih =>
    intro k hk
    rcases ih k hk with hk | hP
    · rcases List.mem_cons.mp hk with rfl | hk
      · exact .inr (look hstep)
      · exact .inl hk
    · exact .inr (step hstep hP)
  | pending _ _ _ hstep ih => exact fun k hk => (ih k hk).imp_right fun hP => step hstep (drop _ hP)
  | drop _ _ _ ih => exact fun k hk => (ih k hk).imp_right fun hP => drop _ hP

theorem Settled.drop {c : Closing} {r : Rule} {pending : List Rule} {j : Item}
    (hp : c.pending = r :: pending) (h : Settled g table kernel c j) :
    j.rule = r ∨ Settled g table kernel { c with pending } j := by
  cases h with
  | pending hr => exact (List.mem_cons.mp (hp ▸ hr)).imp_right .pending
  | empty he => exact .inr (.empty he)
  | covered hcov => exact .inr (.covered hcov)
  | kernel k hk hd ha => exact .inr (.kernel k hk hd ha)

/-- At the end all items are covered that something can follow. -/
theorem Finds.covered {c : Closing} (h : Finds g table kernel c) :
    (∀ k ∈ kernel, Covered g table c k) ∧
      ∀ i ∈ c.entries, i.ahead = TermSet.empty ∨ Covered g table c i := by
  obtain ⟨hstage, hp⟩ := h.stage
  have hsettled := hstage.entries (P := Settled g table kernel)
    (fun _ ht hstep => settled_startAll hstep ht) Settled.drop
  have hkernel : ∀ k ∈ kernel, Covered g table c k := fun k hk =>
    (hstage.looked (P := Covered g table) covered_startAll
      (fun hstep hcov => hcov.mono (grows_startAll hstep)) (fun _ hcov => hcov) k hk).resolve_left
        List.not_mem_nil
  refine ⟨hkernel, fun i hi => ?_⟩
  cases hsettled i hi with
  | pending h =>
    rw [hp] at h
    cases h
  | empty h => exact .inl h
  | covered h => exact .inr h
  | kernel k hk hd ha => exact .inr ((hkernel k hk).congr hd ha)

/-! ## §6 Closures -/

theorem mem_items {c : Closing} {i : Item} :
    i ∈ c.items kernel ↔
      i ∈ kernel ∧ ¬(i.dot = 0 ∧ ∃ s ∈ c.entries, s.rule = i.rule) ∨ i ∈ c.entries := by
  simp only [items, Item.sort, List.mem_mergeSort, List.mem_append, List.mem_filter, entries,
    Bool.not_eq_true', Bool.and_eq_false_iff, List.any_eq_false, beq_eq_false_iff_ne, beq_iff_eq,
    not_and_or, not_exists, imp_iff_not_or, ne_eq]

end Closing

namespace Item

theorem mem_sort {i : Item} {items : List Item} : i ∈ Item.sort items ↔ i ∈ items :=
  List.mem_mergeSort

end Item

section

open Closing

variable {g : Grammar} {table : FirstTable} {kernel items : List Item}

/-- Of rules that were read on, a closure has the items of the kernel. -/
theorem mem_closure_of_dot_ne_zero (h : closure g table kernel = .ok items) {i : Item}
    (hd : i.dot ≠ 0) : i ∈ items ↔ i ∈ kernel := by
  obtain ⟨c, hc, rfl⟩ := closure_ok h
  rw [mem_items]
  constructor
  · rintro (⟨hi, _⟩ | hi)
    · exact hi
    · exact absurd (hc.tidy.dot_eq_zero hi) hd
  · intro hi
    exact .inl ⟨hi, fun h => hd h.1⟩

/-- Any other item of a closure is the start of a rule. -/
theorem closure_sound (h : closure g table kernel = .ok items) {i : Item} (hi : i ∈ items) :
    i ∈ kernel ∨ IsStart g kernel i := by
  obtain ⟨c, hc, rfl⟩ := closure_ok h
  rcases mem_items.mp hi with ⟨hi, _⟩ | hi
  · exact .inl hi
  · exact .inr (hc.isStart i hi)

/-- Any other item of a closure is there because an item reads the name of its
rule next. -/
theorem closure_starter (h : closure g table kernel = .ok items) {i : Item} (hi : i ∈ items) :
    i ∈ kernel ∨ ∃ j ∈ items, j.next? = some i.rule.name := by
  obtain ⟨c, hc, rfl⟩ := closure_ok h
  rcases mem_items.mp hi with ⟨hi, _⟩ | hi
  · exact .inl hi
  · obtain ⟨j, hj, hnext⟩ := hc.exists_starter i hi
    rcases hj with hj | hj
    · by_cases hs : j.dot = 0 ∧ ∃ s ∈ c.entries, s.rule = j.rule
      · obtain ⟨hd, s, hs, hr⟩ := hs
        have hdotted : s.toDotted = j.toDotted := by
          calc s.toDotted = ⟨s.rule, s.dot⟩ := rfl
            _ = ⟨j.rule, j.dot⟩ := by rw [hr, hd, hc.tidy.dot_eq_zero hs]
        exact .inr ⟨s, mem_items.mpr (.inr hs), hdotted ▸ hnext⟩
      · exact .inr ⟨j, mem_items.mpr (.inl ⟨hj, hs⟩), hnext⟩
    · exact .inr ⟨j, mem_items.mpr (.inr hj), hnext⟩

/-- Items are for different dotted rules. -/
def AreApart (items : List Item) : Prop :=
  ∀ i ∈ items, ∀ j ∈ items, i.toDotted = j.toDotted → i = j

theorem areApart_of_nodup {items : List Item} (h : (items.map Item.toDotted).Nodup) :
    AreApart items :=
  fun _ hi _ hj heq => List.inj_on_of_nodup_map h hi hj heq

/-- A closure has the items of the kernel; more may follow them there. -/
theorem closure_keeps (h : closure g table kernel = .ok items) (hk : AreApart kernel) {k : Item}
    (hmem : k ∈ kernel) :
    ∃ i ∈ items, k.Below i := by
  obtain ⟨c, hc, rfl⟩ := closure_ok h
  by_cases hs : k.dot = 0 ∧ ∃ s ∈ c.entries, s.rule = k.rule
  · obtain ⟨hd, s, hs, hr⟩ := hs
    have hkept : ∀ i ∈ c.entries, ∀ k ∈ kernel, k.dot = 0 → k.rule = i.rule → k.Below i := by
      refine hc.entries_induction (fun i q _ _ r _ => ?_) (fun i q _ _ j hj => ?_)
      · intro k hmem hd hr
        rw [newItem_rule] at hr
        rcases newItem_cases kernel q r with hnew | ⟨_, _, hnone⟩
        · have heq : (newItem kernel q r).toDotted = k.toDotted := by
            rw [toDotted_newItem, show k.toDotted = ⟨k.rule, k.dot⟩ from rfl, hr, hd]
          exact hk _ hnew _ hmem heq ▸ .refl _
        · exact absurd hr (hnone k hmem hd)
      · intro k hmem hd hr
        exact (hj k hmem hd hr).trans (q.below_grown j)
    exact ⟨s, mem_items.mpr (.inr hs), hkept s hs k hmem hd hr.symm⟩
  · exact ⟨k, mem_items.mpr (.inl ⟨hmem, hs⟩), .refl k⟩

/-- Where a symbol with rules is read next, all its rules start, and everything
can follow them that can come behind the symbol there. -/
theorem closure_complete (h : closure g table kernel = .ok items) {i : Item}
    (hi : i ∈ items) {name : Term} (hnext : i.next? = some name)
    (hterminal : g.isTerminal name = false) (hne : i.ahead ≠ TermSet.empty) {r : Rule}
    (hr : r ∈ g.rulesFor name) :
    ∃ j ∈ items, j.toDotted = ⟨r, 0⟩ ∧ ∀ t,
      (table.termsAhead g i.rule i.dot i.ahead).contains t = true → j.ahead.contains t = true := by
  obtain ⟨c, hc, rfl⟩ := closure_ok h
  obtain ⟨hkernel, hentries⟩ := hc.covered
  have hcovered : Covered g table c i := by
    rcases mem_items.mp hi with ⟨hi, _⟩ | hi
    · exact hkernel i hi
    · exact (hentries i hi).resolve_left hne
  obtain ⟨its, hl, hahead⟩ := hcovered name hnext hterminal
  rw [← hc.tidy.rules name its hl] at hr
  obtain ⟨j, hj, rfl⟩ := List.mem_map.mp hr
  have hentry : j ∈ c.entries := (mem_entries hc.tidy.keys).mpr ⟨name, its, hl, hj⟩
  have hdotted : j.toDotted = ⟨j.rule, 0⟩ := by
    rw [← hc.tidy.dot_eq_zero hentry]
  exact ⟨j, mem_items.mpr (.inr hentry), hdotted, hahead j hj⟩

/-- The items of a closure are for different dotted rules. -/
theorem closure_areApart (h : closure g table kernel = .ok items) (hk : AreApart kernel) :
    AreApart items := by
  obtain ⟨c, hc, rfl⟩ := closure_ok h
  have hdot : ∀ i ∈ c.entries, i.dot = 0 := fun i hi => hc.tidy.dot_eq_zero hi
  intro i hi j hj heq
  have hrule : i.rule = j.rule := congrArg Dotted.rule heq
  have hdots : i.dot = j.dot := congrArg Dotted.dot heq
  rcases mem_items.mp hi with ⟨hi, hnot⟩ | hi <;> rcases mem_items.mp hj with ⟨hj, hnot'⟩ | hj
  · exact hk i hi j hj heq
  · exact absurd ⟨hdots.trans (hdot j hj), j, hj, hrule.symm⟩ hnot
  · exact absurd ⟨hdots.symm.trans (hdot i hi), i, hi, hrule⟩ hnot'
  · exact hc.tidy.eq_of_rule hi hj hrule

/-- Of each dotted rule a closure has at most one item. -/
theorem closure_nodup (hg : g.rules.Nodup) (h : closure g table kernel = .ok items)
    (hk : (kernel.map Item.toDotted).Nodup) : (items.map Item.toDotted).Nodup := by
  obtain ⟨c, hc, rfl⟩ := closure_ok h
  have hperm : ((c.items kernel).map Item.toDotted).Perm _ :=
    (List.mergeSort_perm _ _).map Item.toDotted
  rw [hperm.nodup_iff, List.map_append, List.nodup_append']
  refine ⟨hk.sublist (List.filter_sublist.map _), ?_, ?_⟩
  · have hrules := hc.tidy.nodup hg
    rw [show c.started.flatMap Prod.snd = c.entries from rfl]
    exact (List.map_map (g := fun d : Dotted => d.rule) ▸ hrules).of_map
  · intro d hd hd'
    obtain ⟨k, hkept, rfl⟩ := List.mem_map.mp hd
    obtain ⟨s, hs, heq⟩ := List.mem_map.mp hd'
    have hzero : s.dot = 0 := hc.tidy.dot_eq_zero hs
    have hdot : k.dot = 0 := (congrArg Dotted.dot heq).symm.trans hzero
    have hrule : s.rule = k.rule := congrArg Dotted.rule heq
    have hnone := (List.mem_filter.mp hkept).2
    simp only [hdot, beq_self_eq_true, Bool.true_and, Bool.not_eq_true', List.any_eq_false,
      beq_iff_eq] at hnone
    exact hnone s hs hrule

end

/-- A grammar without precedences, ambiguities and cuts. -/
def Grammar.Unmarked (g : Grammar) : Prop :=
  ∀ r ∈ g.rules, ∀ m ∈ r.marks, m = Marks.none

/-- A grammar that allows no ambiguities. -/
def Grammar.NoAmbiguities (g : Grammar) : Prop :=
  ∀ r ∈ g.rules, ∀ m ∈ r.marks, m.ambiguities = []

theorem Grammar.Unmarked.noAmbiguities {g : Grammar} (hg : g.Unmarked) : g.NoAmbiguities :=
  fun r hr m hm => hg r hr m hm ▸ rfl

namespace Item

/-- The item of a rule without marks has marks only for what may be ambiguous
behind the rule. -/
theorem marksAt_eq_none {i : Item} (hr : ∀ m ∈ i.rule.marks, m = Marks.none)
    (ha : i.ambigAhead = []) (gap : Nat) : i.marksAt gap = Marks.none := by
  have hgap : i.rule.marksAt gap = Marks.none := by
    unfold Phrase.marksAt
    cases hm : i.rule.marks[gap]? with
    | none => rfl
    | some m => exact hr m (List.mem_of_getElem? hm)
  unfold marksAt
  rw [hgap, ha]
  split <;> rfl

/-- The item of a rule that allows no ambiguities allows only those behind the
rule. -/
theorem ambiguities_marksAt {i : Item} (hr : ∀ m ∈ i.rule.marks, m.ambiguities = [])
    (ha : i.ambigAhead = []) (gap : Nat) : (i.marksAt gap).ambiguities = [] := by
  have hgap : (i.rule.marksAt gap).ambiguities = [] := by
    unfold Phrase.marksAt
    cases hm : i.rule.marks[gap]? with
    | none => rfl
    | some m => exact hr m (List.mem_of_getElem? hm)
  unfold marksAt
  dsimp only
  split
  · simp [Marks.join, hgap, ha, unionNames]
  · exact hgap

end Item

/-- Where a grammar allows no ambiguities, none are allowed behind a rule. -/
theorem closure_ambigAhead {g : Grammar} {table : FirstTable} {kernel items : List Item}
    (hg : g.NoAmbiguities) (hk : ∀ k ∈ kernel, k.rule ∈ g.rules ∧ k.ambigAhead = [])
    (h : closure g table kernel = .ok items) :
    ∀ i ∈ items, i.rule ∈ g.rules ∧ i.ambigAhead = [] := by
  obtain ⟨c, hc, rfl⟩ := Closing.closure_ok h
  have hentries : ∀ i ∈ c.entries, i.rule ∈ g.rules ∧ i.ambigAhead = [] := by
    refine hc.entries_induction (fun i q _ _ r hr => ?_) (fun i q hi hq j hj => ⟨hj.1, ?_⟩)
    · refine ⟨(Closing.newItem_rule kernel q r).symm ▸ (Closing.mem_rulesFor.mp hr).1, ?_⟩
      rcases Closing.newItem_cases kernel q r with hnew | ⟨_, hnil, _⟩
      · exact (hk _ hnew).2
      · exact hnil
    · obtain ⟨hrule, hambig⟩ := hi.elim (hk i) id
      have hnone : q.ambiguities = [] := by
        rw [(Closing.ofItem?_eq_some hq).2.2.2, Item.ambiguities_marksAt (hg i.rule hrule) hambig]
      simp only [Closing.Request.grown, hj.2, hnone]
      rfl
  intro i hi
  rcases Closing.mem_items.mp hi with ⟨hi, _⟩ | hi
  · exact hk i hi
  · exact hentries i hi

end GrammarCompiler
