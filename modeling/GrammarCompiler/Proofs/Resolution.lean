/-
GrammarCompiler.Proofs.Resolution — what conflict resolution leaves.

An action only ever gives way to another one for the same terminal. So a state
has an action for exactly those terminals that its items can do something with,
whatever was decided between them (`Built.mem_terms_iff`), and just one where no
ambiguity is allowed (`Built.nodup_terms`). Gotos stay as well, unless reductions
took the place of other actions; then a state forgets the symbols that cannot
begin with a terminal it still reads (`Built.exists_goto_iff`).

  §1 Terminals — no terminal is left without an action.
  §2 Choices   — one action for each terminal where no ambiguity is allowed.
  §3 Takeovers — whether reductions took the place of other actions.
  §4 States    — the actions and gotos of a state in its final form.
  §5 Runs      — runs where each terminal has one action.
-/
import GrammarCompiler.Proofs.Construction
import Mathlib.Tactic.Tauto

namespace GrammarCompiler

/-! ## §1 Terminals -/

/-- The terminals that actions are for. -/
def termsOf (causes : List Cause) : List Term :=
  causes.map fun c => c.action.term

namespace Cause

variable {g : Grammar} {context : List Item} {new : Cause}

/-- Adding an action leaves no terminal without one. -/
theorem mem_termsOf_add {causes : List Cause} {t : Term} :
    t ∈ termsOf (add g context new causes).causes ↔ t = new.action.term ∨ t ∈ termsOf causes := by
  induction causes with
  | nil => simp [add, Outcome.causes, termsOf]
  | cons old rest ih =>
    have hbehind : t ∈ termsOf ((add g context new rest).behind old).causes ↔
        t = new.action.term ∨ t ∈ termsOf (old :: rest) := by
      rw [causes_behind, termsOf, List.map_cons, List.mem_cons, ← termsOf, ih]
      simp only [termsOf, List.map_cons, List.mem_cons]
      tauto
    unfold add
    dsimp only
    by_cases hterm : old.action.term = new.action.term
    · -- The action that was there before is for the same terminal.
      have hkeep : t ∈ termsOf (old :: rest) ↔
          t = new.action.term ∨ t ∈ termsOf (old :: rest) := by
        simp [termsOf, hterm]
      rw [if_neg (by simpa using hterm)]
      split
      · exact hkeep
      · split
        · rw [ih]
          simp [termsOf, hterm]
        · exact hkeep
        · split
          · exact hbehind
          · exact hkeep
    · rw [if_pos (by simpa using hterm)]
      exact hbehind

end Cause

namespace Search

variable {g : Grammar} {table : FirstTable} {context : List Item}

/-- What adding an action to a state leaves there. -/
theorem addAction_fst (new : Cause) (causes : Array Cause) (s : Search) :
    (addAction g context new causes s).1.toList =
      if new.action.term ∈ termsOf causes.toList then (Cause.add g context new causes.toList).causes
      else causes.toList ++ [new] := by
  have hany : (causes.any fun old => old.action.term == new.action.term) = true ↔
      new.action.term ∈ termsOf causes.toList := by
    rw [← Array.any_toList, List.any_eq_true]
    simp [termsOf]
  unfold addAction
  by_cases h : new.action.term ∈ termsOf causes.toList
  · rw [if_pos (hany.mpr h), if_pos h]
    split
    · rename_i heq
      rw [heq]
      rfl
    · rfl
  · rw [if_neg (fun h' => h (hany.mp h')), if_neg h, Array.toList_push]

theorem mem_termsOf_addAction {new : Cause} {causes : Array Cause} {s : Search} {t : Term} :
    t ∈ termsOf (addAction g context new causes s).1.toList ↔
      t = new.action.term ∨ t ∈ termsOf causes.toList := by
  rw [addAction_fst]
  split
  · exact Cause.mem_termsOf_add
  · simp [termsOf, or_comm]

theorem causes_addReduction (new : Cause) (r : Reading) (s : Search) :
    (addReduction g context (r, s) new).1.causes = (addAction g context new r.causes s).1 :=
  rfl

theorem replaced_addReduction (new : Cause) (r : Reading) (s : Search) :
    (addReduction g context (r, s) new).1.replaced =
      (r.replaced || (addAction g context new r.causes s).1.size == r.causes.size) :=
  rfl

/-- Adding reductions leaves no terminal without an action. -/
theorem mem_termsOf_addReductions {news : List Cause} {r : Reading} {s : Search} {t : Term} :
    t ∈ termsOf (news.foldl (addReduction g context) (r, s)).1.causes.toList ↔
      t ∈ termsOf news ∨ t ∈ termsOf r.causes.toList := by
  induction news generalizing r s with
  | nil => simp [termsOf]
  | cons new news ih =>
    have hrest := ih (r := (addReduction g context (r, s) new).1)
      (s := (addReduction g context (r, s) new).2)
    rw [causes_addReduction, mem_termsOf_addAction] at hrest
    rw [List.foldl_cons, hrest]
    simp only [termsOf, List.map_cons, List.mem_cons]
    tauto

/-- Adding reductions adds nothing else. -/
theorem mem_addReductions {news : List Cause} {r : Reading} {s : Search} {c : Cause}
    (h : c ∈ (news.foldl (addReduction g context) (r, s)).1.causes.toList) :
    c ∈ news ∨ c ∈ r.causes.toList := by
  induction news generalizing r s with
  | nil => exact .inr h
  | cons new news ih =>
    rcases ih (r := (addReduction g context (r, s) new).1) h with hc | hc
    · exact .inl (.tail _ hc)
    · rw [causes_addReduction, addAction_fst] at hc
      split at hc
      · rcases Cause.mem_add hc with rfl | hc
        · exact .inl (.head _)
        · exact .inr hc
      · rcases List.mem_append.mp hc with hc | hc
        · exact .inr hc
        · exact .inl (List.mem_singleton.mp hc ▸ .head _)

/-! ## §2 Choices -/

/-- Items at which no ambiguity is allowed. -/
def AllowNone (items : List Item) : Prop :=
  ∀ i ∈ items, i.marks.ambiguities = []

/-- The marks of items at which no ambiguity is allowed allow none. -/
theorem ambiguities_marksOf {items : List Item} (hc : AllowNone context) (hi : AllowNone items) :
    (Cause.marksOf (Cause.withOrigins context items)).ambiguities = [] := by
  have hfold : ∀ (marks : List Marks) (m : Marks), m.ambiguities = [] →
      (∀ m' ∈ marks, m'.ambiguities = []) → (marks.foldl Marks.join m).ambiguities = [] := by
    intro marks
    induction marks with
    | nil => exact fun m hm _ => hm
    | cons m' marks ih =>
      intro m hm hmarks
      refine ih _ ?_ fun m'' h => hmarks m'' (.tail _ h)
      simp [Marks.join, hm, hmarks m' (.head _), unionNames]
  refine hfold _ _ rfl fun m hm => ?_
  obtain ⟨i, hmem, rfl⟩ := List.mem_map.mp hm
  exact (Cause.mem_originsFrom hmem).elim (hi i) (hc i)

/-- Where no ambiguity is allowed, no two actions are for the same terminal
after one is added, if none were before. -/
theorem nodup_add {new : Cause} (hc : AllowNone context) (hnew : AllowNone new.items)
    {causes : List Cause} (h : (termsOf causes).Nodup) :
    (termsOf (Cause.add g context new causes).causes).Nodup := by
  induction causes with
  | nil => simp [Cause.add, Cause.Outcome.causes, termsOf]
  | cons old rest ih =>
    obtain ⟨hold, hrest⟩ := List.nodup_cons.mp h
    unfold Cause.add
    dsimp only
    by_cases hterm : old.action.term = new.action.term
    · rw [if_neg (by simpa using hterm), ambiguities_marksOf hc hnew]
      split
      · exact h
      · split
        · exact ih hrest
        · exact h
        · exact h
    · rw [if_pos (by simpa using hterm), Cause.causes_behind, termsOf, List.map_cons,
        List.nodup_cons]
      refine ⟨fun hmem => ?_, ih hrest⟩
      rcases Cause.mem_termsOf_add.mp hmem with heq | hmem
      · exact hterm heq
      · exact hold hmem

theorem nodup_addReductions (hc : AllowNone context) {news : List Cause}
    (hnews : ∀ c ∈ news, AllowNone c.items) {r : Reading} {s : Search}
    (h : (termsOf r.causes.toList).Nodup) :
    (termsOf (news.foldl (addReduction g context) (r, s)).1.causes.toList).Nodup := by
  induction news generalizing r s with
  | nil => exact h
  | cons new news ih =>
    rw [List.foldl_cons]
    refine ih (r := (addReduction g context (r, s) new).1)
      (fun c hc => hnews c (.tail _ hc)) ?_
    rw [causes_addReduction, addAction_fst]
    split
    · exact nodup_add hc (hnews new (.head _)) h
    · rename_i hnot
      rw [termsOf, List.map_append, ← termsOf, List.nodup_append']
      refine ⟨h, List.nodup_singleton _, ?_⟩
      simpa using hnot

/-! ## §3 Takeovers -/

/-- The shifts of all terminals that items read next, wherever they lead. -/
def shiftsOf (g : Grammar) (items : List Item) : List Cause :=
  (((byNext items).map Prod.fst).filter g.isTerminal).map (shiftOf items)

/-- Whether the reductions that items call for take the place of other
actions. This does not depend on where shifts lead. -/
def replaces (g : Grammar) (items : List Item) : Bool :=
  ((reductions g items).foldl (addReduction g items)
    (⟨(shiftsOf g items).toArray, [], false⟩, Search.start g)).1.replaced

end Search

namespace Cause

variable {g : Grammar} {context : List Item}

@[simp]
theorem term_blind (c : Cause) : c.blind.action.term = c.action.term := by
  obtain ⟨action, items⟩ := c
  cases action <;> rfl

@[simp]
theorem items_blind (c : Cause) : c.blind.items = c.items :=
  rfl

theorem same_blind (c : Cause) (t : Term) (r : Rule) :
    c.blind.action.same g (.reduce t r) = c.action.same g (.reduce t r) := by
  obtain ⟨action, items⟩ := c
  cases action <;> rfl

/-- What becomes of a reduction does not depend on where shifts lead. -/
theorem add_map_blind {t : Term} {r : Rule} {items : List Item} (causes : List Cause) :
    (add g context ⟨.reduce t r, items⟩ (causes.map blind)).causes =
      (add g context ⟨.reduce t r, items⟩ causes).causes.map blind := by
  induction causes with
  | nil => rfl
  | cons old rest ih =>
    rw [List.map_cons]
    unfold add
    dsimp only
    rw [term_blind, same_blind, items_blind]
    split
    · simp [ih]
    · split
      · rfl
      · split
        · exact ih
        · rfl
        · split
          · simp [ih]
          · rfl

end Cause

namespace Search

variable {g : Grammar} {table : FirstTable} {context : List Item}

/-- Whether reductions take the place of other actions does not depend on where
shifts lead. -/
theorem replaced_addReductions {news : List Cause}
    (hnews : ∀ c ∈ news, ∃ t r, c.action = .reduce t r) {r x : Reading}
    (hcauses : x.causes.toList = r.causes.toList.map Cause.blind)
    (hreplaced : x.replaced = r.replaced) {s s' : Search} :
    (news.foldl (addReduction g context) (x, s')).1.replaced =
      (news.foldl (addReduction g context) (r, s)).1.replaced := by
  induction news generalizing r x s s' with
  | nil => exact hreplaced
  | cons new news ih =>
    obtain ⟨t, rule, hnew⟩ := hnews new (.head _)
    obtain ⟨action, items⟩ := new
    obtain rfl : action = .reduce t rule := hnew
    have hstep : (addAction g context ⟨.reduce t rule, items⟩ x.causes s').1.toList =
        (addAction g context ⟨.reduce t rule, items⟩ r.causes s).1.toList.map Cause.blind := by
      have hterms : termsOf (r.causes.toList.map Cause.blind) = termsOf r.causes.toList := by
        simp [termsOf]
      rw [addAction_fst, addAction_fst, hcauses, hterms]
      split
      · exact Cause.add_map_blind _
      · simp [Cause.blind, Action.map]
    rw [List.foldl_cons, List.foldl_cons]
    refine ih (r := (addReduction g context (r, s) ⟨.reduce t rule, items⟩).1)
      (x := (addReduction g context (x, s') ⟨.reduce t rule, items⟩).1)
      (fun c hc => hnews c (.tail _ hc)) hstep ?_
    have hsize : x.causes.size = r.causes.size := by
      simpa using congrArg List.length hcauses
    have hsize' := congrArg List.length hstep
    simp only [Array.length_toList, List.length_map] at hsize'
    rw [replaced_addReduction, replaced_addReduction, hreplaced, hsize, hsize']

theorem gotos_addReductions {news : List Cause} {r : Reading} {s : Search} :
    (news.foldl (addReduction g context) (r, s)).1.gotos = r.gotos := by
  induction news generalizing r s with
  | nil => rfl
  | cons new news ih =>
    rw [List.foldl_cons]
    exact ih (r := (addReduction g context (r, s) new).1)
      (s := (addReduction g context (r, s) new).2)

end Search

/-! ## §4 States -/

/-- Whether a state has no goto for a symbol although an item reads it next:
reductions took the place of other actions, and the symbol begins with none of
the terminals that are still read. -/
def State.forgets (g : Grammar) (table : FirstTable) (s : State) (t : Term) : Bool :=
  Search.replaces g s.items && s.actions.all fun action =>
    match action with
    | .shift u _ => !(table.first t).terminals.contains u
    | .reduce _ _ => true

theorem State.forgets_eq_false_iff {g : Grammar} {table : FirstTable} {s : State} {t : Term} :
    s.forgets g table t = false ↔ Search.replaces g s.items = true →
      ∃ u q, .shift u q ∈ s.actions ∧ (table.first t).terminals.contains u = true := by
  unfold State.forgets
  cases hreplaces : Search.replaces g s.items with
  | false => simp
  | true =>
    simp only [Bool.true_and, List.all_eq_false, true_imp_iff]
    constructor
    · rintro ⟨action, ha, hu⟩
      cases action with
      | shift u q => exact ⟨u, q, ha, by simpa using hu⟩
      | reduce u r => simp at hu
    · rintro ⟨u, q, ha, hu⟩
      exact ⟨_, ha, by simpa using hu⟩

namespace Search

variable {g : Grammar} {table : FirstTable} {noSkip : Term} {seed : Seed} {st : State}

/-- The terminals that a state has actions for are those that its items can do
something with. -/
theorem IsRead.mem_terms_iff (h : IsRead g table seed st) {t : Term} :
    t ∈ st.terms ↔ (∃ i ∈ st.items, i.next? = some t ∧ g.isTerminal t = true) ∨
      ∃ i ∈ st.items, i.atEnd = true ∧ g.terms.isTop i.rule.name = false ∧
        i.ahead.contains t = true := by
  obtain ⟨s, s', h⟩ := h
  obtain ⟨r, s₁, hread, _, hitems, _, hactions, _⟩ := readState_ok h
  obtain ⟨done, hr, _, _, hdone⟩ := hasRead_byNext hread
  have hterms : st.terms = termsOf ((reductions g seed.items).foldl
      (addReduction g seed.items) (r, s₁)).1.causes.toList := by
    rw [State.terms, hactions, List.map_map]
    rfl
  rw [hterms, mem_termsOf_addReductions, or_comm, hitems]
  refine or_congr ⟨fun ht => ?_, fun ht => ?_⟩ ⟨fun ht => ?_, fun ht => ?_⟩
  · obtain ⟨c, hc, rfl⟩ := List.mem_map.mp ht
    obtain ⟨u, hu, hterminal, q, rfl⟩ := hr.shift_of_mem hc
    obtain ⟨i, hi, hnext⟩ := hr.next u hu
    exact ⟨i, hi, hnext, hterminal⟩
  · obtain ⟨i, hi, hnext, hterminal⟩ := ht
    obtain ⟨q, c, hc, hq⟩ := hr.exists_shift (hdone i hi t hnext) hterminal
    exact List.mem_map.mpr ⟨c, hc, by rw [hq]; rfl⟩
  · obtain ⟨c, hc, rfl⟩ := List.mem_map.mp ht
    obtain ⟨i, hi, hend, htop, u, hu, rfl⟩ := mem_reductions.mp hc
    exact ⟨i, hi, hend, htop, hu⟩
  · obtain ⟨i, hi, hend, htop, hahead⟩ := ht
    exact List.mem_map.mpr ⟨_, mem_reductions.mpr ⟨i, hi, hend, htop, t, hahead, rfl⟩, rfl⟩

/-- What is shifted in a state, an item reads next. -/
theorem IsRead.exists_next_of_shift (h : IsRead g table seed st) {t : Term} {q : Nat}
    (hq : .shift t q ∈ st.actions) : ∃ i ∈ st.items, i.next? = some t := by
  obtain ⟨s, s', h⟩ := h
  obtain ⟨r, s₁, hread, _, hitems, _, hactions, _⟩ := readState_ok h
  obtain ⟨done, hr, _⟩ := hasRead_byNext hread
  rw [hactions] at hq
  obtain ⟨c, hc, haction⟩ := List.mem_map.mp hq
  rcases mem_addReductions hc with hc | hc
  · obtain ⟨i, _, _, _, u, _, rfl⟩ := mem_reductions.mp hc
    cases haction
  · obtain ⟨u, hu, _, p, rfl⟩ := hr.shift_of_mem hc
    cases haction
    exact hitems ▸ hr.next t hu

/-- Where no ambiguity is allowed, no two actions of a state are for the same
terminal. -/
theorem IsRead.nodup_terms (hg : g.NoAmbiguities) (hgrown : Grown g table noSkip seed)
    (h : IsRead g table seed st) : st.terms.Nodup := by
  obtain ⟨s, s', h⟩ := h
  obtain ⟨r, s₁, hread, _, _, _, hactions, _⟩ := readState_ok h
  obtain ⟨done, hr, hnodup, _, _⟩ := hasRead_byNext hread
  have hterms : st.terms = termsOf ((reductions g seed.items).foldl
      (addReduction g seed.items) (r, s₁)).1.causes.toList := by
    rw [State.terms, hactions, List.map_map]
    rfl
  have hnone : AllowNone seed.items := fun i hi =>
    Item.ambiguities_marksAt (hg i.rule (hgrown.rule_mem i hi)) (hgrown.ambigAhead hg i hi) i.dot
  rw [hterms]
  refine nodup_addReductions hnone (fun c hc => ?_) ?_
  · obtain ⟨i, hi, _, _, t, _, rfl⟩ := mem_reductions.mp hc
    intro j hj
    obtain rfl : j = i := by simpa using hj
    exact hnone j hi
  · have hblind : termsOf r.causes.toList = termsOf (r.causes.toList.map Cause.blind) := by
      simp [termsOf]
    rw [hblind, hr.shifts, termsOf, List.map_map]
    rw [show ((fun c : Cause => c.action.term) ∘ shiftOf seed.items) = id from rfl, List.map_id]
    exact (List.nodup_reverse.mpr hnodup).filter _

/-- A state has a goto for each symbol that is read next and that it does not
forget. -/
theorem IsRead.exists_goto_iff (h : IsRead g table seed st) {t : Term}
    (hnext : ∃ i ∈ st.items, i.next? = some t) (hterminal : g.isTerminal t = false) :
    (∃ q, ⟨t, q⟩ ∈ st.gotos) ↔ st.forgets g table t = false := by
  obtain ⟨s, s', h⟩ := h
  obtain ⟨r, s₁, hread, _, hitems, _, hactions, hgotos⟩ := readState_ok h
  obtain ⟨done, hr, _, hkeys, hdone⟩ := hasRead_byNext hread
  obtain ⟨i, hi, hnext⟩ := hnext
  obtain ⟨q, hq⟩ := hr.exists_goto (hdone i (hitems ▸ hi) t hnext) hterminal
  have hreplaced : ((reductions g seed.items).foldl (addReduction g seed.items)
      (r, s₁)).1.replaced = replaces g st.items := by
    rw [hitems]
    refine (replaced_addReductions (fun c hc => ?_) ?_ hr.replaced.symm).symm
    · obtain ⟨i, _, _, _, u, _, rfl⟩ := mem_reductions.mp hc
      exact ⟨u, i.rule, rfl⟩
    · rw [hr.shifts, hkeys]
      rfl
  have hshift : ∀ u q, .shift u q ∈ st.actions ↔ ∃ c ∈ ((reductions g seed.items).foldl
      (addReduction g seed.items) (r, s₁)).1.causes.toList, c.action = .shift u q := by
    simp [hactions]
  rw [State.forgets_eq_false_iff, hgotos, dropGotos, hreplaced, gotos_addReductions]
  split
  · rename_i hreplaces
    simp only [hreplaces, true_imp_iff, List.mem_filter, hshift]
    constructor
    · rintro ⟨q', _, hany⟩
      rw [← Array.any_toList, List.any_eq_true] at hany
      obtain ⟨c, hc, hu⟩ := hany
      split at hu
      · exact ⟨_, _, ⟨c, hc, ‹_›⟩, hu⟩
      · cases hu
    · rintro ⟨u, q', ⟨c, hc, haction⟩, hu⟩
      refine ⟨q, hq, ?_⟩
      rw [← Array.any_toList, List.any_eq_true]
      exact ⟨c, hc, by simpa [haction] using hu⟩
  · rename_i hreplaces
    exact ⟨fun _ h => absurd h hreplaces, fun _ => ⟨q, hq⟩⟩

/-- Gotos are for symbols that an item reads next. -/
theorem IsRead.exists_next_of_goto (h : IsRead g table seed st) {x : Goto} (hx : x ∈ st.gotos) :
    g.isTerminal x.term = false ∧ ∃ i ∈ st.items, i.next? = some x.term := by
  obtain ⟨s, s', h⟩ := h
  obtain ⟨r, s₁, hread, _, hitems, _, _, hgotos⟩ := readState_ok h
  obtain ⟨done, hr, _⟩ := hasRead_byNext hread
  rw [hgotos] at hx
  have hx := mem_dropGotos hx
  rw [gotos_addReductions] at hx
  have hmem : x.term ∈ r.gotos.map Goto.term := List.mem_map_of_mem hx
  rw [hr.gotos, List.mem_filter, List.mem_reverse] at hmem
  exact ⟨by simpa using hmem.2, hitems ▸ hr.next x.term hmem.1⟩

/-- A state has at most one goto for a symbol. -/
theorem IsRead.nodup_gotos (h : IsRead g table seed st) : (st.gotos.map Goto.term).Nodup := by
  obtain ⟨s, s', h⟩ := h
  obtain ⟨r, s₁, hread, _, _, _, _, hgotos⟩ := readState_ok h
  obtain ⟨done, hr, hnodup, _, _⟩ := hasRead_byNext hread
  have hall : (r.gotos.map Goto.term).Nodup := by
    rw [hr.gotos]
    exact (List.nodup_reverse.mpr hnodup).filter _
  rw [hgotos, dropGotos]
  split
  · rw [gotos_addReductions]
    exact hall.sublist (List.filter_sublist.map _)
  · rw [gotos_addReductions]
    exact hall

end Search

section

variable {g : Grammar} {table : FirstTable} {noSkip : Term} {starts : List Term} {a : Automaton}
  {seeds : Array Seed} {p : Nat} {t : Term}

theorem State.mem_terms_finish {s : State} : t ∈ (s.finish g).terms ↔ t ∈ s.terms := by
  simp [State.terms, State.finish]

/-- In the final automaton, too, a state has actions for the terminals that its
items can do something with. -/
theorem Built.mem_terms_iff (hb : Built g table noSkip starts a seeds) :
    t ∈ (a.state p).terms ↔
      (∃ i ∈ (a.state p).items, i.next? = some t ∧ g.isTerminal t = true) ∨
        ∃ i ∈ (a.state p).items, i.atEnd = true ∧ g.terms.isTop i.rule.name = false ∧
          i.ahead.contains t = true := by
  by_cases hp : p < a.size
  · obtain ⟨seed, st, _, hread, heq⟩ := hb.isRead p hp
    rw [heq, State.mem_terms_finish]
    exact hread.mem_terms_iff
  · rw [Automaton.state_eq_default (Nat.le_of_not_lt hp)]
    simp [State.terms, show (default : State).items = [] from rfl,
      show (default : State).actions = [] from rfl]

theorem Built.exists_next_of_shift (hb : Built g table noSkip starts a seeds) {q : Nat}
    (hq : .shift t q ∈ (a.state p).actions) : ∃ i ∈ (a.state p).items, i.next? = some t := by
  obtain ⟨seed, st, _, hread, heq⟩ := hb.isRead p (Automaton.lt_size_of_mem_actions hq)
  rw [heq] at hq ⊢
  exact hread.exists_next_of_shift (List.mem_mergeSort.mp hq)

/-- Gotos are for symbols that an item reads next. -/
theorem Built.exists_next_of_goto (hb : Built g table noSkip starts a seeds) {x : Goto}
    (hx : x ∈ (a.state p).gotos) :
    g.isTerminal x.term = false ∧ ∃ i ∈ (a.state p).items, i.next? = some x.term := by
  obtain ⟨seed, st, _, hread, heq⟩ := hb.isRead p (Automaton.lt_size_of_mem_gotos hx)
  rw [heq] at hx ⊢
  exact hread.exists_next_of_goto (List.mem_mergeSort.mp hx)

/-- Where a grammar allows no ambiguity, each state has at most one action for a
terminal. -/
theorem Built.nodup_terms (hb : Built g table noSkip starts a seeds) (hg : g.NoAmbiguities) :
    (a.state p).terms.Nodup := by
  by_cases hp : p < a.size
  · obtain ⟨seed, st, hseed, hread, heq⟩ := hb.isRead p hp
    have hperm : ((st.finish g).terms).Perm st.terms := (List.mergeSort_perm _ _).map _
    rw [heq, hperm.nodup_iff]
    exact hread.nodup_terms hg (hb.grown p seed hseed)
  · rw [Automaton.state_eq_default (Nat.le_of_not_lt hp)]
    exact List.nodup_nil

/-- Each state has at most one goto for a symbol. -/
theorem Built.nodup_gotos (hb : Built g table noSkip starts a seeds) :
    ((a.state p).gotos.map Goto.term).Nodup := by
  by_cases hp : p < a.size
  · obtain ⟨seed, st, _, hread, heq⟩ := hb.isRead p hp
    have hperm : ((st.finish g).gotos.map Goto.term).Perm (st.gotos.map Goto.term) :=
      (List.mergeSort_perm _ _).map _
    rw [heq, hperm.nodup_iff]
    exact hread.nodup_gotos
  · rw [Automaton.state_eq_default (Nat.le_of_not_lt hp)]
    exact List.nodup_nil

/-- A state has a goto for a symbol that is read next exactly if it does not
forget it. -/
theorem Built.exists_goto_iff (hb : Built g table noSkip starts a seeds)
    (hnext : ∃ i ∈ (a.state p).items, i.next? = some t) (hterminal : g.isTerminal t = false) :
    (∃ q, ⟨t, q⟩ ∈ (a.state p).gotos) ↔ (a.state p).forgets g table t = false := by
  have hp : p < a.size := by
    obtain ⟨i, hi, _⟩ := hnext
    exact Automaton.lt_size_of_mem_items hi
  obtain ⟨seed, st, _, hread, heq⟩ := hb.isRead p hp
  rw [heq] at hnext ⊢
  have hgotos : ∀ x, x ∈ (st.finish g).gotos ↔ x ∈ st.gotos := fun x => List.mem_mergeSort
  have hforgets : (st.finish g).forgets g table t = false ↔ st.forgets g table t = false := by
    rw [State.forgets_eq_false_iff, State.forgets_eq_false_iff]
    simp [State.finish]
  rw [hforgets, ← hread.exists_goto_iff hnext hterminal]
  simp only [hgotos]

end

/-! ## §5 Runs -/

/-- In each state there is at most one action for a terminal and at most one goto
for a symbol. -/
structure Automaton.Determined (a : Automaton) : Prop where
  actions : ∀ i, (a.state i).terms.Nodup
  gotos : ∀ i, ((a.state i).gotos.map Goto.term).Nodup

namespace Automaton

variable {a : Automaton}

theorem Determined.action_eq (h : a.Determined) {s : Nat} {x y : Action}
    (hx : x ∈ (a.state s).actions) (hy : y ∈ (a.state s).actions) (heq : x.term = y.term) :
    x = y :=
  List.inj_on_of_nodup_map (h.actions s) hx hy heq

theorem Determined.target_eq (h : a.Determined) {s q q' : Nat} {t : Term}
    (hq : ⟨t, q⟩ ∈ (a.state s).gotos) (hq' : ⟨t, q'⟩ ∈ (a.state s).gotos) : q = q' :=
  congrArg Goto.target (List.inj_on_of_nodup_map (h.gotos s) hq hq' rfl)

theorem Determined.next_eq (h : a.Determined) {r : Rule} {stack next next' : List Nat}
    (hr : a.Reduces r stack next) (hr' : a.Reduces r stack next') : next = next' := by
  cases hr with
  | intro uncovers leads =>
    cases hr' with
    | intro uncovers' leads' =>
      obtain ⟨rfl, rfl⟩ := List.cons.inj (uncovers.symm.trans uncovers')
      rw [h.target_eq leads leads']

/-- There is at most one step. -/
theorem Determined.step_eq (h : a.Determined) {c d d' : Config} (hd : a.Step c d)
    (hd' : a.Step c d') : d = d' := by
  cases hd with
  | shift listed =>
    cases hd' with
    | shift listed' => cases h.action_eq listed listed' rfl; rfl
    | reduce listed' _ => cases h.action_eq listed listed' rfl
  | reduce listed reduces =>
    cases hd' with
    | shift listed' => cases h.action_eq listed listed' rfl
    | reduce listed' reduces' =>
      cases h.action_eq listed listed' rfl
      rw [h.next_eq reduces reduces']

/-- Two runs that both cannot go on have come to the same end. -/
theorem Determined.end_eq (h : a.Determined) {c d d' : Config}
    (hd : Relation.ReflTransGen a.Step c d) (hd' : Relation.ReflTransGen a.Step c d')
    (hend : ∀ e, ¬ a.Step d e) (hend' : ∀ e, ¬ a.Step d' e) : d = d' := by
  have hunique : Relator.RightUnique a.Step := fun _ _ _ => h.step_eq
  rcases Relation.ReflTransGen.total_of_right_unique hunique hd hd' with hrest | hrest
  · rcases hrest.cases_head with heq | ⟨e, first, _⟩
    · exact heq
    · exact absurd first (hend e)
  · rcases hrest.cases_head with heq | ⟨e, first, _⟩
    · exact heq.symm
    · exact absurd first (hend' e)

/-- A run that may end cannot go on. -/
theorem EndsIn.not_step {g : Grammar} {s : Nat} {stack : List Nat} (h : a.EndsIn g s)
    (e : Config) : ¬ a.Step ⟨s :: stack, []⟩ e := by
  intro hstep
  cases hstep with
  | reduce listed _ => exact h.2 (List.mem_map.mpr ⟨_, listed, rfl⟩)

end Automaton

end GrammarCompiler
