/-
GrammarCompiler.Proofs.Searching — searches come to an end.

Every state that is not an entry is listed in the slot of its kernel, so a kernel
that is known is found again, and no two such states have the same kernel
(`Orderly`). A bound on orderly searches is therefore a bound on the rounds it
takes (`exists_run`). Where all rules skip alike, no conflict is left undecided,
and there are enough rounds, an automaton is built (`exists_fullAutomaton`).

  §1 Slots    — a state is found again by its kernel.
  §2 States   — looking for the state of a kernel.
  §3 Reading  — reading on from a state.
  §4 Automata — the rounds of a search.
-/
import GrammarCompiler.Proofs.Construction
import GrammarCompiler.Proofs.Ending
import GrammarCompiler.Proofs.Lists

namespace GrammarCompiler

namespace Search

variable {g : Grammar} {table : FirstTable} {noSkip skip : Term}

/-! ## §1 Slots -/

/-- Kernels that count as the same belong in the same slot. -/
theorem slotOf_of_sameAll {as bs : List Item} (h : Item.sameAll as bs = true) (s : Search) :
    s.slotOf as = s.slotOf bs := by
  have hfold : ∀ n, as.foldl (fun n i => n + (i.rule.id + i.dot + i.ahead.bits)) n =
      bs.foldl (fun n i => n + (i.rule.id + i.dot + i.ahead.bits)) n := by
    induction as generalizing bs with
    | nil =>
      cases bs with
      | nil => exact fun _ => rfl
      | cons b bs => cases h
    | cons a as ih =>
      cases bs with
      | nil => cases h
      | cons b bs =>
        rw [Item.sameAll, Bool.and_eq_true] at h
        obtain ⟨hdotted, hahead, _⟩ := Item.same_iff.mp h.1
        intro n
        rw [List.foldl_cons, List.foldl_cons, hahead, show a.rule = b.rule by rw [hdotted],
          show a.dot = b.dot by rw [hdotted]]
        exact ih h.2 _
  rw [slotOf, slotOf, hfold]

/-- A search in which every state that is not an entry is listed in its slot, and
no two of them have the same kernel. `starts` are the symbols of the entries. -/
structure Orderly (s : Search) (starts : List Term) : Prop where
  slots : 0 < s.slots.size
  entries : s.seeds.toList.filterMap Seed.start = starts
  listed : ∀ (p : Nat) seed, s.seeds[p]? = some seed → seed.start = none →
    p ∈ s.slots[s.slotOf seed.kernel]?.getD []
  apart : ∀ (p q : Nat) seed seed', s.seeds[p]? = some seed → s.seeds[q]? = some seed' →
    seed.start = none → seed'.start = none → Item.sameAll seed.kernel seed'.kernel = true → p = q

variable {s : Search} {starts : List Term}

theorem orderly_start (g : Grammar) : (start g).Orderly [] where
  slots := by simp [start]
  entries := rfl
  listed p seed hp := by simp [start] at hp
  apart p q seed seed' hp := by simp [start] at hp

/-- A kernel that is known is found. -/
theorem Orderly.find?_ne_none (h : s.Orderly starts) {p : Nat} {seed : Seed}
    (hp : s.seeds[p]? = some seed) (hs : seed.start = none) {kernel : List Item}
    (hsame : Item.sameAll seed.kernel kernel = true) : s.find? kernel ≠ none := by
  intro hnone
  have hlisted := h.listed p seed hp hs
  rw [slotOf_of_sameAll hsame s] at hlisted
  have := List.find?_eq_none.mp hnone p hlisted
  simp [hp, hsame] at this

/-- What is listed in a slot stays there. -/
theorem mem_slots_push {n p : Nat} (seed : Seed) (h : p ∈ s.slots[n]?.getD []) :
    p ∈ (s.push seed).slots[n]?.getD [] := by
  unfold Search.push
  dsimp only
  split
  · exact h
  · rw [Array.getElem?_modify]
    split
    · cases hslot : s.slots[n]? with
      | none => simp [hslot] at h
      | some states =>
        rw [hslot] at h
        exact .tail _ h
    · exact h

/-- A state that is added is listed, unless it is an entry. -/
theorem size_mem_slots_push (hpos : 0 < s.slots.size) {seed : Seed} (hs : seed.start = none) :
    s.seeds.size ∈ (s.push seed).slots[s.slotOf seed.kernel]?.getD [] := by
  have hlt : s.slotOf seed.kernel < s.slots.size := Nat.mod_lt _ hpos
  unfold Search.push
  dsimp only
  rw [hs, Option.isSome_none, if_neg Bool.false_ne_true, Array.getElem?_modify, if_pos rfl,
    Array.getElem?_eq_getElem hlt]
  exact .head _

theorem size_slots_push (s : Search) (seed : Seed) : (s.push seed).slots.size = s.slots.size := by
  unfold Search.push
  dsimp only
  split
  · rfl
  · exact Array.size_modify

theorem of_getElem?_push {p : Nat} {seed other : Seed}
    (h : (s.push seed).seeds[p]? = some other) :
    p = s.seeds.size ∧ seed = other ∨ s.seeds[p]? = some other := by
  rw [show (s.push seed).seeds = s.seeds.push seed from rfl, Array.getElem?_push] at h
  split at h
  next heq => exact .inl ⟨heq, Option.some.inj h⟩
  next => exact .inr h

/-- Adding an entry, or a state whose kernel is new. -/
theorem Orderly.push (h : s.Orderly starts) {seed : Seed}
    (hnew : seed.start = none → s.find? seed.kernel = none) :
    (s.push seed).Orderly (starts ++ seed.start.toList) := by
  have hslot : ∀ kernel, (s.push seed).slotOf kernel = s.slotOf kernel := fun kernel => by
    rw [slotOf, slotOf, size_slots_push]
  refine ⟨size_slots_push s seed ▸ h.slots, ?_, fun p other hp hs => ?_,
    fun p q other other' hp hq hs hs' hsame => ?_⟩
  · rw [show (s.push seed).seeds = s.seeds.push seed from rfl, Array.toList_push,
      List.filterMap_append, h.entries]
    cases hstart : seed.start <;> simp [hstart]
  · rw [hslot]
    rcases of_getElem?_push hp with ⟨rfl, rfl⟩ | hp
    · exact size_mem_slots_push h.slots hs
    · exact mem_slots_push seed (h.listed p other hp hs)
  · rcases of_getElem?_push hp with ⟨rfl, rfl⟩ | hp <;>
      rcases of_getElem?_push hq with ⟨rfl, rfl⟩ | hq
    · rfl
    · exact absurd (hnew hs) (h.find?_ne_none hq hs' (Item.sameAll_symm hsame))
    · exact absurd (hnew hs') (h.find?_ne_none hp hs hsame)
    · exact h.apart p q other other' hp hq hs hs' hsame

theorem Orderly.pairwise (h : s.Orderly starts) :
    (s.seeds.toList.filter fun seed => seed.start.isNone).Pairwise fun seed seed' =>
      Item.sameAll seed.kernel seed'.kernel = false := by
  have hall : s.seeds.toList.Pairwise fun seed seed' => seed.start = none →
      seed'.start = none → Item.sameAll seed.kernel seed'.kernel = false := by
    rw [List.pairwise_iff_getElem]
    intro p q hp hq hlt hs hs'
    rw [← Bool.not_eq_true]
    intro hsame
    have heq := h.apart p q _ _ (by simp) (by simp) hs hs' hsame
    omega
  refine (hall.sublist List.filter_sublist).imp_of_mem fun {seed seed'} hs hs' hne => ?_
  exact hne (by simpa using (List.mem_filter.mp hs).2) (by simpa using (List.mem_filter.mp hs').2)

/-- There are no more states than entries and kernels to tell apart. -/
theorem Orderly.size_le {α : Type} (h : s.Orderly starts) (places : List α) (IsAt : α → Seed → Prop)
    (hat : ∀ seed ∈ s.seeds, seed.start = none → ∃ place ∈ places, IsAt place seed)
    (hsame : ∀ place seed seed', IsAt place seed → IsAt place seed' →
      Item.sameAll seed.kernel seed'.kernel = true) :
    s.seeds.size ≤ starts.length + places.length := by
  have hsplit : s.seeds.size = starts.length +
      (s.seeds.toList.filter fun seed => seed.start.isNone).length := by
    rw [← h.entries, ← Array.length_toList]
    induction s.seeds.toList with
    | nil => rfl
    | cons seed seeds ih =>
      cases hs : seed.start <;> simp [hs, ih] <;> omega
  have hpartner : ∀ seed ∈ s.seeds.toList.filter fun seed => seed.start.isNone,
      ∃ place, place ∈ places ∧ IsAt place seed := by
    intro seed hseed
    obtain ⟨hseed, hs⟩ := List.mem_filter.mp hseed
    exact hat seed (Array.mem_toList_iff.mp hseed) (by simpa using hs)
  obtain ⟨found, hfound⟩ := exists_forall₂ hpartner
  -- States at the same place would have the same kernel.
  have hnodup : found.Nodup := by
    have hapart := h.pairwise
    revert hfound hapart
    generalize s.seeds.toList.filter (fun seed => seed.start.isNone) = others
    intro hfound
    induction hfound with
    | nil => exact fun _ => List.nodup_nil
    | @cons seed place seeds found hat' hrest ih =>
      intro hapart
      obtain ⟨hfirst, hapart⟩ := List.pairwise_cons.mp hapart
      refine List.nodup_cons.mpr ⟨fun hmem => ?_, ih hapart⟩
      obtain ⟨seed', hmem', hat''⟩ := exists_of_mem_forall₂ hrest.flip hmem
      have := hsame place seed seed' hat'.2 hat''.2
      rw [hfirst seed' hmem'] at this
      cases this
  have hsub : found ⊆ places := by
    intro place hplace
    obtain ⟨_, _, hmem, _⟩ := exists_of_mem_forall₂ hfound.flip hplace
    exact hmem
  rw [hsplit, hfound.length_eq]
  exact Nat.add_le_add_left (hnodup.subperm hsub).length_le _

/-! ## §2 States -/

/-- The items of a kernel that skip alike have something to skip in common. -/
theorem exists_commonSkip (hg : g.SkipsAlike table skip) {kernel : List Item}
    (hk : ∀ k ∈ kernel, k.Skips g skip) (none : Term) :
    ∃ common, commonSkip g none kernel = .ok common := by
  have hskip : ∀ k ∈ kernel, k.skip = skip := by
    intro k hmem
    unfold Item.skip
    split
    · exact (hk k hmem).skipAhead
    · exact hg.skip k.rule (hk k hmem).rule
  cases kernel with
  | nil => exact ⟨none, rfl⟩
  | cons first rest =>
    have hfind : (rest.find? fun i => i.skip != first.skip) = Option.none := by
      rw [List.find?_eq_none]
      intro i hi
      rw [hskip i (.tail _ hi), hskip first (.head _)]
      simp
    exact ⟨first.skip, by rw [commonSkip, hfind]⟩

/-- The state of a kernel whose items skip alike is found, or added. -/
theorem exists_stateOf (hg : g.SkipsAlike table skip) {kernel : List Item}
    (hk : ∀ k ∈ kernel, k.Skips g skip) (start : Option Term) (hs : s.Orderly starts) :
    ∃ q s', stateOf g table kernel start s = .ok (q, s') ∧
      s'.Orderly (starts ++ start.toList) ∧ s'.clashes = s.clashes := by
  have hsorted : ∀ k ∈ Item.sort kernel, k.Skips g skip :=
    fun k hmem => hk k (Item.mem_sort.mp hmem)
  obtain ⟨common, hcommon⟩ := exists_commonSkip hg hsorted .eof
  obtain ⟨items, hclosed, _⟩ := exists_closure hg hsorted
  unfold stateOf
  dsimp only
  rw [hcommon]
  cases hfind : (if start.isSome = true then none else s.find? (Item.sort kernel)) with
  | some known =>
    have hstart : start = none := by
      cases start with
      | none => rfl
      | some => cases hfind
    refine ⟨known, s, rfl, ?_, rfl⟩
    rw [hstart, Option.toList_none, List.append_nil]
    exact hs
  | none =>
    refine ⟨s.seeds.size, s.push ⟨Item.sort kernel, items, common, start⟩, by rw [hclosed]; rfl,
      hs.push fun hnone => ?_, rfl⟩
    rw [show start = none from hnone] at hfind
    exact hfind

/-! ## §3 Reading -/

theorem skips_entryItems (hg : g.SkipsAlike table skip) (heof : Term.eof ∈ g.terms.all)
    (noSkip : Term) {start : Term} (hrules : g.rulesFor start ≠ []) :
    ∀ k ∈ entryItems g noSkip start, k.Skips g skip := by
  intro k hk
  obtain ⟨r, hr, rfl⟩ := List.mem_map.mp hk
  refine ⟨(Closing.mem_rulesFor.mp hr).1, ?_, fun t ht => ?_⟩
  · obtain ⟨first, rest, hcons⟩ := List.exists_cons_of_ne_nil hrules
    rw [hcons]
    have hfirst : first ∈ g.rulesFor start := hcons ▸ .head _
    exact hg.skip first (Closing.mem_rulesFor.mp hfirst).1
  · simp only [TermSet.contains_insert, TermSet.contains_empty, Bool.false_or,
      decide_eq_true_eq] at ht
    exact ht ▸ heof

/-- All that is skipped in the states of a search is the same. -/
theorem skips_of_grown (hg : g.SkipsAlike table skip) (heof : Term.eof ∈ g.terms.all) {seed : Seed}
    (h : Grown g table noSkip seed) : ∀ i ∈ seed.items, i.Skips g skip := by
  have hclosure : ∀ {kernel items : List Item}, (∀ k ∈ kernel, k.Skips g skip) →
      closure g table (Item.sort kernel) = .ok items → ∀ i ∈ items, i.Skips g skip := by
    intro kernel items hk hclosed
    obtain ⟨_, hitems, hskips⟩ :=
      exists_closure hg fun k hmem => hk k (Item.mem_sort.mp hmem)
    exact Except.ok.inj (hitems.symm.trans hclosed) ▸ hskips
  induction h with
  | @entry start _ _ hrules hclosed =>
    exact hclosure (skips_entryItems hg heof noSkip hrules) hclosed
  | read _ _ hclosed ih =>
    refine hclosure (fun k hk => ?_) hclosed
    obtain ⟨i, hi, _, rfl⟩ := mem_kernelFor hk
    exact ⟨(ih i hi).rule, (ih i hi).skipAhead, (ih i hi).knows⟩

/-- A symbol can be read where all that is skipped is the same. -/
theorem exists_readSymbol (hg : g.SkipsAlike table skip) (context : List Item)
    {items : List Item} (hitems : ∀ i ∈ items, i.Skips g skip) {symbol : Term} {done : List Term}
    (hdone : symbol ∉ done) {r : Reading} (hr : HasRead g items done r) (hs : s.Orderly starts) :
    ∃ r' s', readSymbol g table context (r, s)
        (symbol, items.filter fun i => i.next? == some symbol) = .ok (r', s') ∧
      s'.Orderly starts ∧ s'.clashes = s.clashes := by
  have hkernel : ∀ k ∈ kernelFor g items symbol, k.Skips g skip := by
    intro k hk
    obtain ⟨i, hi, _, rfl⟩ := mem_kernelFor hk
    exact ⟨(hitems i hi).rule, (hitems i hi).skipAhead, (hitems i hi).knows⟩
  obtain ⟨q, next, hstate, horderly, hclashes⟩ := exists_stateOf hg hkernel none hs
  rw [Option.toList_none, List.append_nil] at horderly
  have hterm : ∀ c ∈ r.causes.toList, c.action.term ≠ symbol := by
    intro c hc heq
    obtain ⟨t, ht, _, q, rfl⟩ := hr.shift_of_mem hc
    exact hdone (heq ▸ ht)
  unfold readSymbol
  unfold kernelFor at hstate
  dsimp only at hstate ⊢
  cases ht : g.isTerminal symbol with
  | true =>
    rw [ht, if_pos rfl] at hstate
    rw [if_pos rfl, hstate]
    simp only [bind, Except.bind]
    have hpush : addAction g context
        ⟨.shift symbol q, items.filter fun i => i.next? == some symbol⟩ r.causes next =
        (r.causes.push _, next) := addAction_of_new_term hterm
    rw [hpush]
    exact ⟨_, next, rfl, horderly, hclashes⟩
  | false =>
    rw [ht, if_neg Bool.false_ne_true] at hstate
    rw [if_neg Bool.false_ne_true, hstate]
    exact ⟨_, next, rfl, horderly, hclashes⟩

theorem exists_readSymbols (hg : g.SkipsAlike table skip) (context : List Item)
    {items : List Item} (hitems : ∀ i ∈ items, i.Skips g skip) {next : List (Term × List Item)}
    (hsub : ∀ entry ∈ next, entry ∈ byNext items) (hnodup : (next.map Prod.fst).Nodup)
    {done : List Term} (hdone : ∀ entry ∈ next, entry.1 ∉ done) {r : Reading}
    (hr : HasRead g items done r) (hs : s.Orderly starts) :
    ∃ r' s', next.foldlM (readSymbol g table context) (r, s) = .ok (r', s') ∧
      s'.Orderly starts ∧ s'.clashes = s.clashes := by
  induction next generalizing done r s with
  | nil => exact ⟨r, s, rfl, hs, rfl⟩
  | cons entry next ih =>
    obtain ⟨symbol, reading⟩ := entry
    obtain ⟨rfl, hnext⟩ := mem_byNext (hsub _ (.head _))
    obtain ⟨r₁, s₁, hstep, hs₁, hclashes₁⟩ :=
      exists_readSymbol hg context hitems (hdone _ (.head _)) hr hs
    have hr₁ := hasRead_readSymbol hnext (hdone _ (.head _)) hstep hr
    rw [List.map_cons, List.nodup_cons] at hnodup
    have hdone' : ∀ entry ∈ next, entry.1 ∉ symbol :: done := by
      intro entry he hmem
      rcases List.mem_cons.mp hmem with heq | hmem
      · exact hnodup.1 (List.mem_map.mpr ⟨entry, he, heq⟩)
      · exact hdone entry (.tail _ he) hmem
    obtain ⟨r', s', hrest, hs', hclashes'⟩ :=
      ih (fun e he => hsub e (.tail _ he)) hnodup.2 hdone' hr₁ hs₁
    refine ⟨r', s', ?_, hs', hclashes'.trans hclashes₁⟩
    rw [List.foldlM_cons, hstep]
    exact hrest

/-- A grammar in which no conflict is left undecided in any state: adding the
reductions changes nothing but the actions. -/
def Undisputed (g : Grammar) (table : FirstTable) (noSkip : Term) : Prop :=
  ∀ seed, Grown g table noSkip seed → ∀ done r s, HasRead g seed.items done r → done.Nodup →
    ((reductions g seed.items).foldl (addReduction g seed.items) (r, s)).2 = s

/-- What a search needs so that nothing goes wrong on the way. -/
structure Smooth (g : Grammar) (table : FirstTable) (noSkip skip : Term) : Prop where
  skips : g.SkipsAlike table skip
  eof : Term.eof ∈ g.terms.all
  undisputed : Undisputed g table noSkip

/-- A state can be read on from. -/
theorem exists_readState (hg : Smooth g table noSkip skip) {seed : Seed}
    (hgrown : Grown g table noSkip seed) (hs : s.Orderly starts) :
    ∃ st s', readState g table seed s = .ok (st, s') ∧ s'.Orderly starts ∧
      s'.clashes = s.clashes := by
  have hnodup : ((byNext seed.items).map Prod.fst).Nodup := by
    rw [keys_byNext]
    exact Term.nodup_foldl_addNew List.nodup_nil
  obtain ⟨r, s₁, hread, hs₁, hclashes⟩ := exists_readSymbols hg.skips seed.items
    (skips_of_grown hg.skips hg.eof hgrown) (fun _ he => he) hnodup
    (fun _ _ => List.not_mem_nil) (.nil g seed.items) hs
  obtain ⟨done, hr, hdone, _⟩ := hasRead_byNext hread
  have hkept := hg.undisputed seed hgrown done r s₁ hr hdone
  unfold readState
  dsimp only
  rw [hread]
  refine ⟨_, _, rfl, ?_, ?_⟩
  · rw [hkept]
    exact hs₁
  · rw [hkept]
    exact hclashes

/-! ## §4 Automata -/

/-- A search without conflicts that has come this far. -/
structure Proceeds (g : Grammar) (table : FirstTable) (noSkip : Term) (starts : List Term)
    (states : Array State) (s : Search) : Prop where
  progress : Progress g table noSkip states s
  orderly : s.Orderly starts
  clashes : s.clashes = []

/-- States can be read on from, as many as are asked for, or all. -/
theorem exists_readOn (hg : Smooth g table noSkip skip) (count : Nat) {states : Array State}
    (h : Proceeds g table noSkip starts states s) :
    ∃ states' s', readOn g table count states s = .ok (states', s') ∧
      Proceeds g table noSkip starts states' s' ∧
      (states'.size = s'.seeds.size ∨ states.size + count ≤ states'.size) := by
  induction count generalizing states s with
  | zero => exact ⟨states, s, rfl, h, .inr (Nat.le_refl _)⟩
  | succ count ih =>
    unfold readOn
    split
    next hnone =>
      have hsize := h.progress.size
      rw [Array.getElem?_eq_none_iff] at hnone
      exact ⟨states, s, rfl, h, .inl (by omega)⟩
    next seed hseed =>
      obtain ⟨st, s₁, hread, hs₁, hclashes⟩ :=
        exists_readState hg (h.progress.grown _ seed hseed) h.orderly
      have hnext : Proceeds g table noSkip starts (states.push st) s₁ :=
        ⟨(h.progress.read hseed hread).1, hs₁, hclashes.trans h.clashes⟩
      obtain ⟨states', s', hrest, h', hend⟩ := ih hnext
      refine ⟨states', s', by rw [hread]; exact hrest, h', hend.imp_right fun hle => ?_⟩
      rw [Array.size_push] at hle
      omega

/-- A search ends when there are more rounds than states to be found. -/
theorem exists_run (hg : Smooth g table noSkip skip) {bound : Nat}
    (hbound : ∀ s : Search, s.Orderly starts →
      (∀ (p : Nat) seed, s.seeds[p]? = some seed → Grown g table noSkip seed) →
      s.seeds.size ≤ bound)
    (rounds : Nat) {count : Nat} (hcount : 0 < count) {states : Array State}
    (h : Proceeds g table noSkip starts states s) (hrounds : bound < states.size + rounds) :
    ∃ states', run g table rounds count states s = .ok (states', []) := by
  induction rounds generalizing count states s with
  | zero =>
    have := hbound s h.orderly h.progress.grown
    have := h.progress.size
    omega
  | succ rounds ih =>
    obtain ⟨states', s', hread, h', hend⟩ := exists_readOn hg count h
    unfold run
    rw [hread]
    simp only [bind, Except.bind]
    split
    · exact ⟨states', by rw [h'.clashes]; rfl⟩
    next hne => exact ih (Nat.mul_pos Nat.two_pos hcount) h' (by omega)

/-- Adding an entry state. -/
theorem exists_addEntry (hg : Smooth g table noSkip skip) {start : Term}
    (hrules : g.rulesFor start ≠ []) (h : Proceeds g table noSkip starts #[] s) :
    ∃ s', addEntry g table noSkip s start = .ok s' ∧
      Proceeds g table noSkip (starts ++ [start]) #[] s' := by
  have hk := skips_entryItems hg.skips hg.eof noSkip hrules
  obtain ⟨q, s', hstate, hs', hclashes⟩ := exists_stateOf hg.skips hk (some start) h.orderly
  have hentry : addEntry g table noSkip s start = .ok s' := by
    unfold addEntry
    dsimp only
    rw [if_neg (by simpa using hrules)]
    show (stateOf g table (entryItems g noSkip start) (some start) s >>= _) = _
    rw [hstate]
    rfl
  have hadvance := (addEntry_ok hentry).1
  refine ⟨s', hentry, ⟨⟨Nat.zero_le _, hadvance.grown h.progress.grown, fun p st hp => ?_,
    fun _ p st hp => ?_⟩, hs', hclashes.trans h.clashes⟩⟩
  · simp at hp
  · simp at hp

theorem exists_addEntries (hg : Smooth g table noSkip skip) {more : List Term}
    (hrules : ∀ start ∈ more, g.rulesFor start ≠ [])
    (h : Proceeds g table noSkip starts #[] s) :
    ∃ s', more.foldlM (addEntry g table noSkip) s = .ok s' ∧
      Proceeds g table noSkip (starts ++ more) #[] s' := by
  induction more generalizing starts s with
  | nil => exact ⟨s, rfl, by rwa [List.append_nil]⟩
  | cons start more ih =>
    obtain ⟨s₁, hstep, h₁⟩ := exists_addEntry hg (hrules start (.head _)) h
    obtain ⟨s', hrest, h'⟩ := ih (fun t ht => hrules t (.tail _ ht)) h₁
    rw [List.append_assoc, List.singleton_append] at h'
    refine ⟨s', ?_, h'⟩
    rw [List.foldlM_cons, hstep]
    exact hrest

end Search

/-- Where all rules skip alike and no conflict is left undecided, an automaton is
built, if orderly searches stay below the number of rounds. -/
theorem exists_fullAutomaton {g : Grammar} {table : FirstTable} {noSkip skip : Term}
    (hg : Search.Smooth g table noSkip skip) {starts : List Term}
    (hrules : ∀ start ∈ starts, g.rulesFor start ≠ [])
    (hbound : ∀ s : Search, s.Orderly starts →
      (∀ (p : Nat) seed, s.seeds[p]? = some seed → Grown g table noSkip seed) →
      s.seeds.size ≤ starts.length + Search.kernelBits g) :
    ∃ a, fullAutomaton g table starts noSkip = .ok a := by
  have hstart : Search.Proceeds g table noSkip [] #[] (Search.start g) :=
    ⟨⟨Nat.zero_le _, fun p seed hp => by simp [Search.start] at hp, fun p st hp => by simp at hp,
      fun _ p st hp => by simp at hp⟩, Search.orderly_start g, rfl⟩
  obtain ⟨s, hentries, hs⟩ := Search.exists_addEntries hg hrules hstart
  obtain ⟨states, hrun⟩ := Search.exists_run hg hbound (starts.length + Search.kernelBits g + 1)
    Nat.one_pos hs (by simp)
  refine ⟨states.map (State.finish g), ?_⟩
  unfold fullAutomaton
  rw [hentries]
  show (Search.run g table _ 1 #[] s >>= _) = _
  rw [hrun]
  rfl

end GrammarCompiler
