/-
GrammarCompiler.Proofs.Reading — how states come about, and what they do.

Every state that the search finds is an entry, or is what reading a symbol in
another state leads to (`Grown`). What the actions and gotos of a state say is
read off its items (`Fits`), whatever conflicts have been decided.

  §1 Targets  — the kernel that reading a symbol leads to.
  §2 Sameness — kernels that count as the same.
  §3 Seeds    — how states come about, and what their items have in common.
  §4 Finding  — a single look for a state.
  §5 Justice  — actions and gotos that the items of a state call for.
-/
import GrammarCompiler.Automaton.Full
import GrammarCompiler.Automaton.Run
import GrammarCompiler.Proofs.Closure

namespace GrammarCompiler

/-! ## §1 Targets -/

/-- The kernel that reading a symbol leads to, from a state with these
items. -/
def kernelFor (g : Grammar) (items : List Item) (symbol : Term) : List Item :=
  let advanced := (items.filter fun i => i.next? == some symbol).map Item.advance
  if g.isTerminal symbol then Search.applyCut advanced else advanced

theorem applyCut_sublist (items : List Item) : (Search.applyCut items).Sublist items := by
  unfold Search.applyCut
  dsimp only
  split
  · exact .refl _
  · exact List.filter_sublist

theorem kernelFor_sublist (g : Grammar) (items : List Item) (symbol : Term) :
    (kernelFor g items symbol).Sublist
      ((items.filter fun i => i.next? == some symbol).map Item.advance) := by
  unfold kernelFor
  dsimp only
  split
  · exact applyCut_sublist _
  · exact .refl _

/-- The items of a target were read on from items that read its symbol. -/
theorem mem_kernelFor {g : Grammar} {items : List Item} {symbol : Term} {k : Item}
    (h : k ∈ kernelFor g items symbol) :
    ∃ i ∈ items, i.next? = some symbol ∧ k = i.advance := by
  obtain ⟨i, hi, rfl⟩ := List.mem_map.mp ((kernelFor_sublist g items symbol).mem h)
  obtain ⟨hi, hnext⟩ := List.mem_filter.mp hi
  exact ⟨i, hi, by simpa using hnext, rfl⟩

theorem foldl_max_eq_zero {levels : List Nat} (h : ∀ n ∈ levels, n = 0) :
    levels.foldl max 0 = 0 := by
  induction levels with
  | nil => rfl
  | cons n levels ih =>
    rw [List.foldl_cons, h n (.head _)]
    exact ih fun m hm => h m (.tail _ hm)

/-- Where no rule cuts others off, all items are read on. -/
theorem advance_mem_kernelFor {g : Grammar} (hg : g.Unmarked) {items : List Item}
    (hitems : ∀ i ∈ items, i.rule ∈ g.rules) {symbol : Term} {i : Item} (hi : i ∈ items)
    (hnext : i.next? = some symbol) : i.advance ∈ kernelFor g items symbol := by
  have hmem : i.advance ∈ (items.filter fun i => i.next? == some symbol).map Item.advance :=
    List.mem_map.mpr ⟨i, List.mem_filter.mpr ⟨hi, by simp [hnext]⟩, rfl⟩
  unfold kernelFor
  dsimp only
  split
  · have hlevels : ∀ n ∈ ((items.filter fun i => i.next? == some symbol).map Item.advance).map
        Search.cutLevel, n = 0 := by
      intro n hn
      obtain ⟨k, hk, rfl⟩ := List.mem_map.mp hn
      obtain ⟨j, hj, rfl⟩ := List.mem_map.mp hk
      have hrule : j.rule ∈ g.rules := hitems j (List.mem_of_mem_filter hj)
      unfold Search.cutLevel Phrase.marksAt
      cases hm : j.advance.rule.marks[j.advance.dot - 1]? with
      | none => rfl
      | some m =>
        have := hg j.rule hrule m (List.mem_of_getElem? hm)
        rw [this]
        rfl
    rw [Search.applyCut, if_pos (foldl_max_eq_zero hlevels)]
    exact hmem
  · exact hmem

theorem nodup_kernelFor {g : Grammar} {items : List Item} (h : (items.map Item.toDotted).Nodup)
    (symbol : Term) : ((kernelFor g items symbol).map Item.toDotted).Nodup := by
  have hinj : Function.Injective fun d : Dotted => ({ d with dot := d.dot + 1 } : Dotted) := by
    intro d e heq
    obtain ⟨hrule, hdot⟩ := Dotted.mk.inj heq
    cases d
    cases e
    simp only at hrule hdot
    rw [hrule, Nat.succ.inj hdot]
  have hall : (items.map fun i => i.advance.toDotted).Nodup := by
    have := h.map hinj
    rwa [List.map_map] at this
  have hfilter := hall.sublist ((List.filter_sublist (p := fun i => i.next? == some symbol)).map _)
  have hsub := (kernelFor_sublist g items symbol).map Item.toDotted
  rw [List.map_map] at hsub
  exact hfilter.sublist hsub

/-! ## §2 Sameness -/

theorem Dotted.same_iff {d d' : Dotted} : d.same d' = true ↔ d = d' := by
  obtain ⟨r, n⟩ := d
  obtain ⟨r', n'⟩ := d'
  simp only [Dotted.same, Bool.and_eq_true, beq_iff_eq, Dotted.mk.injEq]
  constructor
  · rintro ⟨⟨hdot, _⟩, hrule⟩
    exact ⟨hrule, hdot⟩
  · rintro ⟨rfl, rfl⟩
    exact ⟨⟨rfl, rfl⟩, rfl⟩

namespace Item

theorem sameCores_iff {items items' : List Item} :
    sameCores items items' = true ↔ items.map Item.toDotted = items'.map Item.toDotted := by
  induction items generalizing items' with
  | nil => cases items' <;> simp [sameCores]
  | cons i items ih =>
    cases items' with
    | nil => simp [sameCores]
    | cons j items' => simp [sameCores, Dotted.same_iff, ih]

/-- Items and those of others that are not among them are for the dotted rules of
both. -/
theorem exists_append_notIn (items more : List Item) {p : Dotted → Prop} :
    (∃ i ∈ items ++ notIn items more, p i.toDotted) ↔
      (∃ i ∈ items, p i.toDotted) ∨ ∃ i ∈ more, p i.toDotted := by
  constructor
  · rintro ⟨i, hi, hp⟩
    rcases List.mem_append.mp hi with hi | hi
    · exact .inl ⟨i, hi, hp⟩
    · exact .inr ⟨i, List.mem_of_mem_filter hi, hp⟩
  · rintro (⟨i, hi, hp⟩ | ⟨i, hi, hp⟩)
    · exact ⟨i, List.mem_append_left _ hi, hp⟩
    · by_cases hin : ∃ o ∈ items, o.toDotted.same i.toDotted = true
      · obtain ⟨o, ho, hoi⟩ := hin
        exact ⟨o, List.mem_append_left _ ho, Dotted.same_iff.mp hoi ▸ hp⟩
      · refine ⟨i, List.mem_append_right _ (List.mem_filter.mpr ⟨hi, ?_⟩), hp⟩
        simpa using hin

theorem same_iff {a b : Item} :
    a.same b = true ↔ a.toDotted = b.toDotted ∧ a.ahead = b.ahead ∧
      a.skipAhead = b.skipAhead ∧ a.ambigAhead = b.ambigAhead := by
  simp only [same, Bool.and_eq_true, beq_iff_eq]
  constructor
  · rintro ⟨⟨⟨⟨⟨hdot, _⟩, hahead⟩, hskip⟩, hambig⟩, hrule⟩
    refine ⟨?_, hahead, hskip, hambig⟩
    calc a.toDotted = ⟨a.rule, a.dot⟩ := rfl
      _ = b.toDotted := by rw [hrule, hdot]
  · rintro ⟨hdotted, hahead, hskip, hambig⟩
    have hrule : a.rule = b.rule := congrArg Dotted.rule hdotted
    have hdot : a.dot = b.dot := congrArg Dotted.dot hdotted
    exact ⟨⟨⟨⟨⟨hdot, by rw [hrule]⟩, hahead⟩, hskip⟩, hambig⟩, hrule⟩

/-- Items that are the same but for their origins. -/
theorem same_symm {a b : Item} (h : a.same b = true) : b.same a = true := by
  obtain ⟨hdotted, hahead, hskip, hambig⟩ := same_iff.mp h
  exact same_iff.mpr ⟨hdotted.symm, hahead.symm, hskip.symm, hambig.symm⟩

theorem sameAll_symm {as bs : List Item} (h : sameAll as bs = true) : sameAll bs as = true := by
  induction as generalizing bs with
  | nil =>
    cases bs with
    | nil => rfl
    | cons b bs => cases h
  | cons a as ih =>
    cases bs with
    | nil => cases h
    | cons b bs =>
      simp only [sameAll, Bool.and_eq_true] at h ⊢
      exact ⟨same_symm h.1, ih h.2⟩

theorem sameAll_refl (items : List Item) : sameAll items items = true := by
  induction items with
  | nil => rfl
  | cons i items ih =>
    simp only [sameAll, Bool.and_eq_true]
    exact ⟨same_iff.mpr ⟨rfl, rfl, rfl, rfl⟩, ih⟩

theorem exists_same_of_mem {as bs : List Item} (h : sameAll as bs = true) {a : Item}
    (ha : a ∈ as) : ∃ b ∈ bs, a.same b = true := by
  induction as generalizing bs with
  | nil => cases ha
  | cons a' as ih =>
    cases bs with
    | nil => cases h
    | cons b bs =>
      simp only [sameAll, Bool.and_eq_true] at h
      rcases List.mem_cons.mp ha with rfl | ha
      · exact ⟨b, .head _, h.1⟩
      · obtain ⟨b', hb', hsame⟩ := ih h.2 ha
        exact ⟨b', .tail _ hb', hsame⟩

end Item

/-! ## §3 Seeds -/

/-- The items that the entry state of a symbol begins with. -/
def entryItems (g : Grammar) (noSkip start : Term) : List Item :=
  (g.rulesFor start).map fun r =>
    { rule := r, dot := 0, ahead := TermSet.empty.insert .eof, ambigAhead := [],
      skipAhead := ((g.rulesFor start).head?.map Rule.skip).getD noSkip }

/-- How states come about: as entries, or by reading a symbol that an item of
another state reads next. -/
inductive Grown (g : Grammar) (table : FirstTable) (noSkip : Term) : Seed → Prop where
  | entry {start skip : Term} {items : List Item} (rules : g.rulesFor start ≠ [])
      (closed : closure g table (Item.sort (entryItems g noSkip start)) = .ok items) :
      Grown g table noSkip ⟨Item.sort (entryItems g noSkip start), items, skip, some start⟩
  | read {source : Seed} {symbol skip : Term} {items : List Item}
      (grown : Grown g table noSkip source)
      (next : ∃ i ∈ source.items, i.next? = some symbol)
      (closed : closure g table (Item.sort (kernelFor g source.items symbol)) = .ok items) :
      Grown g table noSkip
        ⟨Item.sort (kernelFor g source.items symbol), items, skip, none⟩

namespace Grown

variable {g : Grammar} {table : FirstTable} {noSkip : Term} {seed : Seed}

theorem closed (h : Grown g table noSkip seed) : closure g table seed.kernel = .ok seed.items := by
  cases h with
  | entry _ h => exact h
  | read _ _ h => exact h

theorem mem_entryItems {start : Term} {k : Item} (h : k ∈ entryItems g noSkip start) :
    k.rule ∈ g.rulesFor start ∧ k.dot = 0 ∧ k.ahead = TermSet.empty.insert .eof ∧
      k.ambigAhead = [] := by
  obtain ⟨r, hr, rfl⟩ := List.mem_map.mp h
  exact ⟨hr, rfl, rfl, rfl⟩

/-- The items of a state are for rules of the grammar. -/
theorem rule_mem (h : Grown g table noSkip seed) : ∀ i ∈ seed.items, i.rule ∈ g.rules := by
  induction h with
  | entry _ hclosed =>
    intro i hi
    rcases closure_sound hclosed hi with hk | hs
    · exact (Closing.mem_rulesFor.mp (mem_entryItems (Item.mem_sort.mp hk)).1).1
    · exact hs.rule
  | read _ _ hclosed ih =>
    intro i hi
    rcases closure_sound hclosed hi with hk | hs
    · obtain ⟨j, hj, _, rfl⟩ := mem_kernelFor (Item.mem_sort.mp hk)
      exact ih j hj
    · exact hs.rule

theorem kernel_rule_mem (h : Grown g table noSkip seed) : ∀ k ∈ seed.kernel, k.rule ∈ g.rules := by
  intro k hk
  cases h with
  | entry =>
    exact (Closing.mem_rulesFor.mp (mem_entryItems (Item.mem_sort.mp hk)).1).1
  | read hsource =>
    obtain ⟨j, hj, _, rfl⟩ := mem_kernelFor (Item.mem_sort.mp hk)
    exact hsource.rule_mem j hj

/-- Reading leads to items of rules of which something has been read. -/
theorem kernel_dot_ne_zero (h : Grown g table noSkip seed) (hs : seed.start = none) :
    ∀ k ∈ seed.kernel, k.dot ≠ 0 := by
  cases h with
  | entry => cases hs
  | read _ _ _ =>
    intro k hk
    obtain ⟨j, _, _, rfl⟩ := mem_kernelFor (Item.mem_sort.mp hk)
    exact Nat.succ_ne_zero j.dot

/-- The kernel of an entry state is for the rules of its symbol. -/
theorem kernel_eq_entry {start : Term} (h : Grown g table noSkip seed)
    (hs : seed.start = some start) : seed.kernel = Item.sort (entryItems g noSkip start) := by
  cases h with
  | entry => cases hs; rfl
  | read => cases hs

theorem nodup_sort {items : List Item} (h : (items.map Item.toDotted).Nodup) :
    ((Item.sort items).map Item.toDotted).Nodup :=
  (((List.mergeSort_perm _ _).map Item.toDotted).nodup_iff).mpr h

theorem nodup_entryItems (hg : g.rules.Nodup) (noSkip start : Term) :
    ((entryItems g noSkip start).map Item.toDotted).Nodup := by
  rw [entryItems, List.map_map]
  refine (hg.filter _).map fun r r' heq => ?_
  exact (Dotted.mk.inj heq).1

/-- Of each dotted rule a state has at most one item. -/
theorem nodup (hg : g.rules.Nodup) (h : Grown g table noSkip seed) :
    (seed.kernel.map Item.toDotted).Nodup ∧ (seed.items.map Item.toDotted).Nodup := by
  induction h with
  | @entry start _ _ _ hclosed =>
    have hk := nodup_sort (nodup_entryItems hg noSkip start)
    exact ⟨hk, closure_nodup hg hclosed hk⟩
  | @read _ symbol _ _ _ _ hclosed ih =>
    have hk := nodup_sort (nodup_kernelFor (g := g) ih.2 symbol)
    exact ⟨hk, closure_nodup hg hclosed hk⟩

theorem areApart_sort {items : List Item} (h : AreApart items) : AreApart (Item.sort items) :=
  fun i hi j hj => h i (Item.mem_sort.mp hi) j (Item.mem_sort.mp hj)

theorem areApart_entryItems (g : Grammar) (noSkip start : Term) :
    AreApart (entryItems g noSkip start) := by
  intro i hi j hj heq
  obtain ⟨r, _, rfl⟩ := List.mem_map.mp hi
  obtain ⟨r', _, rfl⟩ := List.mem_map.mp hj
  rw [show r = r' from congrArg Dotted.rule heq]

theorem areApart_kernelFor {items : List Item} (h : AreApart items) (symbol : Term) :
    AreApart (kernelFor g items symbol) := by
  intro k hk k' hk' heq
  obtain ⟨i, hi, _, rfl⟩ := mem_kernelFor hk
  obtain ⟨j, hj, _, rfl⟩ := mem_kernelFor hk'
  obtain ⟨hrule, hdot⟩ :=
    Dotted.mk.inj (show (⟨i.rule, i.dot + 1⟩ : Dotted) = ⟨j.rule, j.dot + 1⟩ from heq)
  have hdotted : i.toDotted = j.toDotted := by
    calc i.toDotted = ⟨i.rule, i.dot⟩ := rfl
      _ = ⟨j.rule, j.dot⟩ := by rw [hrule, Nat.succ.inj hdot]
  rw [h i hi j hj hdotted]

/-- The items of a state are for different dotted rules, and those of its
kernel are. -/
theorem areApart (h : Grown g table noSkip seed) : AreApart seed.kernel ∧ AreApart seed.items := by
  induction h with
  | @entry start _ _ _ hclosed =>
    have hk := areApart_sort (areApart_entryItems g noSkip start)
    exact ⟨hk, closure_areApart hclosed hk⟩
  | @read _ symbol _ _ _ _ hclosed ih =>
    have hk := areApart_sort (areApart_kernelFor (g := g) ih.2 symbol)
    exact ⟨hk, closure_areApart hclosed hk⟩

/-- All items of a state have read the same: of what was read on one way to
the state, each as much as its rule has parts before the dot. -/
theorem exists_path (h : Grown g table noSkip seed) :
    ∃ path : List Term, ∀ i ∈ seed.items, (i.rule.parts.take i.dot).reverse <+: path := by
  have hzero : ∀ {i : Item} (path : List Term), i.dot = 0 →
      (i.rule.parts.take i.dot).reverse <+: path := by
    intro i path hd
    rw [hd]
    exact List.nil_prefix
  induction h with
  | entry _ hclosed =>
    refine ⟨[], fun i hi => hzero [] ?_⟩
    rcases closure_sound hclosed hi with hk | hs
    · exact (mem_entryItems (Item.mem_sort.mp hk)).2.1
    · exact hs.dot
  | @read source symbol _ _ _ _ hclosed ih =>
    obtain ⟨path, hpath⟩ := ih
    refine ⟨symbol :: path, fun i hi => ?_⟩
    rcases closure_sound hclosed hi with hk | hs
    · obtain ⟨j, hj, hnext, rfl⟩ := mem_kernelFor (Item.mem_sort.mp hk)
      have htake : j.rule.parts.take (j.dot + 1) = j.rule.parts.take j.dot ++ [symbol] := by
        rw [List.take_add_one, show j.rule.parts[j.dot]? = some symbol from hnext]
        rfl
      show (j.rule.parts.take (j.dot + 1)).reverse <+: symbol :: path
      rw [htake, List.reverse_append, List.reverse_singleton, List.singleton_append]
      exact List.cons_prefix_cons.mpr ⟨rfl, hpath j hj⟩
    · exact hzero _ hs.dot

/-- No more of a rule has been read than it has parts. -/
theorem dot_le (h : Grown g table noSkip seed) : ∀ i ∈ seed.items, i.dot ≤ i.rule.parts.length := by
  induction h with
  | entry _ hclosed =>
    intro i hi
    rcases closure_sound hclosed hi with hk | hs
    · rw [(mem_entryItems (Item.mem_sort.mp hk)).2.1]
      exact Nat.zero_le _
    · rw [hs.dot]
      exact Nat.zero_le _
  | read _ _ hclosed _ =>
    intro i hi
    rcases closure_sound hclosed hi with hk | hs
    · obtain ⟨j, _, hnext, rfl⟩ := mem_kernelFor (Item.mem_sort.mp hk)
      exact (List.getElem?_eq_some_iff.mp hnext).1
    · rw [hs.dot]
      exact Nat.zero_le _

/-- Where a grammar allows no ambiguities, nothing is ambiguous in a state. -/
theorem ambigAhead (hg : g.NoAmbiguities) (h : Grown g table noSkip seed) :
    ∀ i ∈ seed.items, i.ambigAhead = [] := by
  induction h with
  | entry _ hclosed =>
    refine fun i hi => (closure_ambigAhead hg (fun k hk => ?_) hclosed i hi).2
    obtain ⟨hr, _, _, hambig⟩ := mem_entryItems (Item.mem_sort.mp hk)
    exact ⟨(Closing.mem_rulesFor.mp hr).1, hambig⟩
  | read hsource _ hclosed ih =>
    refine fun i hi => (closure_ambigAhead hg (fun k hk => ?_) hclosed i hi).2
    obtain ⟨j, hj, _, rfl⟩ := mem_kernelFor (Item.mem_sort.mp hk)
    exact ⟨hsource.rule_mem j hj, ih j hj⟩

/-- Items for rules of top symbols are in the kernel, if top symbols do not occur in
rules. -/
theorem mem_kernel_of_top (htop : ∀ r ∈ g.rules, ∀ t ∈ r.parts, g.terms.isTop t = false)
    (h : Grown g table noSkip seed) {i : Item} (hi : i ∈ seed.items)
    (hkind : g.terms.isTop i.rule.name = true) : i ∈ seed.kernel := by
  refine (closure_sound h.closed hi).resolve_right fun hs => ?_
  obtain ⟨r, hr, hmem⟩ := hs.occurs
  have hrules : r ∈ g.rules := by
    rcases hr with hr | ⟨k, hk, rfl⟩
    · exact hr
    · exact h.kernel_rule_mem k hk
  rw [htop r hrules _ hmem] at hkind
  cases hkind

/-- States that have read the same of a rule of a top symbol are for the same items,
as they come from the entry state of the symbol in the same way. -/
theorem items_eq_of_top (htop : ∀ r ∈ g.rules, ∀ t ∈ r.parts, g.terms.isTop t = false)
    {seed' : Seed} (h : Grown g table noSkip seed) (h' : Grown g table noSkip seed') {i i' : Item}
    (hi : i ∈ seed.items) (hi' : i' ∈ seed'.items) (heq : i.toDotted = i'.toDotted)
    (hkind : g.terms.isTop i.rule.name = true) : seed.items = seed'.items := by
  have hrule : i.rule = i'.rule := congrArg Dotted.rule heq
  have hk := h.mem_kernel_of_top htop hi hkind
  have hk' := h'.mem_kernel_of_top htop hi' (hrule ▸ hkind)
  induction h generalizing seed' i i' with
  | @entry start _ _ _ hclosed =>
    obtain ⟨hr, hd, _⟩ := mem_entryItems (Item.mem_sort.mp hk)
    have hd' : i'.dot = 0 := (congrArg Dotted.dot heq).symm.trans hd
    cases h' with
    | @entry start' _ _ _ hclosed' =>
      obtain ⟨hr', _⟩ := mem_entryItems (Item.mem_sort.mp hk')
      obtain rfl : start = start' := by
        rw [← (Closing.mem_rulesFor.mp hr).2, hrule, (Closing.mem_rulesFor.mp hr').2]
      exact Except.ok.inj (hclosed.symm.trans hclosed')
    | read =>
      obtain ⟨j, _, _, rfl⟩ := mem_kernelFor (Item.mem_sort.mp hk')
      cases hd'
  | @read source symbol _ _ hsource _ hclosed ih =>
    obtain ⟨j, hj, hnext, rfl⟩ := mem_kernelFor (Item.mem_sort.mp hk)
    cases h' with
    | entry =>
      obtain ⟨_, hd', _⟩ := mem_entryItems (Item.mem_sort.mp hk')
      cases (congrArg Dotted.dot heq).trans hd'
    | @read source' symbol' _ _ hsource' _ hclosed' =>
      obtain ⟨j', hj', hnext', rfl⟩ := mem_kernelFor (Item.mem_sort.mp hk')
      have hdot : j.dot = j'.dot := Nat.succ.inj (congrArg Dotted.dot heq)
      have hdotted : j.toDotted = j'.toDotted :=
        calc j.toDotted = ⟨j.rule, j.dot⟩ := rfl
          _ = ⟨j'.rule, j'.dot⟩ := by rw [hdot, show j.rule = j'.rule from hrule]
      obtain rfl : symbol = symbol' := by
        rw [hdotted, hnext'] at hnext
        exact (Option.some.inj hnext).symm
      have hitems := ih hsource' hj hj' hdotted hkind hrule
        (hsource.mem_kernel_of_top htop hj hkind)
        (hsource'.mem_kernel_of_top htop hj' (hrule ▸ hkind))
      rw [hitems] at hclosed
      exact Except.ok.inj (hclosed.symm.trans hclosed')

end Grown

/-! ## §4 Finding -/

/-- `Extends seeds seeds'`: the second list of states begins with the first. -/
def Extends (seeds seeds' : Array Seed) : Prop :=
  ∀ (p : Nat) (seed : Seed), seeds[p]? = some seed → seeds'[p]? = some seed

theorem Extends.refl (seeds : Array Seed) : Extends seeds seeds :=
  fun _ _ h => h

theorem Extends.trans {a b c : Array Seed} (h : Extends a b) (h' : Extends b c) : Extends a c :=
  fun p seed hp => h' p seed (h p seed hp)

theorem extends_push (seeds : Array Seed) (seed : Seed) : Extends seeds (seeds.push seed) := by
  intro p other hp
  obtain ⟨hlt, rfl⟩ := Array.getElem?_eq_some_iff.mp hp
  rw [Array.getElem?_push_lt hlt]

/-- `Leads g seeds p symbol q`: state `q` is where reading a symbol in state
`p` leads to. -/
def Leads (g : Grammar) (seeds : Array Seed) (p : Nat) (symbol : Term) (q : Nat) : Prop :=
  ∃ source target, seeds[p]? = some source ∧ seeds[q]? = some target ∧
    Item.sameAll target.kernel (Item.sort (kernelFor g source.items symbol)) = true

theorem Leads.mono {g : Grammar} {seeds seeds' : Array Seed} (he : Extends seeds seeds')
    {p q : Nat} {symbol : Term} (h : Leads g seeds p symbol q) : Leads g seeds' p symbol q := by
  obtain ⟨source, target, hs, ht, hsame⟩ := h
  exact ⟨source, target, he p source hs, he q target ht, hsame⟩

theorem Leads.lt_size {g : Grammar} {seeds : Array Seed} {p q : Nat} {symbol : Term}
    (h : Leads g seeds p symbol q) : q < seeds.size := by
  obtain ⟨_, target, _, htarget, _⟩ := h
  exact (Array.getElem?_eq_some_iff.mp htarget).1

/-- Where something has been read in the state that a symbol leads to, that
symbol was read last. -/
theorem Leads.exists_source {g : Grammar} {table : FirstTable} {noSkip : Term}
    {seeds : Array Seed} {p q : Nat} {symbol : Term} (h : Leads g seeds p symbol q) {target : Seed}
    (ht : seeds[q]? = some target) (hgrown : Grown g table noSkip target) {i : Item}
    (hi : i ∈ target.items) (hd : i.dot ≠ 0) :
    ∃ source, seeds[p]? = some source ∧ ∃ j ∈ source.items, j.next? = some symbol ∧
      i.toDotted = ⟨j.rule, j.dot + 1⟩ ∧ i.ahead = j.ahead := by
  obtain ⟨source, target', hs, ht', hsame⟩ := h
  cases ht.symm.trans ht'
  have hk : i ∈ target.kernel := (mem_closure_of_dot_ne_zero hgrown.closed hd).mp hi
  obtain ⟨k, hk, hik⟩ := Item.exists_same_of_mem hsame hk
  obtain ⟨j, hj, hnext, rfl⟩ := mem_kernelFor (Item.mem_sort.mp hk)
  obtain ⟨hdotted, hahead, _⟩ := Item.same_iff.mp hik
  exact ⟨source, hs, j, hj, hnext, hdotted, hahead⟩

/-- Where a symbol is read in a grammar without marks, the state that it leads
to has the item that has read it. -/
theorem Leads.exists_target {g : Grammar} (hg : g.Unmarked) {table : FirstTable} {noSkip : Term}
    {seeds : Array Seed} {p q : Nat} {symbol : Term} (h : Leads g seeds p symbol q)
    {source target : Seed} (hs : seeds[p]? = some source) (ht : seeds[q]? = some target)
    (hsource : Grown g table noSkip source) (htarget : Grown g table noSkip target) {i : Item}
    (hi : i ∈ source.items) (hnext : i.next? = some symbol) :
    ∃ j ∈ target.items, j.toDotted = ⟨i.rule, i.dot + 1⟩ ∧ j.ahead = i.ahead := by
  obtain ⟨source', target', hs', ht', hsame⟩ := h
  cases hs.symm.trans hs'
  cases ht.symm.trans ht'
  have hadvance := advance_mem_kernelFor hg hsource.rule_mem hi hnext
  obtain ⟨j, hj, hij⟩ := Item.exists_same_of_mem (Item.sameAll_symm hsame)
    (Item.mem_sort.mpr hadvance)
  obtain ⟨hdotted, hahead, _⟩ := Item.same_iff.mp hij
  have hd : j.dot ≠ 0 := by
    have hdot : i.dot + 1 = j.dot := congrArg Dotted.dot hdotted
    omega
  exact ⟨j, (mem_closure_of_dot_ne_zero htarget.closed hd).mpr hj, hdotted.symm, hahead.symm⟩

/-- No state leads to one in which a rule of the kernel has not been begun. -/
theorem Leads.kernel_dot_ne_zero {g : Grammar} {seeds : Array Seed} {p q : Nat} {symbol : Term}
    (h : Leads g seeds p symbol q) {target : Seed} (ht : seeds[q]? = some target) :
    ∀ k ∈ target.kernel, k.dot ≠ 0 := by
  obtain ⟨source, target', _, ht', hsame⟩ := h
  cases ht.symm.trans ht'
  intro k hk
  obtain ⟨k', hk', hsame⟩ := Item.exists_same_of_mem hsame hk
  obtain ⟨j, _, _, rfl⟩ := mem_kernelFor (Item.mem_sort.mp hk')
  have hdot : k.dot = j.dot + 1 := congrArg Dotted.dot (Item.same_iff.mp hsame).1
  omega

namespace Search

variable {g : Grammar} {table : FirstTable} {noSkip : Term}

theorem find?_eq_some {s : Search} {kernel : List Item} {q : Nat} (h : s.find? kernel = some q) :
    ∃ seed, s.seeds[q]? = some seed ∧ Item.sameAll seed.kernel kernel = true := by
  have hany := List.find?_some h
  cases hseed : s.seeds[q]? with
  | none => simp [hseed] at hany
  | some seed =>
    rw [hseed] at hany
    exact ⟨seed, rfl, hany⟩

/-- All that looking for the state of a kernel can do: it is known, or it
becomes a new one. -/
theorem stateOf_ok {kernel : List Item} {start : Option Term} {s s' : Search} {q : Nat}
    (h : stateOf g table kernel start s = .ok (q, s')) :
    (s' = s ∧ start = none ∧ ∃ seed, s.seeds[q]? = some seed ∧
      Item.sameAll seed.kernel (Item.sort kernel) = true) ∨
    ∃ items skip, closure g table (Item.sort kernel) = .ok items ∧ q = s.seeds.size ∧
      s' = s.push ⟨Item.sort kernel, items, skip, start⟩ := by
  unfold stateOf at h
  dsimp only at h
  obtain ⟨skip, _, h⟩ := exists_ok_of_bind h
  split at h
  · rename_i known hknown
    cases h
    cases start with
    | some start => cases hknown
    | none => exact .inl ⟨rfl, rfl, find?_eq_some hknown⟩
  · obtain ⟨items, hclosed, h⟩ := exists_ok_of_bind h
    cases h
    exact .inr ⟨items, skip, hclosed, rfl, rfl⟩

/-- `Advances g table noSkip s s'`: a search in which all states came about
properly has gone on, without forgetting a state or a conflict. -/
structure Advances (g : Grammar) (table : FirstTable) (noSkip : Term) (s s' : Search) :
    Prop where
  seeds : Extends s.seeds s'.seeds
  grown : (∀ (p : Nat) seed, s.seeds[p]? = some seed → Grown g table noSkip seed) →
    ∀ (p : Nat) seed, s'.seeds[p]? = some seed → Grown g table noSkip seed
  clashes : s'.clashes = [] → s.clashes = []

theorem Advances.refl (s : Search) : Advances g table noSkip s s :=
  ⟨.refl _, id, id⟩

theorem Advances.trans {a b c : Search} (h : Advances g table noSkip a b)
    (h' : Advances g table noSkip b c) : Advances g table noSkip a c :=
  ⟨h.seeds.trans h'.seeds, h'.grown ∘ h.grown, h.clashes ∘ h'.clashes⟩

/-- Adding a state that came about properly. -/
theorem advances_push {s : Search} {seed : Seed}
    (h : (∀ (p : Nat) other, s.seeds[p]? = some other → Grown g table noSkip other) →
      Grown g table noSkip seed) : Advances g table noSkip s (s.push seed) where
  seeds := extends_push s.seeds seed
  grown hall p other hp := by
    rw [show (s.push seed).seeds = s.seeds.push seed from rfl, Array.getElem?_push] at hp
    split at hp
    · cases hp
      exact h hall
    · exact hall p other hp
  clashes := id

/-- Looking for the state that a symbol leads to. -/
theorem advances_stateOf (noSkip : Term) {s s' : Search} {p q : Nat} {source : Seed}
    {symbol : Term}
    (hp : s.seeds[p]? = some source) (hnext : ∃ i ∈ source.items, i.next? = some symbol)
    (h : stateOf g table (kernelFor g source.items symbol) none s = .ok (q, s')) :
    Advances g table noSkip s s' ∧ Leads g s'.seeds p symbol q := by
  rcases stateOf_ok h with ⟨rfl, _, seed, hseed, hsame⟩ | ⟨items, skip, hclosed, rfl, rfl⟩
  · exact ⟨.refl _, source, seed, hp, hseed, hsame⟩
  · refine ⟨advances_push fun hall => .read (hall p source hp) hnext hclosed, source,
      ⟨_, items, skip, none⟩, extends_push _ _ p source hp, ?_, Item.sameAll_refl _⟩
    exact Array.getElem?_push_size

end Search

/-! ## §5 Justice -/

/-- `Justified g seeds p items action`: the items of state `p` call for an
action. -/
def Justified (g : Grammar) (seeds : Array Seed) (p : Nat) (items : List Item) : Action → Prop
  | .shift t q => g.isTerminal t = true ∧ Leads g seeds p t q
  | .reduce t r => ∃ i ∈ items, i.rule = r ∧ i.atEnd = true ∧ g.terms.isTop r.name = false ∧
      i.ahead.contains t = true

theorem Justified.mono {g : Grammar} {seeds seeds' : Array Seed} (he : Extends seeds seeds')
    {p : Nat} {items : List Item} {action : Action} (h : Justified g seeds p items action) :
    Justified g seeds' p items action := by
  cases action with
  | shift t q => exact ⟨h.1, h.2.mono he⟩
  | reduce t r => exact h

namespace Cause

variable {g : Grammar} {context : List Item} {new : Cause}

@[simp]
theorem causes_behind (old : Cause) (outcome : Outcome) :
    (outcome.behind old).causes = old :: outcome.causes := by
  cases outcome <;> rfl

/-- Adding an action adds nothing else. -/
theorem mem_add {causes : List Cause} {c : Cause} (h : c ∈ (add g context new causes).causes) :
    c = new ∨ c ∈ causes := by
  induction causes with
  | nil => exact .inl (List.mem_singleton.mp h)
  | cons old rest ih =>
    have hbehind : c ∈ ((add g context new rest).behind old).causes →
        c = new ∨ c ∈ old :: rest := by
      intro h
      rw [causes_behind] at h
      rcases List.mem_cons.mp h with rfl | h
      · exact .inr (.head _)
      · exact (ih h).imp_right (.tail _)
    unfold add at h
    dsimp only at h
    split at h
    · exact hbehind h
    · split at h
      · exact .inr h
      · split at h
        · exact (ih h).imp_right (.tail _)
        · exact .inr h
        · split at h
          · exact hbehind h
          · exact .inr h

end Cause

theorem Clash.eq_nil_of_log {g : Grammar} {clashes : List Clash} {old new : Cause}
    (h : Clash.log g clashes old new = []) : clashes = [] := by
  unfold Clash.log at h
  split at h
  · dsimp only at h
    split at h
    · exact h
    · exact (List.append_eq_nil_iff.mp h).1
  · exact h

/-- A conflict is logged, unless one is already. -/
theorem Clash.log_ne_nil {g : Grammar} {clashes : List Clash} {old new : Cause}
    (hold : old.items ≠ []) (hnew : new.items ≠ []) : Clash.log g clashes old new ≠ [] := by
  obtain ⟨i, is, hi⟩ := List.exists_cons_of_ne_nil hold
  obtain ⟨j, js, hj⟩ := List.exists_cons_of_ne_nil hnew
  unfold Clash.log
  rw [hi, hj]
  simp only [List.head?_cons]
  split
  · rename_i hany
    intro hnil
    rw [hnil] at hany
    cases hany
  · exact List.append_ne_nil_of_right_ne_nil _ (List.cons_ne_nil _ _)

namespace Search

variable {g : Grammar} {table : FirstTable} {noSkip : Term} {context : List Item}

/-- What adding an action to a state does, whatever comes of it. -/
theorem addAction_spec (g : Grammar) (table : FirstTable) (noSkip : Term) (context : List Item)
    (new : Cause) (causes : Array Cause) (s : Search) :
    (∀ c ∈ (addAction g context new causes s).1.toList, c = new ∨ c ∈ causes.toList) ∧
      Advances g table noSkip s (addAction g context new causes s).2 := by
  unfold addAction
  split
  · split
    · rename_i cs old hadd
      refine ⟨fun c hc => ?_, .refl _, id, Clash.eq_nil_of_log⟩
      have hc : c ∈ (Cause.add g context new causes.toList).causes := by
        rw [hadd]
        exact hc
      exact Cause.mem_add hc
    · exact ⟨fun c hc => Cause.mem_add hc, .refl s⟩
  · refine ⟨fun c hc => ?_, .refl s⟩
    rw [Array.toList_push, List.mem_append, List.mem_singleton] at hc
    exact hc.symm

/-- The actions and gotos read so far are justified. -/
structure IsJust (g : Grammar) (seeds : Array Seed) (p : Nat) (items : List Item)
    (r : Reading) : Prop where
  actions : ∀ c ∈ r.causes.toList, Justified g seeds p items c.action
  gotos : ∀ x ∈ r.gotos, g.isTerminal x.term = false ∧ Leads g seeds p x.term x.target

theorem IsJust.mono {seeds seeds' : Array Seed} (he : Extends seeds seeds') {p : Nat}
    {items : List Item} {r : Reading} (h : IsJust g seeds p items r) :
    IsJust g seeds' p items r :=
  ⟨fun c hc => (h.actions c hc).mono he, fun x hx => ⟨(h.gotos x hx).1, (h.gotos x hx).2.mono he⟩⟩

/-- All that reading a symbol in a state can do. -/
theorem readSymbol_ok {items : List Item} {symbol : Term} {r r' : Reading} {s s' : Search}
    (h : readSymbol g table context (r, s)
      (symbol, items.filter fun i => i.next? == some symbol) = .ok (r', s')) :
    ∃ q next, stateOf g table (kernelFor g items symbol) none s = .ok (q, next) ∧
      ((g.isTerminal symbol = true ∧
        r'.causes = (addAction g context ⟨.shift symbol q, items.filter fun i =>
          i.next? == some symbol⟩ r.causes next).1 ∧
        s' = (addAction g context ⟨.shift symbol q, items.filter fun i =>
          i.next? == some symbol⟩ r.causes next).2 ∧
        r'.gotos = r.gotos ∧ r'.replaced = r.replaced) ∨
      (g.isTerminal symbol = false ∧ s' = next ∧ r'.causes = r.causes ∧
        r'.gotos = r.gotos ++ [⟨symbol, q⟩] ∧ r'.replaced = r.replaced)) := by
  unfold readSymbol at h
  dsimp only at h
  cases ht : g.isTerminal symbol with
  | true =>
    rw [ht, if_pos rfl] at h
    obtain ⟨⟨q, next⟩, hstate, h⟩ := exists_ok_of_bind h
    cases h
    refine ⟨q, next, ?_, .inl ⟨rfl, rfl, rfl, rfl, rfl⟩⟩
    rw [kernelFor, ht, if_pos rfl]
    exact hstate
  | false =>
    rw [ht, if_neg Bool.false_ne_true] at h
    obtain ⟨⟨q, next⟩, hstate, h⟩ := exists_ok_of_bind h
    cases h
    refine ⟨q, next, ?_, .inr ⟨rfl, rfl, rfl, rfl, rfl⟩⟩
    rw [kernelFor, ht, if_neg Bool.false_ne_true]
    exact hstate

/-- The symbols that are read next, with the items that read them. -/
theorem mem_byNext {items reading : List Item} {symbol : Term}
    (h : (symbol, reading) ∈ byNext items) :
    reading = (items.filter fun i => i.next? == some symbol) ∧
      ∃ i ∈ items, i.next? = some symbol := by
  obtain ⟨t, ht, heq⟩ := List.mem_map.mp h
  cases heq
  have ht := (Term.mem_foldl_addNew.mp ht).resolve_left List.not_mem_nil
  obtain ⟨i, hi, hnext⟩ := List.mem_filterMap.mp ht
  exact ⟨rfl, i, hi, hnext⟩

theorem mem_byNext_of_next {items : List Item} {i : Item} {t : Term} (hi : i ∈ items)
    (ht : i.next? = some t) : (t, items.filter fun i => i.next? == some t) ∈ byNext items :=
  List.mem_map.mpr ⟨t, Term.mem_foldl_addNew.mpr (.inr (List.mem_filterMap.mpr ⟨i, hi, ht⟩)), rfl⟩

theorem keys_byNext (items : List Item) :
    (byNext items).map Prod.fst = (items.filterMap fun i => i.next?).foldl Term.addNew [] := by
  rw [byNext, List.map_map]
  exact List.map_id _

/-- Reading a symbol keeps to what is justified. -/
theorem isJust_readSymbol (noSkip : Term) {items : List Item} {p : Nat} {source : Seed}
    {symbol : Term} {r r' : Reading} {s s' : Search} (hp : s.seeds[p]? = some source)
    (hnext : ∃ i ∈ source.items, i.next? = some symbol)
    (h : readSymbol g table context (r, s)
      (symbol, source.items.filter fun i => i.next? == some symbol) = .ok (r', s'))
    (hr : IsJust g s.seeds p items r) :
    Advances g table noSkip s s' ∧ IsJust g s'.seeds p items r' ∧
      ∃ q, Leads g s'.seeds p symbol q := by
  obtain ⟨q, next, hstate, hcases⟩ := readSymbol_ok h
  obtain ⟨hadvance, hleads⟩ := advances_stateOf noSkip hp hnext hstate
  have hr := hr.mono hadvance.seeds
  rcases hcases with ⟨ht, hcauses, rfl, hgotos, _⟩ | ⟨ht, rfl, hcauses, hgotos, _⟩
  · obtain ⟨hmem, hadd⟩ := addAction_spec g table noSkip context
      ⟨.shift symbol q, source.items.filter fun i => i.next? == some symbol⟩ r.causes next
    refine ⟨hadvance.trans hadd, ⟨fun c hc => ?_, fun x hx => ?_⟩, q, hleads.mono hadd.seeds⟩
    · rw [hcauses] at hc
      rcases hmem c hc with rfl | hc
      · exact ⟨ht, hleads.mono hadd.seeds⟩
      · exact (hr.actions c hc).mono hadd.seeds
    · rw [hgotos] at hx
      exact ⟨(hr.gotos x hx).1, (hr.gotos x hx).2.mono hadd.seeds⟩
  · refine ⟨hadvance, ⟨fun c hc => ?_, fun x hx => ?_⟩, q, hleads⟩
    · rw [hcauses] at hc
      exact hr.actions c hc
    · rw [hgotos] at hx
      rcases List.mem_append.mp hx with hx | hx
      · exact hr.gotos x hx
      · cases List.mem_singleton.mp hx
        exact ⟨ht, hleads⟩

theorem isJust_readSymbols (noSkip : Term) {p : Nat} {source : Seed}
    {next : List (Term × List Item)}
    (hsub : ∀ entry ∈ next, entry ∈ byNext source.items) {r r' : Reading} {s s' : Search}
    (hp : s.seeds[p]? = some source)
    (h : next.foldlM (readSymbol g table context) (r, s) = .ok (r', s'))
    (hr : IsJust g s.seeds p source.items r) :
    Advances g table noSkip s s' ∧ IsJust g s'.seeds p source.items r' ∧
      ∀ entry ∈ next, ∃ q, Leads g s'.seeds p entry.1 q := by
  induction next generalizing r s with
  | nil =>
    cases h
    exact ⟨.refl _, hr, nofun⟩
  | cons entry next ih =>
    obtain ⟨symbol, items⟩ := entry
    rw [List.foldlM_cons] at h
    obtain ⟨⟨r₁, s₁⟩, hstep, hfold⟩ := exists_ok_of_bind h
    obtain ⟨rfl, hnext⟩ := mem_byNext (hsub _ (.head _))
    obtain ⟨hadvance, hr₁, q, hleads⟩ := isJust_readSymbol noSkip hp hnext hstep hr
    obtain ⟨hrest, hr', hnexts⟩ :=
      ih (fun e he => hsub e (.tail _ he)) (hadvance.seeds p source hp) hfold hr₁
    exact ⟨hadvance.trans hrest, hr',
      List.forall_mem_cons.mpr ⟨⟨q, hleads.mono hrest.seeds⟩, hnexts⟩⟩

/-- The reductions that the items of a state call for. -/
theorem mem_reductions {items : List Item} {c : Cause} :
    c ∈ reductions g items ↔ ∃ i ∈ items, i.atEnd = true ∧ g.terms.isTop i.rule.name = false ∧
      ∃ t, i.ahead.contains t = true ∧ c = ⟨.reduce t i.rule, [i]⟩ := by
  simp only [reductions, List.mem_flatMap, List.mem_filter, Bool.and_eq_true, Bool.not_eq_true',
    List.mem_map, TermSet.mem_toList]
  constructor
  · rintro ⟨i, ⟨hi, hend, htop⟩, t, ht, rfl⟩
    exact ⟨i, hi, hend, htop, t, ht, rfl⟩
  · rintro ⟨i, hi, hend, htop, t, ht, rfl⟩
    exact ⟨i, ⟨hi, hend, htop⟩, t, ht, rfl⟩

/-- Adding reductions keeps to what is justified. -/
theorem isJust_addReductions (table : FirstTable) (noSkip : Term) {p : Nat} {items : List Item}
    {news : List Cause} (hnews : ∀ c ∈ news, c ∈ reductions g items) {r : Reading} {s : Search}
    (hr : IsJust g s.seeds p items r) :
    Advances g table noSkip s (news.foldl (addReduction g context) (r, s)).2 ∧
      IsJust g (news.foldl (addReduction g context) (r, s)).2.seeds p items
        (news.foldl (addReduction g context) (r, s)).1 := by
  induction news generalizing r s with
  | nil => exact ⟨.refl _, hr⟩
  | cons new news ih =>
    obtain ⟨hmem, hadd⟩ := addAction_spec g table noSkip context new r.causes s
    have hstep : IsJust g (addReduction g context (r, s) new).2.seeds p items
        (addReduction g context (r, s) new).1 := by
      refine ⟨fun c hc => ?_, fun x hx => ?_⟩
      · rcases hmem c hc with rfl | hc
        · obtain ⟨i, hi, hend, htop, t, ht, rfl⟩ := mem_reductions.mp (hnews c (.head _))
          exact ⟨i, hi, rfl, hend, htop, ht⟩
        · exact (hr.actions c hc).mono hadd.seeds
      · exact ⟨(hr.gotos x hx).1, (hr.gotos x hx).2.mono hadd.seeds⟩
    obtain ⟨hrest, hr'⟩ := ih (fun c hc => hnews c (.tail _ hc)) hstep
    exact ⟨hadd.trans hrest, hr'⟩

end Search

/-- `Fits g seeds p st`: state `p` in its final form has the items that it was
found with, and only does what they call for. What they read next leads to states
that were found, whether or not state `p` still says so. -/
structure Fits (g : Grammar) (seeds : Array Seed) (p : Nat) (st : State) : Prop where
  seed : ∃ seed, seeds[p]? = some seed ∧ st.items = seed.items ∧ st.start = seed.start
  actions : ∀ action ∈ st.actions, Justified g seeds p st.items action
  gotos : ∀ x ∈ st.gotos, g.isTerminal x.term = false ∧ Leads g seeds p x.term x.target
  next : ∀ i ∈ st.items, ∀ t, i.next? = some t → ∃ q, Leads g seeds p t q

theorem Fits.mono {g : Grammar} {seeds seeds' : Array Seed} (he : Extends seeds seeds') {p : Nat}
    {st : State} (h : Fits g seeds p st) : Fits g seeds' p st := by
  obtain ⟨seed, hp, hitems, hstart⟩ := h.seed
  exact ⟨⟨seed, he p seed hp, hitems, hstart⟩, fun action ha => (h.actions action ha).mono he,
    fun x hx => ⟨(h.gotos x hx).1, (h.gotos x hx).2.mono he⟩,
    fun i hi t ht => (h.next i hi t ht).imp fun _ => Leads.mono he⟩

/-- Putting actions and gotos in order keeps them. -/
theorem Fits.finish {g : Grammar} {seeds : Array Seed} {p : Nat} {st : State}
    (h : Fits g seeds p st) : Fits g seeds p (st.finish g) where
  seed := h.seed
  actions action ha := h.actions action (List.mem_mergeSort.mp ha)
  gotos x hx := h.gotos x (List.mem_mergeSort.mp hx)
  next := h.next

namespace Search

variable {g : Grammar} {table : FirstTable} {noSkip : Term}

theorem mem_dropGotos {r : Reading} {x : Goto} (h : x ∈ dropGotos table r) : x ∈ r.gotos := by
  unfold dropGotos at h
  split at h
  · exact List.mem_of_mem_filter h
  · exact h

/-- What reading on from a state consists of: reading symbols, then adding
reductions. -/
theorem readState_ok {seed : Seed} {s s' : Search} {st : State}
    (h : readState g table seed s = .ok (st, s')) :
    ∃ r s₁, (byNext seed.items).foldlM (readSymbol g table seed.items) (⟨#[], [], false⟩, s) =
        .ok (r, s₁) ∧
      s' = ((reductions g seed.items).foldl (addReduction g seed.items) (r, s₁)).2 ∧
      st.items = seed.items ∧ st.start = seed.start ∧
      st.actions = ((reductions g seed.items).foldl (addReduction g seed.items)
        (r, s₁)).1.causes.toList.map Cause.action ∧
      st.gotos = dropGotos table
        ((reductions g seed.items).foldl (addReduction g seed.items) (r, s₁)).1 := by
  unfold readState at h
  dsimp only at h
  obtain ⟨⟨r, s₁⟩, hread, h⟩ := exists_ok_of_bind h
  cases h
  exact ⟨r, s₁, hread, rfl, rfl, rfl, rfl, rfl⟩

/-- Reading on from a state gives it what its items call for. -/
theorem fits_readState (noSkip : Term) {p : Nat} {seed : Seed} {s s' : Search} {st : State}
    (hp : s.seeds[p]? = some seed) (h : readState g table seed s = .ok (st, s')) :
    Advances g table noSkip s s' ∧ Fits g s'.seeds p st := by
  obtain ⟨r, s₁, hread, hs', hitems, hstart, hactions, hgotos⟩ := readState_ok h
  have hempty : IsJust g s.seeds p seed.items ⟨#[], [], false⟩ :=
    ⟨fun c hc => (List.not_mem_nil hc).elim, fun x hx => (List.not_mem_nil hx).elim⟩
  obtain ⟨hadvance, hr, hnexts⟩ := isJust_readSymbols noSkip (fun _ he => he) hp hread hempty
  obtain ⟨hadd, hr'⟩ : Advances g table noSkip s₁ s' ∧ IsJust g s'.seeds p seed.items _ :=
    hs' ▸ isJust_addReductions table noSkip (fun _ hc => hc) hr
  have hall := hadvance.trans hadd
  refine ⟨hall, ⟨seed, hall.seeds p seed hp, hitems, hstart⟩, fun action ha => ?_,
    fun x hx => ?_, fun i hi t ht => ?_⟩
  · rw [hactions] at ha
    obtain ⟨c, hc, rfl⟩ := List.mem_map.mp ha
    rw [hitems]
    exact hr'.actions c hc
  · rw [hgotos] at hx
    exact hr'.gotos x (mem_dropGotos hx)
  · obtain ⟨q, hleads⟩ := hnexts _ (mem_byNext_of_next (hitems ▸ hi) ht)
    exact ⟨q, hleads.mono hadd.seeds⟩

end Search

end GrammarCompiler
