/-
GrammarCompiler.Proofs.Enumerating — how many kernels there can be.

In a grammar that refers to nothing but itself, items do so too (`Item.Within`):
symbols that are ahead are symbols of the grammar, and ambiguities are named in one of
its rules. A kernel has at most one item for each dotted rule, so that it is known by
what is ahead there (`Item.choice`), and there are only so many ways to choose that.
`kernelBits` is an upper bound on their number, in bits.

  §1 Grammars — what a grammar refers to.
  §2 Items    — closures, kernels and states stay within the grammar.
  §3 Kernels  — kernels with the same items are the same.
  §4 Numbers  — kernels, counted by what is ahead of their dotted rules.
-/
import GrammarCompiler.Proofs.Following
import GrammarCompiler.Proofs.Recognizing

namespace GrammarCompiler

/-! ## §1 Grammars -/

/-- A grammar that refers to nothing but itself: its rules tell themselves apart, and
all symbols in them are symbols of the grammar, as is the end of the input. -/
structure Grammar.IsSelfContained (g : Grammar) : Prop where
  ids : (g.rules.map Rule.id).Nodup
  parts : ∀ r ∈ g.rules, ∀ t ∈ r.parts, t ∈ g.terms.all
  skip : ∀ r ∈ g.rules, r.skip ∈ g.terms.all
  eof : .eof ∈ g.terms.all

theorem Grammar.IsSelfContained.isProper {g : Grammar} (hg : g.IsSelfContained) : g.IsProper :=
  ⟨hg.ids.of_map, hg.parts⟩

/-- The ambiguities that the rules of a grammar name. -/
def Grammar.ambiguities (g : Grammar) : List String :=
  g.rules.flatMap fun r => r.marks.flatMap Marks.ambiguities

/-- The dotted rules of a grammar. -/
def Grammar.dotted (g : Grammar) : List Dotted :=
  g.rules.flatMap fun r => (List.range (r.parts.length + 1)).map (Dotted.mk r)

theorem mem_ambiguities {g : Grammar} {r : Rule} (hr : r ∈ g.rules) {gap : Nat} {name : String}
    (h : name ∈ (r.marksAt gap).ambiguities) : name ∈ g.ambiguities := by
  unfold Phrase.marksAt at h
  cases hm : r.marks[gap]? with
  | none =>
    rw [hm] at h
    cases h
  | some m =>
    rw [hm] at h
    exact List.mem_flatMap.mpr ⟨r, hr, List.mem_flatMap.mpr ⟨m, List.mem_of_getElem? hm, h⟩⟩

theorem pairwise_insertName {name : String} {names : List String}
    (h : names.Pairwise (· < ·)) : (insertName name names).Pairwise (· < ·) := by
  induction names with
  | nil => exact List.pairwise_singleton _ _
  | cons other rest ih =>
    obtain ⟨hother, hrest⟩ := List.pairwise_cons.mp h
    unfold insertName
    split
    · exact h
    next hne =>
      split
      next hlt =>
        refine List.pairwise_cons.mpr ⟨fun later hlater => ?_, h⟩
        rcases List.mem_cons.mp hlater with rfl | hlater
        · exact hlt
        · exact hlt.trans (hother later hlater)
      next hnlt =>
        refine List.pairwise_cons.mpr ⟨fun later hlater => ?_, ih hrest⟩
        rcases mem_insertName.mp hlater with rfl | hlater
        · exact lt_of_le_of_ne (not_lt.mp hnlt) (Ne.symm hne)
        · exact hother later hlater

theorem pairwise_unionNames {as bs : List String} (h : as.Pairwise (· < ·)) :
    (unionNames as bs).Pairwise (· < ·) := by
  unfold unionNames
  induction bs generalizing as with
  | nil => exact h
  | cons b bs ih => exact ih (pairwise_insertName h)

/-! ## §2 Items -/

/-- An item that refers to nothing outside of a grammar. -/
structure Item.Within (g : Grammar) (i : Item) : Prop extends i.Of g where
  dot : i.dot ≤ i.rule.parts.length
  skip : i.skipAhead ∈ g.terms.all
  names : ∀ name ∈ i.ambigAhead, name ∈ g.ambiguities
  sorted : i.ambigAhead.Pairwise (· < ·)

section

variable {g : Grammar} {kernel items : List Item} {i : Item}

theorem Item.Within.marksAt (hi : i.Within g) {gap : Nat} {name : String}
    (h : name ∈ (i.marksAt gap).ambiguities) : name ∈ g.ambiguities := by
  unfold Item.marksAt at h
  dsimp only at h
  split at h
  · rcases mem_unionNames.mp h with h | h
    · exact mem_ambiguities hi.rule h
    · exact hi.names name h
  · exact mem_ambiguities hi.rule h

theorem Item.Within.advance (hi : i.Within g) {t : Term} (hnext : i.next? = some t) :
    i.advance.Within g where
  rule := hi.rule
  knows := hi.knows
  dot := (List.getElem?_eq_some_iff.mp hnext).1
  skip := hi.skip
  names := hi.names
  sorted := hi.sorted

/-- What is requested on behalf of an item of the grammar. -/
theorem Item.Within.skip_of_request (hg : g.IsSelfContained) (hi : i.Within g)
    {q : Closing.Request} (hq : Closing.Request.ofItem? g (.ofGrammar g) i = some q) :
    q.skip ∈ g.terms.all := by
  unfold Closing.Request.ofItem? at hq
  split at hq
  · cases hq
  · split at hq
    · cases hq
    · cases hq
      dsimp only
      split
      · exact hi.skip
      · exact hg.skip i.rule hi.rule

/-- Items of the grammar start items of the grammar. -/
theorem closure_within (hg : g.IsSelfContained) (h : closure g (.ofGrammar g) kernel = .ok items)
    (hk : ∀ k ∈ kernel, k.Within g) : ∀ i ∈ items, i.Within g := by
  obtain ⟨c, hc, rfl⟩ := Closing.closure_ok h
  intro i hi
  rcases Closing.mem_items.mp hi with ⟨hi, -⟩ | hi
  · exact hk i hi
  refine hc.entries_induction (P := Item.Within g) (fun j q hj hq r hr => ?_)
    (fun j q hj hq s hs => ?_) i hi
  · unfold Closing.newItem
    cases hf : kernel.find? fun i => i.dot == 0 && i.rule == r with
    | some k => exact hk k (List.mem_of_find?_eq_some hf)
    | none =>
      exact {
        rule := (Closing.mem_rulesFor.mp hr).1
        knows := g.knows_empty
        dot := Nat.zero_le _
        skip := (hj.elim (hk j) id).skip_of_request hg hq
        names := fun name hname => (List.not_mem_nil hname).elim
        sorted := .nil }
  · have hj : j.Within g := hj.elim (hk j) id
    obtain ⟨-, -, hahead, hambiguities⟩ := Closing.ofItem?_eq_some hq
    have hknows : g.Knows q.ahead := hahead ▸ Closing.knows_termsAhead hg.isProper hj.toOf
    refine ⟨⟨hs.rule, hs.knows.union hknows⟩, hs.dot, hs.skip, fun name hname => ?_,
      pairwise_unionNames hs.sorted⟩
    rcases mem_unionNames.mp hname with hname | hname
    · exact hs.names name hname
    · exact hj.marksAt (hambiguities ▸ hname)

namespace Grown

variable {noSkip : Term} {seed seed' : Seed}

theorem within_entryItems (hg : g.IsSelfContained) (noSkip : Term) {start : Term}
    (hrules : g.rulesFor start ≠ []) : ∀ k ∈ entryItems g noSkip start, k.Within g := by
  intro k hk
  obtain ⟨r, hr, rfl⟩ := List.mem_map.mp hk
  obtain ⟨first, rest, hfirst⟩ := List.exists_cons_of_ne_nil hrules
  have hmem : first ∈ g.rulesFor start := by
    rw [hfirst]
    exact .head _
  refine ⟨⟨(Closing.mem_rulesFor.mp hr).1, fun t ht => ?_⟩, Nat.zero_le _, ?_,
    fun name hname => (List.not_mem_nil hname).elim, .nil⟩
  · have heof : t = .eof := by
      simpa [TermSet.contains_insert, TermSet.contains_empty, eq_comm] using ht
    exact heof ▸ hg.eof
  · simpa [hfirst] using hg.skip first (Closing.mem_rulesFor.mp hmem).1

theorem within_kernelFor (h : ∀ i ∈ items, i.Within g) (symbol : Term) :
    ∀ k ∈ kernelFor g items symbol, k.Within g := by
  intro k hk
  obtain ⟨i, hi, hnext, rfl⟩ := mem_kernelFor hk
  exact (h i hi).advance hnext

/-- States stay within the grammar. -/
theorem within (hg : g.IsSelfContained) (h : Grown g (.ofGrammar g) noSkip seed) :
    (∀ k ∈ seed.kernel, k.Within g) ∧ ∀ i ∈ seed.items, i.Within g := by
  induction h with
  | entry hrules hclosed =>
    have hk := fun k hk => within_entryItems hg noSkip hrules k (Item.mem_sort.mp hk)
    exact ⟨hk, closure_within hg hclosed hk⟩
  | @read source symbol _ _ _ _ hclosed ih =>
    have hk := fun k hk => within_kernelFor ih.2 symbol k (Item.mem_sort.mp hk)
    exact ⟨hk, closure_within hg hclosed hk⟩

/-! ## §3 Kernels -/

/-- A kernel has one item at each position. -/
theorem nodup_position (hg : g.IsSelfContained) (h : Grown g (.ofGrammar g) noSkip seed) :
    (seed.kernel.map Item.position).Nodup := by
  refine List.pairwise_map.mpr ((List.pairwise_map.mp (h.nodup hg.isProper.nodup).1).imp_of_mem ?_)
  intro i j hi hj hne hposition
  obtain ⟨hid, hdot⟩ := Prod.mk.inj hposition
  have hrule : i.rule = j.rule :=
    List.inj_on_of_nodup_map hg.ids (h.kernel_rule_mem i hi) (h.kernel_rule_mem j hj) hid
  exact hne (congrArg₂ Dotted.mk hrule hdot)

/-- A kernel is sorted. -/
theorem sort_kernel (hg : g.IsSelfContained) (h : Grown g (.ofGrammar g) noSkip seed) :
    Item.sort seed.kernel = seed.kernel := by
  have hpositions := h.nodup_position hg
  cases h with
  | entry => exact Item.sort_eq_of_perm (List.mergeSort_perm _ _) hpositions
  | read => exact Item.sort_eq_of_perm (List.mergeSort_perm _ _) hpositions

/-- Kernels with the same items are the same. -/
theorem sameAll_kernel (hg : g.IsSelfContained) (h : Grown g (.ofGrammar g) noSkip seed)
    (h' : Grown g (.ofGrammar g) noSkip seed')
    (hsame : ∀ i, i ∈ seed.kernel.map Item.bare ↔ i ∈ seed'.kernel.map Item.bare) :
    Item.sameAll seed.kernel seed'.kernel = true := by
  have hpositions (s : Seed) : (s.kernel.map Item.bare).map Item.position =
      s.kernel.map Item.position := by
    rw [List.map_map]
    rfl
  have hnodup := hpositions seed ▸ h.nodup_position hg
  have hnodup' := hpositions seed' ▸ h'.nodup_position hg
  have hperm : (seed.kernel.map Item.bare).Perm (seed'.kernel.map Item.bare) :=
    (List.perm_ext_iff_of_nodup hnodup.of_map hnodup'.of_map).mpr hsame
  rw [Item.sameAll_iff_bare]
  calc seed.kernel.map Item.bare
      = Item.sort (seed.kernel.map Item.bare) := by
        rw [← Item.sort_map_bare, h.sort_kernel hg]
    _ = Item.sort (seed'.kernel.map Item.bare) := Item.sort_eq_of_perm hperm hnodup
    _ = seed'.kernel.map Item.bare := by rw [← Item.sort_map_bare, h'.sort_kernel hg]

/-- States with the same items that are no entries have the same kernel. -/
theorem sameAll_of_items (hg : g.IsSelfContained) (h : Grown g (.ofGrammar g) noSkip seed)
    (h' : Grown g (.ofGrammar g) noSkip seed') (hs : seed.start = none) (hs' : seed'.start = none)
    (hto : ∀ i ∈ seed.items, ∃ j ∈ seed'.items, i.same j = true)
    (hback : ∀ j ∈ seed'.items, ∃ i ∈ seed.items, j.same i = true) :
    Item.sameAll seed.kernel seed'.kernel = true := by
  have hmem {s s' : Seed} (hgrown : Grown g (.ofGrammar g) noSkip s)
      (hgrown' : Grown g (.ofGrammar g) noSkip s') (hstart : s.start = none)
      (hitems : ∀ i ∈ s.items, ∃ j ∈ s'.items, i.same j = true) :
      ∀ i ∈ s.kernel.map Item.bare, i ∈ s'.kernel.map Item.bare := by
    intro _ hi
    obtain ⟨k, hk, rfl⟩ := List.mem_map.mp hi
    have hdot := hgrown.kernel_dot_ne_zero hstart k hk
    obtain ⟨j, hj, hsame⟩ :=
      hitems k ((mem_closure_of_dot_ne_zero hgrown.closed hdot).mpr hk)
    have hdot' : j.dot ≠ 0 := congrArg Dotted.dot (Item.same_iff.mp hsame).1 ▸ hdot
    exact List.mem_map.mpr ⟨j, (mem_closure_of_dot_ne_zero hgrown'.closed hdot').mp hj,
      (Item.same_iff_bare.mp hsame).symm⟩
  exact h.sameAll_kernel hg h' fun i => ⟨hmem h h' hs hto i, hmem h' h hs' hback i⟩

end Grown

end

/-! ## §4 Numbers -/

namespace Item

/-- What there is to tell items for one dotted rule apart: the terminals ahead, what is
skipped, and the ambiguities ahead. -/
def choice (i : Item) : Nat × Nat × Finset String :=
  (i.ahead.bits, i.skipAhead.index, i.ambigAhead.toFinset)

variable {g : Grammar} {i j : Item}

theorem Within.bare_eq (hi : i.Within g) (hj : j.Within g) (hdotted : i.toDotted = j.toDotted)
    (hchoice : i.choice = j.choice) : i.bare = j.bare := by
  obtain ⟨hbits, hrest⟩ := Prod.mk.inj hchoice
  obtain ⟨hindex, hnames⟩ := Prod.mk.inj hrest
  have hambig : i.ambigAhead = j.ambigAhead :=
    hi.sorted.eq_of_mem_iff hj.sorted fun name => by
      rw [← List.mem_toFinset, hnames, List.mem_toFinset]
  rw [← same_iff_bare, same_iff]
  exact ⟨hdotted, congrArg TermSet.mk hbits, Term.eq_of_index_eq hindex, hambig⟩

end Item

section

variable {g : Grammar} {t : Term}

theorem mem_all_iff : t ∈ g.terms.all ↔ t.index < g.terms.size := by
  simp only [TermTable.all, List.mem_map, List.mem_range]
  constructor
  · rintro ⟨index, hlt, rfl⟩
    exact hlt
  · intro hlt
    exact ⟨t.index, hlt, rfl⟩

/-- All ways to choose what is ahead. -/
def Grammar.choices (g : Grammar) : Finset (Nat × Nat × Finset String) :=
  Finset.range (2 ^ g.terms.size) ×ˢ Finset.range g.terms.size ×ˢ g.ambiguities.toFinset.powerset

theorem Item.Within.choice_mem {i : Item} (hi : i.Within g) : i.choice ∈ g.choices := by
  simp only [choice, Grammar.choices, Finset.mem_product, Finset.mem_range, Finset.mem_powerset]
  refine ⟨Nat.lt_pow_two_of_testBit _ fun n hn => ?_, mem_all_iff.mp hi.skip, fun name hname => ?_⟩
  · by_contra hbit
    have hmem := mem_all_iff.mp (hi.knows ⟨n⟩ (by simpa [TermSet.contains] using hbit))
    exact Nat.not_lt.mpr hn hmem
  · exact List.mem_toFinset.mpr (hi.names name (List.mem_toFinset.mp hname))

theorem card_choices (g : Grammar) :
    g.choices.card + 1 ≤ 2 ^ (2 * g.terms.size + g.ambiguities.length + 1) := by
  have hnames : g.ambiguities.toFinset.card ≤ g.ambiguities.length := List.toFinset_card_le _
  have hsize : g.terms.size ≤ 2 ^ g.terms.size := Nat.le_of_lt Nat.lt_two_pow_self
  have hcard : g.choices.card ≤ 2 ^ (2 * g.terms.size + g.ambiguities.length) :=
    calc g.choices.card
        = 2 ^ g.terms.size * (g.terms.size * 2 ^ g.ambiguities.toFinset.card) := by
          simp [Grammar.choices, Finset.card_product, Finset.card_powerset]
      _ ≤ 2 ^ g.terms.size * (2 ^ g.terms.size * 2 ^ g.ambiguities.length) := by gcongr; omega
      _ = 2 ^ (2 * g.terms.size + g.ambiguities.length) := by ring
  have hone := Nat.one_le_two_pow (n := 2 * g.terms.size + g.ambiguities.length)
  rw [Nat.pow_succ]
  omega

theorem length_dotted (g : Grammar) :
    g.dotted.length = g.rules.foldl (fun n r => n + (r.parts.length + 1)) 0 := by
  rw [Grammar.dotted, List.length_flatMap, List.sum_eq_foldl, List.foldl_map]
  simp

end

/-- What is ahead at a dotted rule, if a kernel has an item for it. -/
def choiceAt (kernel : List Item) (d : Dotted) : Option (Nat × Nat × Finset String) :=
  (kernel.find? fun k => k.toDotted == d).map Item.choice

theorem choiceAt_of_mem {kernel : List Item} (h : (kernel.map Item.toDotted).Nodup) {k : Item}
    (hk : k ∈ kernel) : choiceAt kernel k.toDotted = some k.choice := by
  unfold choiceAt
  cases hf : kernel.find? fun i => i.toDotted == k.toDotted with
  | none => simpa using List.find?_eq_none.mp hf k hk
  | some i =>
    have hdotted : i.toDotted = k.toDotted := by simpa using List.find?_some hf
    rw [List.inj_on_of_nodup_map h (List.mem_of_find?_eq_some hf) hk hdotted]
    rfl

/-- What is ahead at each dotted rule of the grammar in the kernel of a state. -/
def Seed.choices (g : Grammar) (seed : Seed) (d : Dotted) (_ : d ∈ g.dotted.toFinset) :
    Option (Nat × Nat × Finset String) :=
  choiceAt seed.kernel d

/-- All that can be ahead at the dotted rules of a grammar. -/
def Grammar.kernels (g : Grammar) :
    Finset ((d : Dotted) → d ∈ g.dotted.toFinset → Option (Nat × Nat × Finset String)) :=
  g.dotted.toFinset.pi fun _ => g.choices.insertNone

/-- There are only so many kernels. -/
theorem card_kernels (g : Grammar) : g.kernels.card ≤ 2 ^ Search.kernelBits g := by
  have hdots : g.dotted.toFinset.card ≤ g.dotted.length := List.toFinset_card_le _
  calc g.kernels.card
      = (g.choices.card + 1) ^ g.dotted.toFinset.card := by
        rw [Grammar.kernels, Finset.card_pi, Finset.prod_const, Finset.card_insertNone]
    _ ≤ (g.choices.card + 1) ^ g.dotted.length := Nat.pow_le_pow_right (Nat.succ_pos _) hdots
    _ ≤ (2 ^ (2 * g.terms.size + g.ambiguities.length + 1)) ^ g.dotted.length :=
      Nat.pow_le_pow_left (card_choices g) _
    _ = 2 ^ Search.kernelBits g := by
      rw [← Nat.pow_mul, length_dotted, Nat.mul_comm]
      rfl

namespace Grown

variable {g : Grammar} {noSkip : Term} {seed seed' : Seed}

theorem choices_mem (hg : g.IsSelfContained) (h : Grown g (.ofGrammar g) noSkip seed) :
    seed.choices g ∈ g.kernels := by
  refine Finset.mem_pi.mpr fun d _ => Finset.mem_insertNone.mpr fun choice hchoice => ?_
  obtain ⟨k, hk, rfl⟩ := Option.map_eq_some_iff.mp hchoice
  exact ((h.within hg).1 k (List.mem_of_find?_eq_some hk)).choice_mem

/-- Kernels with the same ahead of all dotted rules are the same. -/
theorem sameAll_of_choices (hg : g.IsSelfContained) (h : Grown g (.ofGrammar g) noSkip seed)
    (h' : Grown g (.ofGrammar g) noSkip seed') (heq : seed.choices g = seed'.choices g) :
    Item.sameAll seed.kernel seed'.kernel = true := by
  have hmem {s s' : Seed} (hgrown : Grown g (.ofGrammar g) noSkip s)
      (hgrown' : Grown g (.ofGrammar g) noSkip s') (heq : s.choices g = s'.choices g) :
      ∀ i ∈ s.kernel.map Item.bare, i ∈ s'.kernel.map Item.bare := by
    intro _ hi
    obtain ⟨k, hk, rfl⟩ := List.mem_map.mp hi
    have hwithin := (hgrown.within hg).1 k hk
    have hdotted : k.toDotted ∈ g.dotted := List.mem_flatMap.mpr ⟨k.rule, hwithin.rule,
      List.mem_map.mpr ⟨k.dot, List.mem_range.mpr (Nat.lt_succ_of_le hwithin.dot), rfl⟩⟩
    have hat : choiceAt s.kernel k.toDotted = choiceAt s'.kernel k.toDotted :=
      congrFun (congrFun heq k.toDotted) (List.mem_toFinset.mpr hdotted)
    rw [choiceAt_of_mem (hgrown.nodup hg.isProper.nodup).1 hk] at hat
    obtain ⟨k', hf, hsame⟩ := Option.map_eq_some_iff.mp hat.symm
    have hk' := List.mem_of_find?_eq_some hf
    refine List.mem_map.mpr ⟨k', hk', ?_⟩
    exact ((hgrown'.within hg).1 k' hk').bare_eq hwithin (by simpa using List.find?_some hf) hsame
  exact h.sameAll_kernel hg h' fun i => ⟨hmem h h' heq i, hmem h' h heq.symm i⟩

end Grown

end GrammarCompiler
