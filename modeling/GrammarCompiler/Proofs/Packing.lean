/-
GrammarCompiler.Proofs.Packing — what the word of a reduction tells.

A word holds the number of a symbol, three flags and a count of parts, each in bits of
its own. Numbers of symbols fit their 16 bits. The count has the 13 bits from 19 on, so
of a rule with 2 ^ 13 parts or more the word for reducing all of them tells a smaller
count: the same as some shorter prefix of the rule.

  §1 Fields   — the bits of a word.
  §2 Grammars — words for the rules of a grammar.
  §3 Builds   — the grammar that a build encodes.
-/
import GrammarCompiler.Proofs.Banding
import GrammarCompiler.Proofs.Containing
import GrammarCompiler.Proofs.Decoding

namespace GrammarCompiler

/-! ## §1 Fields -/

namespace Code

variable {g : Grammar} {skips : Skipping} {r : Rule} {depth : Nat}

/-- Whether a reduction makes one repeat out of two. -/
def joinsRepeats (g : Grammar) (r : Rule) (depth : Nat) : Bool :=
  r.isRepeatWrap g.terms && depth == r.parts.length

theorem word_shiftLeft (depth : Nat) : word (depth <<< 19) = (depth % 2 ^ 13) <<< 19 := by
  rw [word, Nat.one_shiftLeft, Nat.shiftLeft_eq, Nat.shiftLeft_eq,
    show 2 ^ 32 = 2 ^ 13 * 2 ^ 19 from rfl, Nat.mul_mod_mul_right]

/-- A word is made of its fields. -/
theorem reduction_eq : reduction g skips r depth =
    g.id r.name ||| reduceFlag ||| (depth % 2 ^ 13) <<< 19 |||
      (if joinsRepeats g r depth then repeatFlag else 0) |||
      (if skips.withStates.contains r.name then stayFlag else 0) := by
  rw [← word_shiftLeft]
  rfl

/-- Each bit of a word belongs to one field. -/
theorem testBit_reduction (i : Nat) :
    (reduction g skips r depth).testBit i =
      ((g.id r.name).testBit i || decide (i = 16) ||
        (decide (19 ≤ i) && (depth % 2 ^ 13).testBit (i - 19)) ||
        (decide (i = 17) && joinsRepeats g r depth) ||
        (decide (i = 18) && skips.withStates.contains r.name)) := by
  have hflag (n : Nat) (b : Bool) :
      (if b = true then 1 <<< n else 0).testBit i = (decide (i = n) && b) := by
    cases b <;> simp [Nat.one_shiftLeft, Nat.testBit_two_pow, eq_comm]
  have hreduce : (1 <<< 16 : Nat).testBit i = decide (i = 16) := by
    simpa using hflag 16 true
  simp only [reduction_eq, Nat.testBit_or, reduceFlag, repeatFlag, stayFlag, hflag, hreduce,
    Nat.testBit_shiftLeft]

variable (hid : g.id r.name < 2 ^ 16)
include hid

theorem testBit_id {i : Nat} (hi : 16 ≤ i) : (g.id r.name).testBit i = false :=
  Nat.testBit_lt_two_pow (Nat.lt_of_lt_of_le hid (Nat.pow_le_pow_right (by decide) hi))

/-- The lower half is the number of the symbol. -/
theorem reduction_and_ffff : reduction g skips r depth &&& 0xffff = g.id r.name := by
  refine Nat.eq_of_testBit_eq fun i => ?_
  have hmask : (0xffff : Nat).testBit i = decide (i < 16) := Nat.testBit_two_pow_sub_one 16 i
  rw [Nat.testBit_and, hmask, testBit_reduction]
  by_cases hi : i < 16
  · have h16 : i ≠ 16 := by omega
    have h17 : i ≠ 17 := by omega
    have h18 : i ≠ 18 := by omega
    have h19 : ¬ 19 ≤ i := by omega
    simp [hi, h16, h17, h18, h19]
  · rw [testBit_id hid (by omega), decide_eq_false hi, Bool.and_false]

omit hid in
theorem testBit_reduction_reduce : (reduction g skips r depth).testBit 16 = true := by
  simp [testBit_reduction]

theorem testBit_reduction_repeat :
    (reduction g skips r depth).testBit 17 = joinsRepeats g r depth := by
  simp [testBit_reduction, testBit_id hid]

theorem testBit_reduction_stay : (reduction g skips r depth).testBit 18 =
    skips.withStates.contains r.name := by
  simp [testBit_reduction, testBit_id hid]

/-- What stands above the flags is the count, as far as it fits 13 bits. -/
theorem reduction_shiftRight : reduction g skips r depth >>> 19 = depth % 2 ^ 13 := by
  refine Nat.eq_of_testBit_eq fun i => ?_
  have h16 : 19 + i ≠ 16 := by omega
  have h17 : 19 + i ≠ 17 := by omega
  have h18 : 19 + i ≠ 18 := by omega
  rw [Nat.testBit_shiftRight, testBit_reduction, testBit_id hid (by omega)]
  simp [h16, h17, h18]

theorem reduction_lt : reduction g skips r depth < 2 ^ 32 := by
  refine Nat.lt_pow_two_of_testBit _ fun i hi => ?_
  have h16 : i ≠ 16 := by omega
  have h17 : i ≠ 17 := by omega
  have h18 : i ≠ 18 := by omega
  have hcount : (depth % 2 ^ 13).testBit (i - 19) = false :=
    Nat.testBit_lt_two_pow ((Nat.mod_lt _ (by decide)).trans_le
      (Nat.pow_le_pow_right (by decide) (by omega)))
  rw [testBit_reduction, testBit_id hid (by omega), hcount]
  simp [h16, h17, h18]

end Code

/-! ## §2 Grammars -/

/-- The symbols of a grammar are numbered for its rules, and maybe for rules that were dropped
since. Rules are for nonterminals. -/
structure Grammar.IsNumbered (g : Grammar) : Prop where
  numbered : ∃ rules, g.rules ⊆ rules ∧ Numbering.ofRules g.terms rules = .ok g.numbering
  nonterminal : ∀ r ∈ g.rules, g.isTerminal r.name = false

namespace Grammar.IsNumbered

variable {g : Grammar} (hg : g.IsNumbered)
include hg

theorem id_lt (t : Term) : g.id t < 2 ^ 16 := by
  obtain ⟨rules, -, hnumbered⟩ := hg.numbered
  exact (Numbering.id_lt hnumbered t).trans (by decide)

/-- Rules for different symbols have different numbers in their words. -/
theorem name_eq_of_id {r r' : Rule} (hr : r ∈ g.rules) (hr' : r' ∈ g.rules)
    (heq : g.id r.name = g.id r'.name) : r.name = r'.name := by
  obtain ⟨rules, hrules, hnumbered⟩ := hg.numbered
  have hused {s : Rule} (hs : s ∈ g.rules) : s.name ∈ Numbering.usedIn rules :=
    List.mem_flatMap.mpr ⟨s, hrules hs, List.mem_cons_self⟩
  have hsize {s : Rule} (hs : s ∈ g.rules) : s.name.index < g.terms.size :=
    TermTable.lt_size_of_isTerminal (hg.nonterminal s hs)
  exact Numbering.id_inj hnumbered (hused hr) (hused hr') (hsize hr) (hsize hr') heq

end Grammar.IsNumbered

namespace Code

/-- The word for reducing by a rule when some of its parts have been read tells the number of the
symbol, that it is a reduction, whether it makes one repeat out of two, whether it ends something
skipped, and the count of parts, exactly if that is below 2 ^ 13: otherwise the count starts over.
Two words are the same exactly if the symbols and the flags are, and the counts up to a multiple of
2 ^ 13. -/
theorem reduction_isDecodable {g : Grammar} (hg : g.IsNumbered) (skips : Skipping) :
    (∀ r ∈ g.rules, ∀ depth ≤ r.parts.length,
      let word := reduction g skips r depth
      word < 2 ^ 32 ∧ word &&& 0xffff = g.id r.name ∧ word.testBit 16 = true ∧
        (word.testBit 17 = true ↔ r.isRepeatWrap g.terms = true ∧ depth = r.parts.length) ∧
        (word.testBit 18 = true ↔ r.name ∈ skips.withStates) ∧
        word >>> 19 = depth % 2 ^ 13 ∧ (word >>> 19 = depth ↔ depth < 2 ^ 13)) ∧
    ∀ r ∈ g.rules, ∀ r' ∈ g.rules, ∀ depth depth',
      reduction g skips r depth = reduction g skips r' depth' ↔
        r.name = r'.name ∧ joinsRepeats g r depth = joinsRepeats g r' depth' ∧
          depth % 2 ^ 13 = depth' % 2 ^ 13 := by
  have hid (t : Term) := hg.id_lt t
  refine ⟨fun r _ depth _ => ?_, fun r hr r' hr' depth depth' => ⟨fun heq => ?_, ?_⟩⟩
  · have hcount : reduction g skips r depth >>> 19 = depth % 2 ^ 13 :=
      reduction_shiftRight (hid r.name)
    refine ⟨reduction_lt (hid r.name), reduction_and_ffff (hid r.name), testBit_reduction_reduce,
      ?_, ?_, hcount, ?_⟩
    · rw [testBit_reduction_repeat (hid r.name), joinsRepeats, Bool.and_eq_true, beq_iff_eq]
    · rw [testBit_reduction_stay (hid r.name), List.contains_iff_mem]
    · rw [hcount, Nat.mod_eq_iff_lt (by decide)]
  · refine ⟨hg.name_eq_of_id hr hr' ?_, ?_, ?_⟩
    · rw [← reduction_and_ffff (hid r.name), heq, reduction_and_ffff (hid r'.name)]
    · rw [← testBit_reduction_repeat (hid r.name), heq, testBit_reduction_repeat (hid r'.name)]
    · rw [← reduction_shiftRight (hid r.name), heq, reduction_shiftRight (hid r'.name)]
  · rintro ⟨hname, hjoins, hcount⟩
    rw [reduction_eq, reduction_eq, hname, hjoins, hcount]

end Code

/-- A table of symbols that is small enough can be numbered, whatever the rules. -/
theorem Numbering.exists_ofRules {terms : TermTable} (rules : List Rule)
    (hsize : terms.size + 2 < 0xfffe) : ∃ n, ofRules terms rules = .ok n := by
  have hsplit {l : List Term} (p : Term → Bool) :
      (l.filter p).length + (l.filter fun t => !p t).length = l.length :=
    (List.length_eq_length_filter_add p).symm
  have hlive :
      ((live terms rules).filter fun t => t != .error && t != .eof).length ≤ terms.size := by
    refine (List.length_filter_le _ _).trans ((List.length_filter_le _ _).trans ?_)
    rw [TermTable.all, List.length_map, List.length_range]
  rw [ofRules, if_neg]
  · exact ⟨_, rfl⟩
  · have hrepeats := @hsplit ((live terms rules).filter fun t => t != .error && t != .eof)
      terms.isRepeat
    have hnodes := @hsplit (((live terms rules).filter fun t => t != .error && t != .eof).filter
      fun t => !terms.isRepeat t) fun t => (terms.info t).isNode
    simp only [List.length_append, List.length_cons]
    omega

namespace Code

/-- In the grammar of rows, one row is made out of two: the word for this is a reduction to the
symbol 3 that joins repeats and takes 2 parts. -/
theorem reduction_isDecodable_rows : ∃ n, Numbering.ofRules Numbering.itemTerms
    Numbering.itemRules = .ok n ∧
      let g : Grammar := ⟨Numbering.itemTerms, n, Numbering.itemRules⟩
      g.IsNumbered ∧ ∃ r ∈ g.rules, r.parts = [⟨3⟩, ⟨3⟩] ∧
        let word := reduction g ⟨[]⟩ r 2
        word = 3 + 2 ^ 16 + 2 ^ 17 + 2 * 2 ^ 19 ∧ word &&& 0xffff = 3 ∧
          word.testBit 17 = true ∧ word >>> 19 = 2 := by
  have hcheck : (Numbering.ofRules Numbering.itemTerms Numbering.itemRules).toOption.any
      (fun n => decide (reduction ⟨Numbering.itemTerms, n, Numbering.itemRules⟩ ⟨[]⟩
        Numbering.itemRules[2] 2 = 3 + 2 ^ 16 + 2 ^ 17 + 2 * 2 ^ 19 ∧ n.id ⟨3⟩ = 3)) = true := by
    decide
  obtain ⟨n, hn, hcheck⟩ := exists_ok_of_any hcheck
  obtain ⟨hword, hthree⟩ := of_decide_eq_true hcheck
  have hg : Grammar.IsNumbered ⟨Numbering.itemTerms, n, Numbering.itemRules⟩ :=
    ⟨⟨_, List.Subset.refl _, hn⟩, by
      have hnames : ∀ r ∈ Numbering.itemRules,
          Numbering.itemTerms.isTerminal r.name = false := by decide
      exact hnames⟩
  obtain ⟨_, hid, _, hrepeat, _, _, hcount⟩ :=
    (reduction_isDecodable hg ⟨[]⟩).1 Numbering.itemRules[2] (by simp) 2 (by decide)
  exact ⟨n, hn, hg, _, by simp, by decide, hword, hid.trans hthree, hrepeat.mpr ⟨rfl, rfl⟩,
    hcount.mpr (by decide)⟩

/-- A symbol at the top, another one, and a terminal. -/
def rowTerms : TermTable :=
  [{ name := "@top", kind := .top, nodeName := some "T" },
    { name := "A", kind := .nonterminal, nodeName := some "A" },
    { name := "x", kind := .terminal }].foldl (fun terms info => (terms.add info).2)
      TermTable.initial

/-- A row of 2 ^ 13 terminals. -/
def longRow : Rule :=
  { parts := List.replicate (2 ^ 13) ⟨4⟩, marks := [], id := 1, name := ⟨3⟩, skip := .eof }

/-- The top symbol is a row. -/
def rowRules : List Rule :=
  [{ parts := [⟨3⟩], marks := [], id := 0, name := ⟨2⟩, skip := .eof }, longRow]

/-- The word for reducing a whole row tells that there are no parts, like the word for reducing
the row before any part has been read. -/
theorem reduction_losesCount : ∃ n, Numbering.ofRules rowTerms rowRules = .ok n ∧
    let g : Grammar := ⟨rowTerms, n, rowRules⟩
    g.IsNumbered ∧ longRow ∈ g.rules ∧ longRow.parts.length = 2 ^ 13 ∧
      reduction g ⟨[]⟩ longRow (2 ^ 13) >>> 19 = 0 ∧
      reduction g ⟨[]⟩ longRow (2 ^ 13) = reduction g ⟨[]⟩ longRow 0 := by
  obtain ⟨n, hn⟩ : ∃ n, Numbering.ofRules rowTerms rowRules = .ok n :=
    Numbering.exists_ofRules rowRules (by decide)
  have hg : Grammar.IsNumbered ⟨rowTerms, n, rowRules⟩ :=
    ⟨⟨_, List.Subset.refl _, hn⟩,
      List.forall_mem_cons.mpr ⟨rfl, List.forall_mem_singleton.mpr rfl⟩⟩
  have hlength : longRow.parts.length = 2 ^ 13 := List.length_replicate
  have hnot : longRow.isRepeatWrap rowTerms = false := rfl
  refine ⟨n, hn, hg, by simp [rowRules], hlength, ?_, ?_⟩
  · exact (reduction_shiftRight (hg.id_lt _)).trans (Nat.mod_self _)
  · rw [reduction_eq, reduction_eq, Nat.mod_self, Nat.zero_mod]
    simp [joinsRepeats, hnot]

end Code

/-! ## §3 Builds -/

/-- The grammar of a build is numbered. -/
theorem Compile.isNumbered_of_assembly {source : Text.Source} {b : Blueprint}
    {journal j j' : Journal} {a : Assembly} (hsource : Blueprint.ofSource source = (.ok b, journal))
    (h : assembly b j = .ok a j') : a.grammar.IsNumbered := by
  obtain ⟨_, rules, numbering, skips, _, _, hrules, hnumbering, hgrammar, _⟩ :=
    exists_stages_of_assembly h
  rw [hgrammar]
  refine ⟨⟨rules, List.filter_subset_self _, hnumbering⟩, fun r hr => ?_⟩
  have hr := (List.mem_filter.mp hr).1
  obtain rfl := simplify_eq hrules
  obtain ⟨s, hs, _, hname, _⟩ := Merging.mem_applyAll hr
  have hnames := (Inlining.runs_ofRules b.draft.terms (b.draft.skipTerms ++ b.draft.terms.tops)
    b.draft.rules.length b.draft.rules).preserves
      (Q := fun rules => ∀ r ∈ rules, b.draft.terms.isTerminal r.name = false)
      (fun chosen count _ hnames => Replacements.isTerminal_applyAll hnames chosen count)
      (Blueprint.sound_of_ofSource hsource).isTerminal_name
  exact (congrArg _ hname).trans (hnames s hs)

end GrammarCompiler
