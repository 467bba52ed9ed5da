/-
GrammarCompiler.Proofs.Decoding — the tables of a parser read back as its
automaton.

  §1 Records  — every state has a record with the address of its actions.
  §2 Tables   — what the tables are made from.
  §3 Symbols  — the symbols of gotos have different numbers.
  §4 Decoding — actions and gotos of every state.
-/
import GrammarCompiler.Proofs.Determinacy
import GrammarCompiler.Proofs.Numbering
import GrammarCompiler.Proofs.Storing

namespace GrammarCompiler

/-! ## §1 Records -/

/-- The word of the last reduction of a state at the end of the input. -/
def State.endReduction? (g : Grammar) (skips : Skipping) (s : State) : Option Nat :=
  (s.actions.filterMap fun a =>
    match a with
    | .reduce term rule => if term = .eof then some (Code.fullReduction g skips rule) else none
    | .shift _ _ => none).getLast?

namespace Records

variable {x : Setup}

theorem fallback_eq (x : Setup) (s : State) :
    fallback x s = s.endReduction? x.grammar x.skips := by
  rw [fallback, State.endReduction?]
  induction s.actions using List.reverseRecOn with
  | nil => rfl
  | append_singleton actions action ih =>
    rw [List.foldl_append, List.foldl_cons, List.foldl_nil, List.filterMap_append]
    cases action with
    | shift term target => simpa using ih
    | reduce term rule =>
      by_cases heof : term = .eof
      · simp [heof]
      · simpa [heof] using ih

/-- What a state does for all terminals that it does not list: if it is about
skipping, it reduces as at the end of the input. -/
def otherwise? (x : Setup) (s : State) (i : Nat) : Option Nat :=
  if s.defaultReduce.isNone && !(x.fromTop[i]?.getD false) then
    s.endReduction? x.grammar x.skips
  else none

/-- The actions that a state lists. -/
def listed (s : State) : List Action :=
  if s.defaultReduce.isSome then [] else s.actions

/-- The actions of a state stand at the address in its record. -/
theorem holds_record (x : Setup) (words : Words) (s : State) (i : Nat) :
    (record x words s i).2.Holds (Code.actions x.grammar x.skips (otherwise? x s i) (listed s))
        (record x words s i).1.actions ∧
      words.data <+: (record x words s i).2.data := by
  have h := Words.holds_store (words.store
    (Code.actions x.grammar x.skips (otherwise? x s i) (listed s))).eta.symm
  simp only [otherwise?, listed, ← fallback_eq] at h ⊢
  exact h

/-- Every state has a record, and its actions stand at the address there. -/
theorem recordsFrom_spec (x : Setup) (words : Words) (i : Nat) (l : List State) :
    (recordsFrom x words i l).1.length = l.length ∧
      words.data <+: (recordsFrom x words i l).2.data ∧
      ∀ (k : Nat) s, l[k]? = some s → ∃ r, (recordsFrom x words i l).1[k]? = some r ∧
        (recordsFrom x words i l).2.Holds
          (Code.actions x.grammar x.skips (otherwise? x s (i + k)) (listed s)) r.actions := by
  induction l generalizing words i with
  | nil => exact ⟨rfl, List.prefix_refl _, by simp⟩
  | cons s l ih =>
    have hcons : recordsFrom x words i (s :: l) =
        ((record x words s i).1 :: (recordsFrom x (record x words s i).2 (i + 1) l).1,
          (recordsFrom x (record x words s i).2 (i + 1) l).2) := rfl
    obtain ⟨hheld, hle⟩ := holds_record x words s i
    obtain ⟨hlength, hlater, hall⟩ := ih (record x words s i).2 (i + 1)
    rw [hcons]
    refine ⟨congrArg Nat.succ hlength, hle.trans hlater, fun k s' hs' => ?_⟩
    cases k with
    | zero =>
      obtain rfl := Option.some.inj hs'
      exact ⟨_, rfl, hheld.mono hlater⟩
    | succ k =>
      obtain ⟨r, hr, hheld⟩ := hall k s' hs'
      exact ⟨r, hr, by rwa [Nat.add_right_comm, Nat.add_assoc] at hheld⟩

theorem prefix_storeAll (words : Words) (lists : List (List Nat)) :
    words.data <+: (storeAll words lists).2.data := by
  induction lists generalizing words with
  | nil => exact List.prefix_refl _
  | cons values lists ih =>
    exact (Words.holds_store (words.store values).eta.symm).2.trans (ih _)

end Records

/-! ## §2 Tables -/

namespace Assembly

/-- Tables hold the records of all states, what is stored for them, and the
table of gotos. -/
theorem exists_setup_of_tables {a : Assembly} {t : ParserTables} (h : a.tables = .ok t) :
    ∃ skipAddresses forced words,
      let x := a.setup skipAddresses forced
      t.states = (Records.recordsFrom x words 0 a.automaton.toList).1 ∧
      (Records.recordsFrom x words 0 a.automaton.toList).2.data <+: t.stateData ∧
      (∀ value ∈ t.stateData, value ≤ 0xffff) ∧ gotoTable a.grammar a.automaton = .ok t.goto := by
  obtain ⟨forced, _, h⟩ := exists_ok_of_bind h
  obtain ⟨nodeProps, _, h⟩ := exists_ok_of_bind h
  obtain ⟨goto, hgoto, h⟩ := exists_ok_of_bind h
  obtain ⟨stateData, hfinish, h⟩ := exists_ok_of_bind h
  cases h
  obtain ⟨rfl, hsmall⟩ := Words.finish_eq hfinish
  refine ⟨_, forced, _, rfl, ?_, hsmall, hgoto⟩
  exact (Records.prefix_storeAll _ _).trans (Words.holds_store (Words.store _ _).eta.symm).2

/-- What a state does for all terminals that it does not list: if it has no
default reduction and no top rule leads to it, it reduces as at the end of the
input. -/
def otherwise? (a : Assembly) (i : Nat) : Option Nat :=
  let s := a.automaton.state i
  if s.defaultReduce.isNone && !((Records.reachedFromTop a.grammar a.automaton)[i]?.getD false)
  then s.endReduction? a.grammar a.skips
  else none

end Assembly

/-! ## §3 Symbols -/

/-- Gotos of the automaton of a build are for different symbols, and these
occur in rules of the grammar. -/
theorem Compile.gotos_of_assembly {b : Blueprint} {journal journal' : Journal} {a : Assembly}
    (h : Compile.assembly b journal = .ok a journal') :
    ∃ rules, Numbering.ofRules a.grammar.terms rules = .ok a.grammar.numbering ∧
      ∀ p, ((a.automaton.state p).gotos.map Goto.term).Nodup ∧
        ∀ x ∈ (a.automaton.state p).gotos, x.term ∈ Numbering.usedIn rules ∧
          x.term.index < a.grammar.terms.size := by
  obtain ⟨_, rules, numbering, skips, full, states, _, hnumbering, hgrammar, hfull, hgroups,
    hauto⟩ := exists_stages_of_assembly h
  obtain ⟨seeds, hb⟩ := fullAutomaton_built hfull
  have hterms : a.grammar.terms = b.draft.terms := congrArg Grammar.terms hgrammar
  have hids : a.grammar.numbering = numbering := congrArg Grammar.numbering hgrammar
  have hrules : ∀ r ∈ a.grammar.rules, r ∈ rules := by
    intro r hr
    rw [hgrammar] at hr
    exact (List.mem_filter.mp hr).1
  have hstates (i : Nat) : (states.state i).gotos = (full.state i).gotos := by
    obtain ⟨_, hi⟩ := hgroups.state_eq i
    rw [hi]
  refine ⟨rules, by rw [hterms, hids, hnumbering], fun p => ?_⟩
  obtain ⟨q, hperm⟩ := Identical.exists_gotos_rounds (g := a.grammar) _ _ p
  rw [hauto, mergeIdentical]
  constructor
  · rw [hperm.nodup_iff]
    exact Collapse.nodup_gotos_collapse (hgroups.isClosed hb.isClosed)
      (fun i => hstates i ▸ hb.nodup_gotos) q
  · intro x hx
    obtain ⟨y, hy, hterm⟩ := List.mem_map.mp (hperm.mem_iff.mp (List.mem_map_of_mem hx))
    obtain ⟨i, _, _, z, hz, rfl⟩ := Collapse.exists_goto_of_collapse hy
    obtain ⟨hnonterminal, item, hitem, hnext⟩ := hb.exists_next_of_goto (hstates i ▸ hz)
    have hterm : x.term = z.term := hterm.symm
    rw [hterm]
    refine ⟨List.mem_flatMap.mpr ⟨item.rule, hrules _ (hb.rule_mem hitem), ?_⟩,
      TermTable.lt_size_of_isTerminal hnonterminal⟩
    exact List.mem_cons_of_mem _ (List.mem_of_getElem? hnext)

/-! ## §4 Decoding -/

/-- The list of actions of a state, as it reads back. -/
theorem Assembly.at?_actions {a : Assembly} {t : ParserTables} (h : a.tables = .ok t)
    (hid : ∀ u, a.grammar.id u ≠ Code.listEnd) :
    t.states.length = a.automaton.size ∧ ∀ i < a.automaton.size,
      let s := a.automaton.state i
      ∃ r, t.states[i]? = some r ∧ ActionList.at? t.stateData r.actions =
        some ⟨(Records.listed s).filterMap
          (ActionList.listedAs? a.grammar a.skips (a.otherwise? i)), a.otherwise? i⟩ := by
  obtain ⟨skipAddresses, forced, words, hstates, hdata, _⟩ := exists_setup_of_tables h
  obtain ⟨hlength, _, hall⟩ := Records.recordsFrom_spec (a.setup skipAddresses forced) words 0
    a.automaton.toList
  refine ⟨by rw [hstates, hlength, Array.length_toList], fun i hi => ?_⟩
  have hstate : a.automaton.toList[i]? = some (a.automaton.state i) := by
    rw [Automaton.state, Array.getElem?_toList, Array.getElem?_eq_getElem hi]
    rfl
  obtain ⟨r, hr, hheld⟩ := hall i _ hstate
  rw [Nat.zero_add] at hheld
  obtain ⟨rest, hrest⟩ : Words.Holds ⟨t.stateData⟩ _ r.actions := hheld.mono hdata
  refine ⟨r, hstates ▸ hr, ?_⟩
  rw [ActionList.at?, ← hrest]
  exact ActionList.read?_actions hid _ rest

/-- The tables of a grammar read back as its automaton: the list of actions of
every state, without what it does for all other terminals, and all its gotos.
All numbers fit 16 bits. -/
theorem compileTables_decodes {source : Text.Source} {t : ParserTables} {journal : Journal}
    (h : compileTables source = (.ok t, journal)) :
    ∃ b j a j', Blueprint.ofSource source = (.ok b, j) ∧ Compile.assembly b j = .ok a j' ∧
      a.tables = .ok t ∧ t.states.length = a.automaton.size ∧
      (∀ value ∈ t.stateData ++ t.goto, value ≤ 0xffff) ∧
      ∀ i < a.automaton.size,
        let s := a.automaton.state i
        (∃ r, t.states[i]? = some r ∧ ActionList.at? t.stateData r.actions =
          if s.defaultReduce.isSome then some ⟨[], none⟩
          else some ⟨s.actions.filterMap (ActionList.listedAs? a.grammar a.skips (a.otherwise? i)),
            a.otherwise? i⟩) ∧
        ∀ x ∈ s.gotos, GotoTable.lookup? t.goto (a.grammar.id x.term) i = some x.target := by
  obtain ⟨b, j, a, j', hsource, hassembly, htables⟩ := exists_assembly_of_compileTables h
  obtain ⟨rules, hnumbering, hgotos⟩ := Compile.gotos_of_assembly hassembly
  have hid (u : Term) : a.grammar.id u < 0xfffe := Numbering.id_lt hnumbering u
  obtain ⟨_, _, _, _, _, hsmall, hgoto⟩ := Assembly.exists_setup_of_tables htables
  obtain ⟨hlength, hactions⟩ := Assembly.at?_actions htables fun u => by
    have := hid u
    simp only [Code.listEnd]
    omega
  refine ⟨b, j, a, j', hsource, hassembly, htables, hlength, fun value hvalue => ?_,
    fun i hi => ⟨?_, fun x hx => ?_⟩⟩
  · rcases List.mem_append.mp hvalue with hvalue | hvalue
    · exact hsmall value hvalue
    · exact GotoTable.le_of_mem_gotoTable hgoto (fun u => by have := hid u; omega) value hvalue
  · obtain ⟨r, hr, hread⟩ := hactions i hi
    refine ⟨r, hr, hread.trans ?_⟩
    cases hdefault : (a.automaton.state i).defaultReduce <;>
      simp [Records.listed, Assembly.otherwise?, hdefault]
  · have hedge : GotoTable.Edge.mk (a.grammar.id x.term) i x.target ∈
        GotoTable.edges a.grammar a.automaton := GotoTable.mem_edges.mpr ⟨x, hx, rfl, rfl⟩
    refine GotoTable.lookup?_gotoTable hgoto hedge fun e he hsymbol hsource => ?_
    obtain ⟨y, hy, hsymbol', htarget⟩ := GotoTable.mem_edges.mp he
    simp only at hsource hsymbol ⊢
    rw [hsource] at hy
    obtain ⟨hnodup, hused⟩ := hgotos i
    have hterm : y.term = x.term :=
      Numbering.id_inj hnumbering (hused y hy).1 (hused x hx).1 (hused y hy).2 (hused x hx).2
        (hsymbol'.trans hsymbol)
    rw [← htarget, List.inj_on_of_nodup_map hnodup hy hx hterm]

/-- A symbol that stands in two places, and a rule for what is skipped that can end
or go on. -/
def twicePlaced : Text.Source :=
  ⟨"", "@top T \x7b A d | a A e \x7d A \x7b b \x7d @skip \x7b C \x7d
    @skip \x7b\x7d \x7b C \x7b h y? \x7d \x7d
    @external tokens s from \"\" \x7b a, b, d, e, h, y \x7d"⟩

/-- Its grammar. -/
def twicePlacedGrammar : Grammar where
  terms := ⟨#[{ name := "␄", kind := .terminal },
    { name := "⚠", kind := .nonterminal, nodeName := some "⚠", preserved := true },
    { name := "a", kind := .terminal }, { name := "b", kind := .terminal },
    { name := "d", kind := .terminal }, { name := "e", kind := .terminal },
    { name := "h", kind := .terminal }, { name := "y", kind := .terminal },
    { name := "%noskip", kind := .nonterminal }, { name := "%mainskip", kind := .nonterminal },
    { name := "C", kind := .nonterminal, nodeName := some "C" },
    { name := "@top", kind := .top, nodeName := some "T" },
    { name := "A", kind := .nonterminal, nodeName := some "A" }], [⟨11⟩]⟩
  numbering := ⟨[⟨1⟩, ⟨10⟩, ⟨11⟩, ⟨12⟩, ⟨0⟩, ⟨2⟩, ⟨3⟩, ⟨4⟩, ⟨5⟩, ⟨6⟩, ⟨7⟩, ⟨9⟩],
    #[some 4, some 0, some 5, some 6, some 7, some 8, some 9, some 10, none, some 11, some 1,
      some 2, some 3], 4, 4⟩
  rules := [
    ⟨⟨[⟨6⟩], [.none, .none]⟩, 0, ⟨10⟩, ⟨8⟩⟩,
    ⟨⟨[⟨6⟩, ⟨7⟩], [.none, .none, .none]⟩, 1, ⟨10⟩, ⟨8⟩⟩,
    ⟨⟨[⟨10⟩], [.none, .none]⟩, 2, ⟨9⟩, ⟨8⟩⟩,
    ⟨⟨[⟨3⟩], [.none, .none]⟩, 3, ⟨12⟩, ⟨9⟩⟩,
    ⟨⟨[⟨12⟩, ⟨4⟩], [.none, .none, .none]⟩, 4, ⟨11⟩, ⟨9⟩⟩,
    ⟨⟨[⟨2⟩, ⟨12⟩, ⟨5⟩], [.none, .none, .none, .none]⟩, 5, ⟨11⟩, ⟨9⟩⟩]

/-- What its build begins with: all tokens are external, and nothing is ranked. -/
def twicePlacedBasis : Blueprint.Basis where
  grammar := twicePlacedGrammar
  skips := ⟨[⟨⟨8⟩, [], false, []⟩, ⟨⟨9⟩, [], true, [⟨6⟩]⟩]⟩
  tops := [⟨11⟩]
  noSkip := ⟨8⟩
  origins := [⟨7⟩, ⟨6⟩, ⟨5⟩, ⟨4⟩, ⟨3⟩, ⟨2⟩].map (·, .external 0)
  ranks := []
  conflicts := []
  tokens := ⟨#[⟨[], []⟩]⟩

/-- What comes of its build: `a` leads to the state with the number 4, and `h` to the one
with the number 5. -/
theorem exists_build_twicePlaced : ∃ b j a t,
    Blueprint.ofSource twicePlaced = (.ok b, j) ∧ b.build = .ok a ∧ a.tables = .ok t ∧
      (a.automaton.size = 10 ∧ a.grammar.id ⟨12⟩ = 3) ∧
      [0, 4].map (fun i => (a.automaton.state i).gotos) = [[⟨⟨12⟩, 3⟩], [⟨⟨12⟩, 8⟩]] ∧
      [0, 4, 5].map (fun i => (a.automaton.state i).defaultReduce) = [none, none, none] ∧
      (a.otherwise? 0 = none ∧ a.otherwise? 4 = none ∧ a.otherwise? 5 = some 589825) ∧
      [0, 4].map (fun i => (a.automaton.state i).actions.filterMap
        (ActionList.listedAs? a.grammar a.skips none)) = [[(5, 4), (6, 2)], [(6, 2)]] ∧
      (a.automaton.state 5).actions.filterMap
        (ActionList.listedAs? a.grammar a.skips (some 589825)) = [(10, 9)] ∧
      t.states[4]?.map StateRecord.actions = t.states[0]?.map fun r => r.actions + 3 := by
  have hbasis : (Blueprint.ofSource twicePlaced).1.toOption.any (fun b =>
      b.basis.toOption.any fun x => decide (x = twicePlacedBasis ∧ b.decl.dialects.isNone)) =
        true := by
    decide +kernel
  obtain ⟨b, j, hsource, hbasis⟩ := exists_ok_fst_of_any hbasis
  obtain ⟨_, hbasis, hcheck⟩ := exists_ok_of_any hbasis
  obtain ⟨rfl, hdialects⟩ := of_decide_eq_true hcheck
  have hbuild : (twicePlacedBasis.build b).toOption.any (fun a =>
      (a.automaton.size == 10 && a.grammar.id ⟨12⟩ == 3) &&
      [0, 4].map (fun i => (a.automaton.state i).gotos) == [[⟨⟨12⟩, 3⟩], [⟨⟨12⟩, 8⟩]] &&
      [0, 4, 5].map (fun i => (a.automaton.state i).defaultReduce) == [none, none, none] &&
      ([0, 4].map (fun i => (Records.reachedFromTop a.grammar a.automaton)[i]?) ==
        [some true, some true] && a.otherwise? 5 == some 589825) &&
      [0, 4].map (fun i => (a.automaton.state i).actions.filterMap
        (ActionList.listedAs? a.grammar a.skips none)) == [[(5, 4), (6, 2)], [(6, 2)]] &&
      (a.automaton.state 5).actions.filterMap
        (ActionList.listedAs? a.grammar a.skips (some 589825)) == [(10, 9)]) = true := by
    cbv
  have htables : (twicePlacedBasis.build b >>= Assembly.tables).toOption.any (fun t =>
      t.states[4]?.map StateRecord.actions == t.states[0]?.map fun r => r.actions + 3) = true := by
    obtain ⟨⟨_, _, _, _, _, _, _, _, _, _, _, dialects, _⟩, draft, ranks, conflicts⟩ := b
    obtain rfl : dialects = none := Option.isNone_iff_eq_none.mp hdialects
    cbv
  rw [← Blueprint.build_eq_of_basis hbasis] at hbuild htables
  obtain ⟨a, hbuild, hstates⟩ := exists_ok_of_any hbuild
  obtain ⟨t, htables, hshared⟩ := exists_ok_of_any htables
  rw [hbuild] at htables
  simp only [Bool.and_eq_true, beq_iff_eq] at hstates hshared
  obtain ⟨⟨⟨⟨⟨hsize, hgotos⟩, hlooks⟩, hreached, hother₅⟩, hlisted⟩, hlist₅⟩ := hstates
  simp only [List.map_cons, List.map_nil, List.cons.injEq, and_true] at hreached
  exact ⟨b, j, a, t, hsource, hbuild, htables, hsize, hgotos, hlooks,
    ⟨by simp [Assembly.otherwise?, hreached.1], by simp [Assembly.otherwise?, hreached.2], hother₅⟩,
    hlisted, hlist₅, hshared⟩

/-- The list of actions behind `a` stands inside that of the first state, and both
have a goto for `A`. The state behind `h` reads `y`, and reduces when anything else
comes next. -/
theorem compileTables_decodes_twicePlaced :
    ∃ (t : ParserTables) (journal : Journal) (a : Assembly),
      compileTables twicePlaced = (.ok t, journal) ∧ a.tables = .ok t ∧
      (∀ value ∈ t.stateData ++ t.goto, value ≤ 0xffff) ∧
      (∃ r r', t.states[0]? = some r ∧ t.states[4]? = some r' ∧ r'.actions = r.actions + 3 ∧
        ActionList.at? t.stateData r.actions = some ⟨[(5, 4), (6, 2)], none⟩ ∧
        ActionList.at? t.stateData r'.actions = some ⟨[(6, 2)], none⟩) ∧
      (GotoTable.lookup? t.goto 3 0 = some 3 ∧ GotoTable.lookup? t.goto 3 4 = some 8) ∧
      ∃ r, t.states[5]? = some r ∧ a.otherwise? 5 = some 589825 ∧
        ActionList.at? t.stateData r.actions = some ⟨[(10, 9)], some 589825⟩ := by
  obtain ⟨b, j, a, t, hsource, hbuild, htables, ⟨hsize, hid⟩, hgotos, hlooks,
    ⟨hother₀, hother₄, hother₅⟩, hlisted, hlist₅, hshared⟩ := exists_build_twicePlaced
  simp only [List.map_cons, List.map_nil, List.cons.injEq, and_true] at hgotos hlooks hlisted
  obtain ⟨hgoto₀, hgoto₄⟩ := hgotos
  obtain ⟨hlooks₀, hlooks₄, hlooks₅⟩ := hlooks
  obtain ⟨hlist₀, hlist₄⟩ := hlisted
  obtain ⟨journal, h⟩ := exists_compileTables hsource hbuild htables
  obtain ⟨b', j', a', j₁, hsource', hassembly, -, -, hsmall, hstates⟩ := compileTables_decodes h
  obtain rfl : a' = a := Compile.eq_of_assembly hsource hbuild hsource' hassembly
  obtain ⟨⟨r₀, hr₀, hread₀⟩, hgotos₀⟩ := hstates 0 (by omega)
  obtain ⟨⟨r₄, hr₄, hread₄⟩, hgotos₄⟩ := hstates 4 (by omega)
  obtain ⟨⟨r₅, hr₅, hread₅⟩, -⟩ := hstates 5 (by omega)
  rw [hlooks₀, hother₀, hlist₀] at hread₀
  rw [hlooks₄, hother₄, hlist₄] at hread₄
  rw [hlooks₅, hother₅, hlist₅] at hread₅
  refine ⟨t, journal, a', h, htables, hsmall, ⟨r₀, r₄, hr₀, hr₄, ?_, hread₀, hread₄⟩,
    ⟨hid ▸ hgotos₀ ⟨⟨12⟩, 3⟩ (by simp [hgoto₀]), hid ▸ hgotos₄ ⟨⟨12⟩, 8⟩ (by simp [hgoto₄])⟩,
    r₅, hr₅, hother₅, hread₅⟩
  simpa [hr₀, hr₄] using hshared

end GrammarCompiler
