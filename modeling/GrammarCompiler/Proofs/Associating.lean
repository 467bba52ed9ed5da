/-
GrammarCompiler.Proofs.Associating — declared precedence, from the text to the trees.

Nothing of a declared grammar of operators is inlined or merged, and nothing is skipped,
so the automaton is built for the rules of the table. They make an operator grammar
(`OperatorTable.IsBuilt.toGrammar`), with levels and sides as the precedence list says. So
the automaton has no conflicts, and its runs build trees by precedence
(`GrammarDecl.Declares.parses`).

  §1 Inlining  — symbols that occur in their own rules stay.
  §2 Rules     — the rules of a table are what the automaton is built for.
  §3 Terminals — each token of a table has a terminal of its own.
  §4 Grammars  — the operator grammar of a table.
  §5 Trees     — what is built for a sequence of operators.
-/
import GrammarCompiler.Proofs.Flattening
import GrammarCompiler.Proofs.Masking
import GrammarCompiler.Proofs.Operations
import GrammarCompiler.Proofs.Precedence
import GrammarCompiler.Proofs.Succeeding

namespace GrammarCompiler

/-! ## §1 Inlining -/

namespace Replacements

variable {terms : TermTable} {preserve : List Term} {rules : List Rule}

/-- A symbol that is chosen does not occur in its own rules. -/
theorem notMem_parts_of_choose {first : Bool} {entry : Term × List Rule}
    (h : entry ∈ choose terms preserve first rules) : ∀ r ∈ entry.2, entry.1 ∉ r.parts := by
  have hmarked : ∀ entry ∈ marked terms rules, ∀ r ∈ entry.2, entry.1 ∉ r.parts := by
    rw [marked]
    refine List.foldlRecOn (motive := fun chosen : Replacements => ∀ entry ∈ chosen,
      ∀ r ∈ entry.2, entry.1 ∉ r.parts) rules _ (fun _ h => absurd h List.not_mem_nil)
      fun chosen ih r _ entry h => ?_
    split at h
    next => exact ih entry h
    next =>
      simp only at h
      split at h
      next => exact ih entry h
      next hnone =>
        rcases List.mem_append.mp h with h | h
        · exact ih entry h
        · obtain rfl := List.mem_singleton.mp h
          intro other hother hpart
          exact hnone (List.any_eq_true.mpr ⟨other, hother, by simpa using hpart⟩)
  have hchosen : ∀ entry ∈ (if first then marked terms rules else []),
      ∀ r ∈ entry.2, entry.1 ∉ r.parts := by
    cases first with
    | true => exact hmarked
    | false => exact fun _ h => absurd h List.not_mem_nil
  rw [choose, withSmall] at h
  revert entry
  refine List.foldlRecOn (motive := fun chosen : Replacements => ∀ {entry}, entry ∈ chosen →
    ∀ r ∈ entry.2, entry.1 ∉ r.parts) rules _ (hchosen _) fun chosen ih r _ entry h => ?_
  split at h
  next hsmall =>
    rcases List.mem_append.mp h with h | h
    · exact ih h
    · obtain rfl := List.mem_singleton.mp h
      simp only [isSmall, Bool.and_eq_true, Bool.not_eq_true', List.contains_eq_mem,
        decide_eq_false_iff_not] at hsmall
      exact List.forall_mem_singleton.mpr hsmall.1.1.1.1.1.2
  next => exact ih h

end Replacements

theorem Merging.applyAll_nil (count : Nat) (rules : List Rule) :
    applyAll [] count rules = (rules, count) := by
  induction rules with
  | nil => rfl
  | cons r rules ih => simp [applyAll, ih]

/-! ## §2 Rules -/

namespace OperatorTable

variable {x : OperatorTable} {source : Text.Source} {b : Blueprint} {journal : Journal}
  {expr top skip : Term}

/-- The rule for an operator, which has a place in the table. -/
def rule (x : OperatorTable) (d : Draft) (expr skip : Term) (entry : DeclaredOperator × Nat) :
    Rule :=
  { toPhrase := x.phrase d expr entry.1, id := entry.2, name := expr, skip }

/-- The rule for the operand. -/
def operandRule (x : OperatorTable) (d : Draft) (expr skip : Term) : Rule :=
  { toPhrase := .single (d.terminal x.operand), id := x.operators.length, name := expr, skip }

/-- The rule at the top. -/
def topRule (x : OperatorTable) (expr top skip : Term) : Rule :=
  { toPhrase := .single expr, id := x.operators.length + 1, name := top, skip }

theorem rules_eq (x : OperatorTable) (d : Draft) (expr top skip : Term) :
    x.rules d expr top skip = x.operators.zipIdx.map (x.rule d expr skip) ++
      [x.operandRule d expr skip, x.topRule expr top skip] := by
  simp [rules, Draft.rulesFrom, phrases, rule, operandRule, topRule, List.zipIdx_append,
    List.zipIdx_map, Function.comp_def]

theorem mem_rules {d : Draft} {r : Rule} : r ∈ x.rules d expr top skip ↔
    (∃ entry ∈ x.operators.zipIdx, x.rule d expr skip entry = r) ∨
      r = x.operandRule d expr skip ∨ r = x.topRule expr top skip := by
  simp [rules_eq]

/-- Rules are for expressions or for the whole. -/
theorem name_of_mem_rules {d : Draft} {r : Rule} (hr : r ∈ x.rules d expr top skip) :
    r.name = expr ∨ r = x.topRule expr top skip := by
  rcases mem_rules.mp hr with ⟨entry, _, rfl⟩ | rfl | rfl
  · exact .inl rfl
  · exact .inl rfl
  · exact .inr rfl

/-- Some rule for expressions has expressions in it. -/
theorem exists_rule_of_expr (hx : x.operators ≠ []) (d : Draft) (expr top skip : Term) :
    ∃ r ∈ x.rules d expr top skip, r.name = expr ∧ expr ∈ r.parts := by
  obtain ⟨entry, hentry⟩ := List.exists_mem_of_ne_nil x.operators.zipIdx (by simpa using hx)
  exact ⟨x.rule d expr skip entry, mem_rules.mpr (.inl ⟨entry, hentry, rfl⟩), rfl, .head _⟩

namespace IsBuilt

variable (hb : x.IsBuilt b expr top skip)
include hb

theorem mem_preserve : top ∈ b.draft.skipTerms ++ b.draft.terms.tops := by
  rw [hb.tops_eq]
  exact List.mem_append_right _ (.head _)

/-- Nothing is inlined. -/
theorem choose_eq_nil (hsound : b.draft.Sound) (hx : x.operators ≠ []) :
    Replacements.choose b.draft.terms (b.draft.skipTerms ++ b.draft.terms.tops) true
      b.draft.rules = [] := by
  rw [List.eq_nil_iff_forall_not_mem]
  intro entry hentry
  obtain ⟨_, ⟨r, hr, hname⟩, hlist⟩ := Replacements.lists_of_choose hentry
  rw [hb.rules_eq] at hr
  rcases name_of_mem_rules hr with hexpr | rfl
  · obtain ⟨r', hr', hname', hpart⟩ := exists_rule_of_expr hx b.draft expr top skip
    refine Replacements.notMem_parts_of_choose hentry r' ?_ ?_
    · rw [hlist, hb.rules_eq, List.mem_filter, beq_iff_eq]
      exact ⟨hr', hname'.trans (hexpr.symm.trans hname)⟩
    · rwa [← hname, hexpr]
  · have hhas := Replacements.has_iff.mpr ⟨entry.2, hentry⟩
    rw [← hname, show (x.topRule expr top skip).name = top from rfl,
      Replacements.has_choose_of_mem hb.mem_preserve
        (hsound.stays top hb.mem_preserve).inlined] at hhas
    cases hhas

/-- Nothing is merged. -/
theorem targets_eq_nil (hstretches : InStretches b.draft.rules)
    (htop : b.draft.terms.isTop top = true) :
    Merging.targets b.draft.terms (Merging.groups b.draft.rules) = [] := by
  rw [List.eq_nil_iff_forall_not_mem]
  rintro ⟨t, u⟩ htarget
  have hgives := Merging.givesWay_of_mem_targets hstretches htarget
  have hexpr {r : Rule} (hr : r ∈ b.draft.rules)
      (hname : (b.draft.terms.info r.name).isDistinct = false) : r.name = expr := by
    rw [hb.rules_eq] at hr
    refine (name_of_mem_rules hr).resolve_right fun heq => ?_
    have hkind : (b.draft.terms.info r.name).kind = .top := by
      rw [heq]
      exact beq_iff_eq.mp htop
    simp [TermInfo.isDistinct, hkind] at hname
  obtain ⟨front, back, hsplit, ⟨r, hr, rfl⟩, hother⟩ := hgives.behind
  have hmem : r ∈ b.draft.rules := hsplit ▸ List.mem_append_left _ hr
  have hfilter : r ∈ b.draft.rules.filter fun r' => r'.name == r.name :=
    List.mem_filter.mpr ⟨hmem, beq_self_eq_true _⟩
  have hlength := congrArg List.length hgives.same
  rw [List.length_map, List.length_map] at hlength
  obtain ⟨r', hr'⟩ := List.exists_mem_of_length_pos (hlength ▸ List.length_pos_of_mem hfilter)
  obtain ⟨hmem', hname'⟩ := List.mem_filter.mp hr'
  obtain rfl := beq_iff_eq.mp hname'
  exact hother r hr ((hexpr hmem hgives.anonymous).trans (hexpr hmem' hgives.anonymous').symm)

/-- The rules stay what they are. -/
theorem simplified_eq (hsound : b.draft.Sound) (hstretches : InStretches b.draft.rules)
    (htop : b.draft.terms.isTop top = true) (hx : x.operators ≠ []) :
    b.simplified = b.draft.rules := by
  have hinlined : Inlining.ofRules b.draft.terms (b.draft.skipTerms ++ b.draft.terms.tops)
      b.draft.rules.length b.draft.rules = ⟨b.draft.rules, b.draft.rules.length, []⟩ := by
    rw [Inlining.ofRules, Inlining.run, hb.choose_eq_nil hsound hx]
    rfl
  rw [Blueprint.simplified]
  simp only [hinlined]
  rw [Merging.merge, hb.targets_eq_nil hstretches htop, Merging.applyAll_nil]

/-- No rule is for something that is skipped. -/
theorem name_ne_skip {r : Rule} (hr : r ∈ b.draft.rules) : r.name ≠ skip := by
  rw [hb.rules_eq] at hr
  have hlt : skip.index < r.name.index := by
    rcases name_of_mem_rules hr with hname | rfl
    · exact hname ▸ Nat.lt_trans hb.skip_lt hb.top_lt
    · exact hb.skip_lt
  exact fun heq => Nat.lt_irrefl _ (heq ▸ hlt)

/-- The automaton is built for the rules of the table. -/
theorem prunedGrammar_rules (hsimple : b.simplified = b.draft.rules) (numbering : Numbering) :
    (b.prunedGrammar numbering).rules = x.rules b.draft expr top skip := by
  rw [← hb.rules_eq, ← hsimple]
  refine List.filter_eq_self.mpr fun r hr => ?_
  have hmem : r ∈ b.simplified := hr
  have hne := hb.name_ne_skip (hsimple ▸ hmem)
  have hnone : ((b.skipping numbering).entries.any fun e => e.term == r.name) = false := by
    rw [Blueprint.skipping, hb.skipTerms_eq]
    simp [Skipping.ofTerms, SkipEntry.ofTerm, hne.symm]
  rw [Skipping.needsNoStates, hnone, Bool.false_and]
  rfl

/-- Nothing that is skipped has states. -/
theorem withStates_eq_nil (hsimple : b.simplified = b.draft.rules) (numbering : Numbering) :
    (b.skipping numbering).withStates = [] := by
  have hnone : (b.wholeGrammar numbering).rulesFor skip = [] := by
    refine List.filter_eq_nil_iff.mpr fun r hr => ?_
    have hmem : r ∈ b.simplified := hr
    simpa using hb.name_ne_skip (hsimple ▸ hmem)
  rw [Blueprint.skipping, hb.skipTerms_eq]
  simp [Skipping.withStates, Skipping.ofTerms, SkipEntry.ofTerm, hnone]

end IsBuilt

end OperatorTable

/-! ## §3 Terminals -/

theorem TokenKey.same_of_same {i a b : TokenKey} (ha : i.same a = true) (hb : i.same b = true) :
    a.same b = true := by
  cases i with
  | rule name args =>
    cases a with
    | rule name' args' =>
      cases b with
      | rule name'' args'' =>
        simp only [same, Expr.allSame, Bool.and_eq_true, beq_iff_eq] at *
        exact ⟨ha.1.symm.trans hb.1, ha.2.symm.trans hb.2⟩
      | literal => cases hb
    | literal => cases ha
  | literal value =>
    cases a with
    | rule => cases ha
    | literal =>
      cases b with
      | rule => cases hb
      | literal =>
        simp only [same, beq_iff_eq] at *
        exact ha.symm.trans hb

theorem TermTable.mem_all {terms : TermTable} {t : Term} (h : t.index < terms.size) :
    t ∈ terms.all :=
  List.mem_map.mpr ⟨t.index, List.mem_range.mpr h, rfl⟩

namespace Draft

variable {d : Draft} {key key' : TokenKey} {t : Term}

theorem tokenFor?_terminal (h : (d.tokenFor? key).isSome = true) :
    d.tokenFor? key = some (d.terminal key) := by
  obtain ⟨t, ht⟩ := Option.isSome_iff_exists.mp h
  rw [terminal, ht, Option.getD_some]

/-- Different tokens have different terminals. -/
theorem HasOwnTokens.same (hd : d.HasOwnTokens) (h : d.tokenFor? key = some t)
    (h' : d.tokenFor? key' = some t) : key.same key' = true := by
  obtain ⟨i, hi, rfl⟩ := Option.map_eq_some_iff.mp h
  obtain ⟨j, hj, heq⟩ := Option.map_eq_some_iff.mp h'
  obtain rfl := List.inj_on_of_nodup_map hd.nodup (List.mem_of_find?_eq_some hj)
    (List.mem_of_find?_eq_some hi) heq
  have hkey : j.key.same key = true := by simpa using List.find?_some hi
  have hkey' : j.key.same key' = true := by simpa using List.find?_some hj
  exact TokenKey.same_of_same hkey hkey'

theorem HasOwnTokens.ne_eof (hd : d.HasOwnTokens) (h : d.tokenFor? key = some t) : t ≠ .eof := by
  obtain ⟨i, hi, rfl⟩ := Option.map_eq_some_iff.mp h
  intro heq
  exact Nat.lt_irrefl _ (heq ▸ hd.eof_lt i (List.mem_of_find?_eq_some hi))

end Draft

namespace OperatorTable

variable {x : OperatorTable} {d : Draft}

/-- The end of the input, the operand and the operators are different terminals. -/
theorem nodup_terminals (hd : d.HasOwnTokens)
    (hfound : ∀ key ∈ x.keys, (d.tokenFor? key).isSome = true)
    (hdistinct : x.keys.Pairwise fun a b => a.same b = false) :
    (Term.eof :: x.keys.map d.terminal).Nodup := by
  refine List.nodup_cons.mpr ⟨fun hmem => ?_, List.pairwise_map.mpr ?_⟩
  · obtain ⟨key, hkey, heq⟩ := List.mem_map.mp hmem
    exact hd.ne_eof (Draft.tokenFor?_terminal (hfound key hkey)) heq
  · refine hdistinct.imp_of_mem fun {a b} ha hb hne heq => ?_
    have hsame := hd.same (Draft.tokenFor?_terminal (hfound a ha))
      (heq ▸ Draft.tokenFor?_terminal (hfound b hb))
    rw [hne] at hsame
    cases hsame

end OperatorTable

/-! ## §4 Grammars -/

namespace OperatorTable

variable {x : OperatorTable} {b : Blueprint} {expr top skip : Term}

/-- The operator of a grammar that an operator with a place in the table becomes. -/
def toOperator (x : OperatorTable) (d : Draft) (expr skip : Term)
    (entry : DeclaredOperator × Nat) : Operator where
  term := d.terminal entry.1.key
  rule := x.rule d expr skip entry
  level := x.items.length - x.place entry.1
  leftward := x.leftward entry.1

theorem place_lt {o : DeclaredOperator} (h : ∃ i ∈ x.items, i.id.name = o.item) :
    x.place o < x.items.length := by
  obtain ⟨i, hi, hname⟩ := h
  exact List.findIdx_lt_length_of_exists ⟨i, hi, beq_iff_eq.mpr hname⟩

/-- Operators hold against each other as the precedence list says. -/
theorem holds_toOperator {d : Draft} {entry next : DeclaredOperator × Nat}
    (h : x.place entry.1 < x.items.length) (h' : x.place next.1 < x.items.length) :
    (x.toOperator d expr skip entry).holds (x.toOperator d expr skip next) =
      x.binds entry.1 next.1 := by
  have hlt : x.items.length - x.place next.1 < x.items.length - x.place entry.1 ↔
      x.place entry.1 < x.place next.1 := by omega
  have heq : x.items.length - x.place next.1 = x.items.length - x.place entry.1 ↔
      x.place entry.1 = x.place next.1 := by omega
  rw [Bool.eq_iff_iff, Operator.holds_iff, binds]
  simp only [toOperator, Bool.or_eq_true, Bool.and_eq_true, decide_eq_true_eq, beq_iff_eq, hlt,
    heq]

/-- The marks of the rules of a table are precedences only. -/
theorem plain_of_mem_marks {d : Draft} {r : Rule} (hr : r ∈ x.rules d expr top skip) {m : Marks}
    (hm : m ∈ r.marks) : m.ambiguities = [] ∧ m.cut = 0 := by
  rcases mem_rules.mp hr with ⟨entry, _, rfl⟩ | rfl | rfl
  · have hmarks : m = .none ∨ m = (x.gap entry.1).here ∨ m = (x.gap entry.1).atEnd := by
      have hmem : m ∈ x.marks entry.1 := hm
      simp only [marks, List.mem_cons, List.not_mem_nil, or_false] at hmem
      tauto
    rcases hmarks with rfl | rfl | rfl <;> exact ⟨rfl, rfl⟩
  · have hmem : m ∈ [Marks.none, Marks.none] := hm
    obtain rfl : m = .none := by simpa using hmem
    exact ⟨rfl, rfl⟩
  · have hmem : m ∈ [Marks.none, Marks.none] := hm
    obtain rfl : m = .none := by simpa using hmem
    exact ⟨rfl, rfl⟩

theorem nodup_ids (d : Draft) : ((x.rules d expr top skip).map Rule.id).Nodup := by
  have hids : (x.rules d expr top skip).map Rule.id = List.range (x.operators.length + 2) := by
    rw [rules_eq, List.map_append, List.map_map]
    have hentries : x.operators.zipIdx.map (Rule.id ∘ x.rule d expr skip) =
        List.range x.operators.length := by
      rw [List.range_eq_range', ← List.zipIdx_map_snd]
      rfl
    rw [hentries, List.range_succ, List.range_succ, List.append_assoc]
    rfl
  rw [hids]
  exact List.nodup_range

theorem skip_of_mem_rules {d : Draft} {r : Rule} (hr : r ∈ x.rules d expr top skip) :
    r.skip = skip := by
  rcases mem_rules.mp hr with ⟨entry, _, rfl⟩ | rfl | rfl <;> rfl

/-- The terminals of the operators, behind that of the operand, are those of the table. -/
theorem terms_eq (d : Draft) : d.terminal x.operand ::
    (x.operators.zipIdx.map (x.toOperator d expr skip)).map Operator.term =
      x.keys.map d.terminal := by
  rw [keys, List.map_cons, List.map_map, List.map_map]
  have hfst : x.operators.zipIdx.map (Operator.term ∘ x.toOperator d expr skip) =
      (x.operators.zipIdx.map Prod.fst).map (d.terminal ∘ DeclaredOperator.key) := by
    rw [List.map_map]
    rfl
  rw [hfst, List.zipIdx_map_fst]

/-- What holds of every operator of a table holds of those of its grammar. -/
theorem forall_toOperator {d : Draft} {P : Operator → Prop} (h : ∀ entry : DeclaredOperator × Nat,
    entry.1 ∈ x.operators → P (x.toOperator d expr skip entry)) :
    ∀ o ∈ x.operators.zipIdx.map (x.toOperator d expr skip), P o :=
  List.forall_mem_map.mpr fun entry hentry => h entry (List.fst_mem_of_mem_zipIdx hentry)

theorem IsBuilt.isToken_terminal (hb : x.IsBuilt b expr top skip) (htidy : b.draft.Tidy b.decl)
    {key : TokenKey} (hkey : key ∈ x.keys) : b.draft.terms.IsToken (b.draft.terminal key) :=
  htidy.tokens _ (Draft.mem_tokenTerms_of_tokenFor? (Draft.tokenFor?_terminal (hb.found key hkey)))

/-- The rules of a table make an operator grammar. -/
def IsBuilt.toGrammar (hb : x.IsBuilt b expr top skip) (hx : b.decl.Declares x)
    (htidy : b.draft.Tidy b.decl) (hown : b.draft.HasOwnTokens)
    (hsimple : b.simplified = b.draft.rules) (numbering : Numbering) : OperatorGrammar where
  grammar := b.prunedGrammar numbering
  skip := skip
  expr := expr
  operand := b.draft.terminal x.operand
  operators := x.operators.zipIdx.map (x.toOperator b.draft expr skip)
  topRule := x.topRule expr top skip
  operandRule := x.operandRule b.draft expr skip
  rules := by
    rw [hb.prunedGrammar_rules hsimple, OperatorTable.rules_eq, List.map_map]
    rfl
  ids := by
    rw [hb.prunedGrammar_rules hsimple]
    exact nodup_ids b.draft
  skips := by
    rw [hb.prunedGrammar_rules hsimple]
    exact fun r hr => skip_of_mem_rules hr
  noAmbiguities := by
    rw [Grammar.NoAmbiguities, hb.prunedGrammar_rules hsimple]
    exact fun r hr m hm => (plain_of_mem_marks hr hm).1
  noCuts := by
    rw [hb.prunedGrammar_rules hsimple]
    exact fun r hr m hm => (plain_of_mem_marks hr hm).2
  isTop := htidy.tops top (hb.tops_eq ▸ .head _)
  topParts := rfl
  exprKind := hb.kind
  operandName := rfl
  operandParts := rfl
  operatorName := forall_toOperator fun _ _ => rfl
  operatorParts := forall_toOperator fun _ _ => rfl
  level_pos := forall_toOperator fun entry hentry =>
    Nat.sub_pos_of_lt (place_lt (hx.assigned entry.1 hentry))
  levelMark := forall_toOperator fun _ _ => rfl
  endMark := forall_toOperator fun _ _ => rfl
  isTerminal := by
    rw [terms_eq]
    exact List.forall_mem_map.mpr fun key hkey => (hb.isToken_terminal htidy hkey).isTerminal
  distinct := by
    rw [terms_eq]
    exact nodup_terminals hown hb.found hx.distinct
  known := by
    rw [terms_eq]
    refine List.forall_mem_cons.mpr ⟨TermTable.mem_all hown.eof_lt_size, ?_⟩
    exact List.forall_mem_map.mpr fun key hkey =>
      TermTable.mem_all (hb.isToken_terminal htidy hkey).lt_size

end OperatorTable

/-! ## §5 Trees -/

/-- What is read to build a tree has its operators between operands. -/
theorem OperatorTree.word_eq {α : Type} (t : OperatorTree α) (operand : Term) (term : α → Term) :
    t.word operand term = operand :: t.operators.flatMap fun o => [term o, operand] := by
  induction t with
  | operand => rfl
  | apply left o right ihl ihr => simp [word, operators, ihl, ihr]

namespace OperatorTable

variable {x : OperatorTable} {b : Blueprint} {expr top skip : Term}

/-- An operator of a table and its place there. -/
def entry (x : OperatorTable) (i : Fin x.operators.length) : DeclaredOperator × Nat :=
  (x.operators[i], i)

/-- Whether an operator of a table, by its place, binds its right operand before another. -/
def holds (x : OperatorTable) (i j : Fin x.operators.length) : Bool :=
  x.binds x.operators[i] x.operators[j]

/-- The terminals of operators, by their places, between operands. -/
def sentence (x : OperatorTable) (d : Draft) (ops : List (Fin x.operators.length)) : List Term :=
  d.terminal x.operand ::
    ops.flatMap fun i => [d.terminal x.operators[i].key, d.terminal x.operand]

/-- The derivation tree of a tree of operators, by their places. -/
def forest (x : OperatorTable) (d : Draft) (expr skip : Term)
    (t : OperatorTree (Fin x.operators.length)) : Forest :=
  t.forest (d.terminal x.operand) (fun i => d.terminal x.operators[i].key)
    (x.operandRule d expr skip) fun i => x.rule d expr skip (x.entry i)

/-- What an automaton does that goes by the precedences of a table, in a run from an entry
for the whole: it accepts operands with operators between them, and builds the only tree
by precedence. -/
structure IsParsed (x : OperatorTable) (d : Draft) (expr skip : Term) (g : Grammar)
    (a : Automaton) (start : Nat) (ops : List (Fin x.operators.length)) : Prop where
  accepts : a.Accepts g start (x.sentence d ops)
  tree : ∃ t : OperatorTree (Fin x.operators.length),
    (t.IsByPrecedence x.holds ∧ t.operators = ops) ∧
    (∀ t', t'.IsByPrecedence x.holds ∧ t'.operators = ops → t' = t) ∧
    ∃ s, Relation.ReflTransGen a.Builds (⟨[start], x.sentence d ops⟩, .nil)
      (⟨[s, start], []⟩, x.forest d expr skip t) ∧ a.EndsIn g s

theorem entry_mem (x : OperatorTable) (i : Fin x.operators.length) :
    x.entry i ∈ x.operators.zipIdx :=
  List.mk_mem_zipIdx_iff_getElem?.mpr (List.getElem?_eq_getElem i.isLt)

theorem holds_eq (hassigned : ∀ o ∈ x.operators, ∃ i ∈ x.items, i.id.name = o.item) (d : Draft)
    (expr skip : Term) (i j : Fin x.operators.length) :
    (x.toOperator d expr skip (x.entry i)).holds (x.toOperator d expr skip (x.entry j)) =
      x.holds i j :=
  holds_toOperator (place_lt (hassigned _ (List.getElem_mem _)))
    (place_lt (hassigned _ (List.getElem_mem _)))

/-- The precedences of a table make its operators comparable. -/
theorem isPrecedence (hassigned : ∀ o ∈ x.operators, ∃ i ∈ x.items, i.id.name = o.item) :
    OperatorTree.IsPrecedence x.holds where
  trans := by
    intro i j k
    simp only [← holds_eq hassigned {} .eof .eof]
    exact Operator.isPrecedence.trans
  above := by
    intro i j k
    simp only [← holds_eq hassigned {} .eof .eof]
    exact Operator.isPrecedence.above

/-- Where the automaton of an operator grammar starts, the grammar of a table is parsed by
precedence. -/
theorem isParsed_of_performs (hb : x.IsBuilt b expr top skip) (hx : b.decl.Declares x)
    (htidy : b.draft.Tidy b.decl) (hown : b.draft.HasOwnTokens)
    (hsimple : b.simplified = b.draft.rules) (numbering : Numbering) {a : Automaton}
    {IsAt : Nat → OperatorGrammar.Place → Prop}
    (h : (hb.toGrammar hx htidy hown hsimple numbering).Performs a IsAt) {start : Nat}
    (hstart : IsAt start .top) (ops : List (Fin x.operators.length)) :
    x.IsParsed b.draft expr skip (b.prunedGrammar numbering) a start ops := by
  obtain ⟨t, ⟨hby, hops⟩, hunique⟩ := OperatorTree.exists_unique (isPrecedence hx.assigned) ops
  let toOperator (i : Fin x.operators.length) : Operator :=
    x.toOperator b.draft expr skip (x.entry i)
  have hby' : (t.map toOperator).IsByPrecedence Operator.holds :=
    OperatorTree.isByPrecedence_map (fun i _ j _ => holds_eq hx.assigned b.draft expr skip i j) hby
  have hmem : ∀ o ∈ (t.map toOperator).operators,
      o ∈ (hb.toGrammar hx htidy hown hsimple numbering).operators := by
    rw [OperatorTree.operators_map, List.forall_mem_map]
    exact fun i _ => List.mem_map_of_mem (x.entry_mem i)
  obtain ⟨s, hrun, hend⟩ := h.builds_whole hstart hby' hmem
  have hword : (hb.toGrammar hx htidy hown hsimple numbering).word (t.map toOperator) =
      x.sentence b.draft ops := by
    rw [OperatorGrammar.word, OperatorTree.word_map, OperatorTree.word_eq, hops]
    rfl
  have hforest : (hb.toGrammar hx htidy hown hsimple numbering).forest (t.map toOperator) =
      x.forest b.draft expr skip t := by
    rw [OperatorGrammar.forest, OperatorTree.forest_map]
    rfl
  rw [hword, hforest] at hrun
  exact ⟨⟨s, ⟨_, Automaton.steps_of_builds hrun⟩, hend⟩, t, ⟨hby, hops⟩, hunique, s, hrun, hend⟩

end OperatorTable

/-- Grammars of operators are parsed by precedence. A text whose tokens are plain is worked
through, and then the automaton is built: it has no conflicts and an entry for the symbol at
the top, from which it accepts operands with operators between them and builds the only tree
by precedence. -/
theorem GrammarDecl.Declares.parses {source : Text.Source} {decl : GrammarDecl}
    {x : OperatorTable} (hparse : GrammarDecl.parse source = .ok decl) (hx : decl.Declares x) :
    (decl.HasPlainTokens x → ∃ b journal, Blueprint.ofSource source = (.ok b, journal)) ∧
    ∀ b journal, Blueprint.ofSource source = (.ok b, journal) →
      ∃ expr top skip, x.IsBuilt b expr top skip ∧ ∀ numbering, ∃ a,
        fullAutomaton (b.prunedGrammar numbering)
            (FirstTable.ofGrammar (b.prunedGrammar numbering))
            (b.draft.terms.tops ++ (b.skipping numbering).withStates) b.draft.noSkip = .ok a ∧
          a.Determined ∧ (∃ start, (a.state start).start = some top) ∧
          ∀ start, (a.state start).start = some top → ∀ ops,
            x.IsParsed b.draft expr skip (b.prunedGrammar numbering) a start ops := by
  refine ⟨hx.exists_blueprint hparse, fun b journal h => ?_⟩
  obtain rfl : decl = b.decl :=
    Except.ok.inj (hparse.symm.trans (Blueprint.parse_of_ofSource h))
  obtain ⟨s⟩ := Blueprint.exists_stages h
  obtain ⟨expr, top, hb⟩ := s.isBuilt hx
  have htidy := Blueprint.tidy_of_ofSource h
  have hsimple := hb.simplified_eq (Blueprint.sound_of_ofSource h) htidy.stretches
    (htidy.tops top (hb.tops_eq ▸ .head _)) hx.nonempty
  refine ⟨expr, top, s.noSkip, hb, fun numbering => ?_⟩
  let G := hb.toGrammar hx htidy (Blueprint.hasOwnTokens_of_ofSource h) hsimple numbering
  have hrulesFor : G.grammar.rulesFor top ≠ [] :=
    List.ne_nil_of_mem (List.mem_filter.mpr ⟨G.topRule_mem, beq_self_eq_true _⟩)
  have hstarts : b.draft.terms.tops ++ (b.skipping numbering).withStates = [top] := by
    rw [hb.tops_eq, hb.withStates_eq_nil hsimple, List.append_nil]
  rw [hstarts]
  obtain ⟨a, ha⟩ := G.exists_fullAutomaton (FirstTable.ofGrammar (b.prunedGrammar numbering))
    b.draft.noSkip (List.forall_mem_singleton.mpr hrulesFor)
  obtain ⟨seeds, hbuilt⟩ := fullAutomaton_built ha
  obtain ⟨start, _, hstart⟩ := hbuilt.entries top (.head _) hrulesFor
  refine ⟨a, ha, ⟨fun _ => hbuilt.nodup_terms G.noAmbiguities, fun _ => hbuilt.nodup_gotos⟩,
    ⟨start, hstart⟩, fun q hq ops => ?_⟩
  exact OperatorTable.isParsed_of_performs hb hx htidy _ hsimple numbering
    (OperatorGrammar.performs_of_built hbuilt) (OperatorGrammar.stateIsAt_top hbuilt hq) ops

/-- Sums, which lean to the left, and powers, which lean to the right and bind less. -/
def sums : Text.Source :=
  ⟨"", "@precedence \x7b a @left, b @right \x7d @top T \x7b E \x7d " ++
    "E \x7b E !a \"+\" E | E !b \"^\" E | \"x\" \x7d"⟩

/-- The operators of sums and powers. -/
def sumTable : OperatorTable where
  name := "E"
  items := [⟨⟨14, "a"⟩, some .left⟩, ⟨⟨23, "b"⟩, some .right⟩]
  operators := [⟨"a", .literal "+"⟩, ⟨"b", .literal "^"⟩]
  operand := .literal "x"

/-- The operator of a sum. -/
def plus : Fin sumTable.operators.length :=
  ⟨0, by decide⟩

/-- The operator of a power. -/
def power : Fin sumTable.operators.length :=
  ⟨1, by decide⟩

/-- What is declared about sums and powers. -/
def sumDecl : GrammarDecl where
  precedences := some ⟨0, sumTable.items⟩
  topRules := [⟨⟨39, "T"⟩, [], [], .name 43 "E" []⟩]
  rules := [⟨⟨47, "E"⟩, [], [], .choice 51 [
    .sequence 51 [.name 51 "E" [], .literal 56 "+", .name 60 "E" []]
      [[], [⟨53, .precedence, ⟨54, "a"⟩⟩], [], []],
    .sequence 64 [.name 64 "E" [], .literal 69 "^", .name 73 "E" []]
      [[], [⟨66, .precedence, ⟨67, "b"⟩⟩], [], []],
    .literal 77 "x"]⟩]

theorem parse_sums : GrammarDecl.parse sums = .ok sumDecl := by
  cbv

theorem declares_sums : sumDecl.Declares sumTable where
  precedences := rfl
  sides := by decide
  assigned := by decide
  top := ⟨_, _, _, rfl⟩
  rule := ⟨_, _, [_, _], _, rfl, rfl, .cons (.intro _ _ _ _ _ _ rfl rfl)
    (.cons (.intro _ _ _ _ _ _ rfl rfl) .nil), rfl⟩
  nonempty := by decide
  keys_hasRule := by decide
  distinct := by decide
  mainSkip := rfl
  scopedSkips := rfl
  externalTokens := rfl
  externalSpecializers := rfl

theorem hasPlainTokens_sums : sumDecl.HasPlainTokens sumTable where
  literals := by simp [sumDecl]
  tokenRules := by simp [GrammarDecl.tokenRules, sumDecl]
  keys := by simp [OperatorTable.keys, sumTable]
  names := by decide

/-- Sums and powers are worked through, and what is read as `x + x ^ x + x` is parsed. -/
theorem exists_isParsed_sums : ∃ b journal expr top skip,
    Blueprint.ofSource sums = (.ok b, journal) ∧ sumTable.IsBuilt b expr top skip ∧
      ∀ numbering, ∃ a, fullAutomaton (b.prunedGrammar numbering)
          (FirstTable.ofGrammar (b.prunedGrammar numbering))
          (b.draft.terms.tops ++ (b.skipping numbering).withStates) b.draft.noSkip = .ok a ∧
        a.Determined ∧ ∃ start, (a.state start).start = some top ∧
          sumTable.IsParsed b.draft expr skip (b.prunedGrammar numbering) a start
            [plus, power, plus] := by
  obtain ⟨hexists, hparses⟩ := GrammarDecl.Declares.parses parse_sums declares_sums
  obtain ⟨b, journal, h⟩ := hexists hasPlainTokens_sums
  obtain ⟨expr, top, skip, hb, hall⟩ := hparses b journal h
  refine ⟨b, journal, expr, top, skip, h, hb, fun numbering => ?_⟩
  obtain ⟨a, ha, hdetermined, ⟨start, hstart⟩, hparsed⟩ := hall numbering
  exact ⟨a, ha, hdetermined, start, hstart, hparsed start hstart _⟩

-- The tree for it is a power of two sums, and that for `x ^ x ^ x` leans to the right.
example : (OperatorTree.apply (.apply .operand plus .operand) power
    (.apply .operand plus .operand)).IsByPrecedence sumTable.holds := by
  decide +kernel

example : (OperatorTree.apply .operand power
    (.apply .operand power .operand)).IsByPrecedence sumTable.holds := by
  decide +kernel

end GrammarCompiler
