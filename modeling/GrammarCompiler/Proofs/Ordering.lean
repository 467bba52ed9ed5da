/-
GrammarCompiler.Proofs.Ordering — when tokens can be brought into an order.

Tokens are placed one by one, so there is an order exactly if no token is put before itself
through others: among tokens that are left over there is a least one, unless they go round
in a circle. What puts tokens before others are the declared lists, and longer matches of
soft overlaps. An overlap of two tokens only counts if no list holds both of them in some
order. Whether an order of the two follows from several lists makes no difference, so an
overlap can contradict the lists.

  §1 Cycles   — relations without a cycle, and orders.
  §2 Grammars — what puts tokens before others in a grammar.
-/
import GrammarCompiler.Proofs.Ranking
import Mathlib.Data.Fintype.Card

namespace GrammarCompiler

open Relation (TransGen)

/-! ## §1 Cycles -/

namespace TokenRank

variable {ranks : List TokenRank} {names : Term → String} {soft : List Overlap}
  {placed order : List Term} {t u : Term}

theorem idxOf_lt_of_sublist {l : List Term} (hl : l.Nodup) (h : [t, u].Sublist l) :
    l.idxOf t < l.idxOf u := by
  induction l with
  | nil => cases h
  | cons x l ih =>
    obtain ⟨hx, hl⟩ := List.nodup_cons.mp hl
    rcases List.cons_sublist_cons'.mp h with hlater | ⟨rfl, hu⟩
    · have ht : t ≠ x := fun heq => hx (heq ▸ hlater.subset (by simp))
      have hu : u ≠ x := fun heq => hx (heq ▸ hlater.subset (by simp))
      rw [List.idxOf_cons_ne _ ht.symm, List.idxOf_cons_ne _ hu.symm]
      exact Nat.succ_lt_succ (ih hl hlater)
    · have hne : t ≠ u := fun heq => hx (heq ▸ List.singleton_sublist.mp hu)
      rw [List.idxOf_cons_self, List.idxOf_cons_ne _ hne]
      exact Nat.succ_pos _

/-- Tokens behind one another in a list without repetition have no cycle. -/
theorem idxOf_lt_of_transGen {before : Term → Term → Prop} (hl : order.Nodup)
    (h : ∀ t u, before t u → [t, u].Sublist order) (htu : TransGen before t u) :
    order.idxOf t < order.idxOf u := by
  induction htu with
  | single htu => exact idxOf_lt_of_sublist hl (h _ _ htu)
  | tail _ huv ih => exact ih.trans (idxOf_lt_of_sublist hl (h _ _ huv))

/-- Among tokens without a cycle there is one that none of them comes before. -/
theorem exists_first {before : Term → Term → Prop} (hacyclic : ∀ t, ¬ TransGen before t t)
    {terms : List Term} (hterms : terms ≠ []) : ∃ t ∈ terms, ∀ u ∈ terms, ¬ before u t := by
  let earlier (t u : {t // t ∈ terms}) : Prop := TransGen before t.1 u.1
  have htrans : IsTrans {t // t ∈ terms} earlier := ⟨fun _ _ _ => TransGen.trans⟩
  have hirrefl : Std.Irrefl earlier := ⟨fun t => hacyclic t.1⟩
  obtain ⟨t, ht⟩ := List.exists_mem_of_ne_nil terms hterms
  obtain ⟨⟨first, hfirst⟩, -, hmin⟩ :=
    (Finite.wellFounded_of_trans_of_irrefl earlier).has_min Set.univ ⟨⟨t, ht⟩, trivial⟩
  exact ⟨first, hfirst, fun u hu hbefore => hmin ⟨u, hu⟩ trivial (.single hbefore)⟩

/-- Placing tokens only fails over tokens each of which has another one of them before it. -/
theorem stuck_of_place {count : Nat} {e : BuildError} (hcount : ranks.length = count)
    (hafter : ∀ r ∈ ranks, ∀ u ∈ r.after, u ∈ placed ∨ u ∈ ranks.map TokenRank.term)
    (h : place names count ranks placed = .error e) :
    ∃ stuck : List TokenRank, stuck ≠ [] ∧ stuck ⊆ ranks ∧
      e = .grammar (.cyclicTokenPrecedence (stuck.map fun r => names r.term)) none ∧
      ∀ r ∈ stuck, ∃ u ∈ r.after, u ∈ stuck.map TokenRank.term := by
  induction count generalizing ranks placed with
  | zero => cases h
  | succ count ih =>
    rw [place] at h
    split at h
    next i hi =>
      obtain ⟨hlt, -, -⟩ := List.findIdx?_eq_some_iff_getElem.mp hi
      have hget : ranks[i]? = some ranks[i] := List.getElem?_eq_getElem hlt
      generalize ranks[i] = r at hget
      have hperm := perm_takeOut hget
      simp only [hget, Option.map_some, Option.getD_some] at h
      obtain ⟨stuck, hne, hsub, he, hstuck⟩ := ih (by
        have := hperm.length_eq
        rw [List.length_cons] at this
        omega) (fun r' hr' u hu => by
          have hwhere := hafter r' (hperm.mem_iff.mpr (List.mem_cons_of_mem _ hr')) u hu
          rw [Term.mem_addNew, or_assoc]
          rwa [(hperm.map _).mem_iff, List.map_cons, List.mem_cons] at hwhere) h
      refine ⟨stuck, hne, fun r' hr' => ?_, he, hstuck⟩
      exact hperm.mem_iff.mpr (List.mem_cons_of_mem _ (hsub hr'))
    next hnone =>
      cases h
      refine ⟨ranks, ?_, List.Subset.refl _, rfl, fun r hr => ?_⟩
      · rintro rfl
        cases hcount
      · have hwaits := List.findIdx?_eq_none_iff.mp hnone r hr
        obtain ⟨u, hu, hnew⟩ := List.all_eq_false.mp hwaits
        exact ⟨u, hu, (hafter r hr u hu).resolve_left (by simpa using hnew)⟩

section

variable (hclosed : ∀ t u, precedes ranks t u = true → t ∈ ranks.map TokenRank.term)
include hclosed

/-- The order fails over tokens each of which has another one of them before it. -/
theorem stuck_of_order {e : BuildError} (h : TokenRank.order names ranks soft = .error e) :
    ∃ stuck : List Term, stuck ≠ [] ∧
      e = .grammar (.cyclicTokenPrecedence (stuck.map names)) none ∧
      ∀ u ∈ stuck, ∃ t ∈ stuck, precedes (soft.foldl addOverlap ranks) t u = true := by
  have hafter : ∀ r ∈ soft.foldl addOverlap ranks, ∀ t ∈ r.after,
      t ∈ ([] : List Term) ∨ t ∈ (soft.foldl addOverlap ranks).map TokenRank.term := by
    intro r hr t ht
    rw [terms_foldl_addOverlap]
    rcases precedes_foldl_addOverlap.mp (precedes_iff.mpr ⟨r, hr, rfl, ht⟩) with
      hbefore | ⟨o, _, ⟨hfirst, hsecond⟩, rfl, _⟩
    · exact .inr (hclosed _ _ hbefore)
    · refine .inr ?_
      rw [Overlap.longer]
      split
      · exact hsecond
      · exact hfirst
  obtain ⟨stuck, hne, hsub, he, hstuck⟩ := stuck_of_place rfl hafter h
  refine ⟨stuck.map TokenRank.term, by simpa using hne, by rw [he, List.map_map]; rfl, ?_⟩
  intro u hu
  obtain ⟨r, hr, rfl⟩ := List.mem_map.mp hu
  obtain ⟨t, ht, hleft⟩ := hstuck r hr
  exact ⟨t, hleft, precedes_iff.mpr ⟨r, hsub hr, rfl, ht⟩⟩

/-- There is an order exactly if the relations have no cycle. -/
theorem exists_order_iff (hnodup : (ranks.map TokenRank.term).Nodup) :
    (∃ order, TokenRank.order names ranks soft = .ok order) ↔
      ∀ t, ¬ TransGen (fun t u => precedes (soft.foldl addOverlap ranks) t u = true) t t := by
  constructor
  · rintro ⟨order, h⟩ t ht
    obtain ⟨hperm, hbefore⟩ := order_sublist hnodup h
    exact Nat.lt_irrefl _ (idxOf_lt_of_transGen (hperm.nodup_iff.mpr hnodup) hbefore ht)
  · intro hacyclic
    cases h : TokenRank.order names ranks soft with
    | ok order => exact ⟨order, rfl⟩
    | error e =>
      obtain ⟨stuck, hne, -, hstuck⟩ := stuck_of_order hclosed h
      obtain ⟨u, hu, hfirst⟩ := exists_first hacyclic hne
      obtain ⟨t, ht, hbefore⟩ := hstuck u hu
      exact absurd hbefore (hfirst t ht)

end

end TokenRank

/-! ## §2 Grammars -/

namespace TokenGroups

variable {g : Grammar} {origins : TokenOrigins} {skips : Skipping} {ranks : List TokenRank}
  {declared : List (Term × Term)} {dfa : Dfa} {full : Automaton} {groups : TokenGroups}
  {overlaps : List Overlap}

/-- An overlap without a declared order stays, whatever conflicts are declared. -/
theorem mem_conflicts_of_mem {o : Overlap} (ho : o ∈ overlaps)
    (hunsettled : isUnsettled ranks o = true) : o ∈ conflicts ranks declared overlaps := by
  rw [conflicts_eq]
  exact List.foldlRecOn declared addDeclared (List.mem_filter.mpr ⟨ho, hunsettled⟩)
    fun _ hmem p _ => mem_addDeclared p hmem

/-- The overlaps that are left to precedence are the soft ones without a declared order. -/
theorem mem_soft_iff (h : ofAutomaton g origins skips ranks declared dfa full = .ok groups)
    {o : Overlap} : o ∈ groups.soft ↔
      (o ∈ dfa.overlaps g.id (together (usage skips g.terms.size full)) ∧
        isUnsettled ranks o = true) ∧ o.soft ≠ 0 := by
  have hsoft : groups.soft = (conflicts ranks declared (dfa.overlaps g.id
      (together (usage skips g.terms.size full)))).filter fun o => o.soft != 0 := by
    obtain ⟨p, -, h⟩ := exists_ok_of_bind h
    dsimp only at h
    split at h
    next => cases h
    next =>
      split at h
      next => cases h
      next =>
        cases h
        exact congrArg Prod.fst List.partition_eq_filter_filter
  rw [hsoft, List.mem_filter, bne_iff_ne]
  refine and_congr_left fun hne => ⟨fun ho => ?_, fun ⟨ho, hunsettled⟩ => ?_⟩
  · exact (mem_or_of_mem_conflicts ho).resolve_right fun hdeclared => hne hdeclared.1
  · exact mem_conflicts_of_mem ho hunsettled

end TokenGroups

namespace Blueprint

variable {source : Text.Source} {b : Blueprint} {journal : Journal} {t u : Term}
  {overlaps : List Overlap}

/-- One of the lists that are declared puts a token before another. -/
def Puts (b : Blueprint) (t u : Term) : Prop :=
  ∃ decl ∈ b.decl.tokenPrecedences, ∃ x y, [x, y].Sublist decl.items ∧
    t ∈ Build.rankedTokens b.draft x ∧ u ∈ Build.rankedTokens b.draft y

/-- What puts a token before another: a list, or a soft overlap of tokens of the lists with the
first token for the longer match, unless a list holds both of them. -/
def Precedes (b : Blueprint) (overlaps : List Overlap) (t u : Term) : Prop :=
  b.Puts t u ∨ ∃ o ∈ overlaps, o.soft ≠ 0 ∧ (b.IsRanked o.first ∧ b.IsRanked o.second) ∧
    (¬ b.Puts o.first o.second ∧ ¬ b.Puts o.second o.first) ∧ t = o.longer ∧ u = o.shorter

theorem Puts.isRanked (h : b.Puts t u) : b.IsRanked t := by
  obtain ⟨decl, hdecl, x, y, hxy, ht, -⟩ := h
  exact ⟨decl, hdecl, x, hxy.subset List.mem_cons_self, ht⟩

section

variable (h : ofSource source = (.ok b, journal))
include h

theorem precedes_ranks_iff : TokenRank.precedes b.ranks t u = true ↔ b.Puts t u := by
  rw [ranks_eq h, Draft.precedes_foldl_rankList]
  simp [TokenRank.precedes, Puts]

theorem isUnsettled_iff {o : Overlap} : TokenGroups.isUnsettled b.ranks o = true ↔
    ¬ b.Puts o.first o.second ∧ ¬ b.Puts o.second o.first := by
  rw [← precedes_ranks_iff h, ← precedes_ranks_iff h, TokenGroups.isUnsettled]
  simp [and_comm]

variable {g : Grammar} {skips : Skipping} {dfa : Dfa} {full : Automaton} {groups : TokenGroups}
  (hgroups : TokenGroups.ofAutomaton g b.draft.origins skips b.ranks b.conflicts dfa full =
    .ok groups)
include hgroups

theorem precedes_foldl_iff :
    TokenRank.precedes (groups.soft.foldl TokenRank.addOverlap b.ranks) t u = true ↔
      b.Precedes (dfa.overlaps g.id
        (TokenGroups.together (TokenGroups.usage skips g.terms.size full))) t u := by
  rw [TokenRank.precedes_foldl_addOverlap, precedes_ranks_iff h, Precedes]
  simp only [TokenGroups.mem_soft_iff hgroups, mem_ranks h, isUnsettled_iff h]
  refine or_congr_right (exists_congr fun o => ?_)
  tauto

/-- The tokens of a grammar can be brought into an order exactly if none of them is put before
itself, be it by lists or by longer matches. If so, the order follows the lists and the longer
matches, also through several of them. If not, the tokens of the message have one another before
them. -/
theorem exists_tokenOrder_iff (names : Term → String) :
    let Before := b.Precedes (dfa.overlaps g.id
      (TokenGroups.together (TokenGroups.usage skips g.terms.size full)))
    ((∃ order, TokenRank.order names b.ranks groups.soft = .ok order) ↔ ∀ t, ¬ TransGen Before t t) ∧
      (∀ order, TokenRank.order names b.ranks groups.soft = .ok order →
        ∀ t u, TransGen Before t u → order.idxOf t < order.idxOf u) ∧
      ∀ e, TokenRank.order names b.ranks groups.soft = .error e →
        ∃ stuck : List Term, stuck ≠ [] ∧
          e = .grammar (.cyclicTokenPrecedence (stuck.map names)) none ∧
          ∀ u ∈ stuck, ∃ t ∈ stuck, Before t u := by
  have hclosed (t u : Term) (hbefore : TokenRank.precedes b.ranks t u = true) :
      t ∈ b.ranks.map TokenRank.term :=
    (mem_ranks h).mpr ((precedes_ranks_iff h).mp hbefore).isRanked
  have heq : (fun t u => TokenRank.precedes (groups.soft.foldl TokenRank.addOverlap b.ranks) t u =
      true) = b.Precedes _ :=
    funext fun t => funext fun u => propext (precedes_foldl_iff h hgroups)
  refine ⟨?_, fun order horder t u htu => ?_, fun e he => ?_⟩
  · rw [← heq]
    exact TokenRank.exists_order_iff hclosed (nodup_ranks h)
  · obtain ⟨hperm, hbefore⟩ := TokenRank.order_sublist (nodup_ranks h) horder
    refine TokenRank.idxOf_lt_of_transGen (hperm.nodup_iff.mpr (nodup_ranks h)) (fun t u htu => ?_) htu
    exact hbefore t u ((precedes_foldl_iff h hgroups).mpr htu)
  · obtain ⟨stuck, hne, he, hstuck⟩ := TokenRank.stuck_of_order hclosed he
    refine ⟨stuck, hne, he, fun u hu => ?_⟩
    obtain ⟨t, ht, hbefore⟩ := hstuck u hu
    exact ⟨t, ht, (precedes_foldl_iff h hgroups).mp hbefore⟩

end

end Blueprint

/-- Three tokens, the first of which is a prefix of the last, which can be skipped. -/
def prefixToken (lists : String) : Text.Source :=
  ⟨"", "@top T \x7b \"x\" \"y\" \x7d @skip \x7b \"xz\" \x7d " ++
    "@tokens \x7b \"x\" \"y\" \"xz\" " ++ lists ++ " \x7d"⟩

/-- One list of all three tokens. -/
def oneList : Text.Source :=
  prefixToken "@precedence \x7b \"x\", \"y\", \"xz\" \x7d"

/-- Two lists, neither of which holds both the first and the last token. -/
def twoLists : Text.Source :=
  prefixToken "@precedence \x7b \"x\", \"y\" \x7d @precedence \x7b \"y\", \"xz\" \x7d"

/-- A list of all three tokens puts the prefix first, though the last one is the longer match. -/
theorem exists_tokenOrder_of_oneList : ∃ b journal g skips dfa full groups order,
    Blueprint.ofSource oneList = (.ok b, journal) ∧
    TokenGroups.ofAutomaton g b.draft.origins skips b.ranks b.conflicts dfa full = .ok groups ∧
    TokenRank.order g.name b.ranks groups.soft = .ok order ∧
    order.map g.name = ["\"x\"", "\"y\"", "\"xz\""] ∧
    ∀ t, ¬ TransGen (b.Precedes (dfa.overlaps g.id
      (TokenGroups.together (TokenGroups.usage skips g.terms.size full)))) t t := by
  have hcheck : (do
      let b ← (Blueprint.ofSource oneList).1
      let numbering ← Numbering.ofRules b.draft.terms b.simplified
      let g := b.prunedGrammar numbering
      let full ← fullAutomaton g (FirstTable.ofGrammar g)
        (b.draft.terms.tops ++ (b.skipping numbering).withStates) b.draft.noSkip
      let compiled ← b.draft.tokens.compile Draft.tokenStart b.draft.terms
      let groups ← TokenGroups.ofAutomaton g b.draft.origins (b.skipping numbering) b.ranks
        b.conflicts compiled.minimize full
      let order ← TokenRank.order g.name b.ranks groups.soft
      return order.map g.name : Except BuildError (List String)).toOption.any
        (fun names => names == ["\"x\"", "\"y\"", "\"xz\""]) = true := by
    decide +kernel
  obtain ⟨_, hrun, hnames⟩ := exists_ok_of_any hcheck
  obtain ⟨b, hb, hrun⟩ := exists_ok_of_bind hrun
  obtain ⟨numbering, -, hrun⟩ := exists_ok_of_bind hrun
  obtain ⟨full, -, hrun⟩ := exists_ok_of_bind hrun
  obtain ⟨compiled, -, hrun⟩ := exists_ok_of_bind hrun
  obtain ⟨groups, hgroups, hrun⟩ := exists_ok_of_bind hrun
  obtain ⟨order, horder, hrun⟩ := exists_ok_of_bind hrun
  cases hrun
  obtain ⟨journal, hsource⟩ := Blueprint.exists_ofSource_eq hb
  exact ⟨b, journal, _, _, _, full, groups, order, hsource, hgroups, horder, beq_iff_eq.mp hnames,
    (Blueprint.exists_tokenOrder_iff hsource hgroups _).1.mp ⟨order, horder⟩⟩

theorem exists_of_fails_compileTables (source : Text.Source) (e : BuildError)
    (h : (match (compileTables source).1 with
      | .ok _ => false
      | .error e' => e' == e) = true) :
    ∃ journal, compileTables source = (.error e, journal) := by
  rcases hsource : compileTables source with ⟨e' | t, journal⟩
  · rw [hsource] at h
    exact ⟨journal, by rw [beq_iff_eq.mp h]⟩
  · rw [hsource] at h
    cases h

/-- Two lists put the prefix before the last token as well, but none of them holds both. So the
longer match is put before the prefix, and the build fails. -/
theorem no_tokenOrder_of_twoLists : ∃ b journal, Blueprint.ofSource twoLists = (.ok b, journal) ∧
    (∀ t, ¬ TransGen b.Puts t t) ∧
    (∃ t u, b.draft.terms.name t = "\"x\"" ∧ b.draft.terms.name u = "\"xz\"" ∧
      TransGen b.Puts t u) ∧
    ∃ journal', compileTables twoLists = (.error (.grammar (.cyclicTokenPrecedence
      ["\"x\"", "\"y\"", "\"xz\""]) none), journal') := by
  have hfails := exists_of_fails_compileTables twoLists (.grammar
    (.cyclicTokenPrecedence ["\"x\"", "\"y\"", "\"xz\""]) none) (by decide +kernel)
  have hcheck : (Blueprint.ofSource twoLists).1.toOption.any (fun b => decide (
      (b.draft.terms.name ⟨6⟩ = "\"x\"" ∧ b.draft.terms.name ⟨4⟩ = "\"xz\"") ∧
        (TokenRank.precedes b.ranks ⟨6⟩ ⟨7⟩ = true ∧ TokenRank.precedes b.ranks ⟨7⟩ ⟨4⟩ = true) ∧
        ∀ r ∈ b.ranks, ∀ t ∈ r.after, [t, r.term].Sublist [⟨6⟩, ⟨7⟩, ⟨4⟩])) = true := by
    decide +kernel
  obtain ⟨b, journal, h, hcheck⟩ := exists_ok_fst_of_any hcheck
  obtain ⟨⟨hx, hxz⟩, ⟨hfirst, hsecond⟩, hranks⟩ := of_decide_eq_true hcheck
  have hinOrder (t u : Term) (htu : b.Puts t u) : [t, u].Sublist [⟨6⟩, ⟨7⟩, ⟨4⟩] := by
    obtain ⟨r, hr, rfl, ht⟩ := TokenRank.precedes_iff.mp ((Blueprint.precedes_ranks_iff h).mpr htu)
    exact hranks r hr t ht
  refine ⟨b, journal, h, fun t ht => ?_, ⟨⟨6⟩, ⟨4⟩, hx, hxz, ?_⟩, hfails⟩
  · exact Nat.lt_irrefl _ (TokenRank.idxOf_lt_of_transGen (by decide) hinOrder ht)
  · exact .tail (.single ((Blueprint.precedes_ranks_iff h).mp hfirst))
      ((Blueprint.precedes_ranks_iff h).mp hsecond)

end GrammarCompiler
