/-
GrammarCompiler.Proofs.Fitting — the numbers of a tokenizer fit into 16 bits.

Tokens read code units, so no edge of their automaton begins above the last one.
The sets in a grammar text hold code points, and those are read as code units too.
Numbers of symbols are small, there are as many groups as bits at most, and no
place is larger than the list of numbers is long, which is looked at. So each
number can be stored in 16 bits.

  §1 Edges   — automata that read code units.
  §2 Tokens  — building tokens adds no other edges.
  §3 Subsets — automata without choices read the same code units.
  §4 Numbers — the numbers in records.
  §5 Builds  — the numbers that a build ends with.
-/
import GrammarCompiler.Proofs.Classifying
import GrammarCompiler.Proofs.Masking

namespace GrammarCompiler

open Text (surrogates units unitsOf)

/-! ## §1 Edges -/

namespace Nfa

variable {a b : Nfa}

/-- No edge goes beyond the last code unit. -/
def ReadsUnits (a : Nfa) : Prop :=
  ∀ i, ∀ e ∈ (a.state i).edges, e.hi ≤ 0x10000

theorem ReadsUnits.ite {p : Prop} {_ : Decidable p} (ha : a.ReadsUnits) (hb : b.ReadsUnits) :
    (if p then a else b).ReadsUnits := by
  split
  · exact ha
  · exact hb

theorem surrogates_lt {code : Nat} (h : code < CharSet.codePoints) :
    (surrogates code).1 < 0xdc00 ∧ (surrogates code).2 < 0xe000 := by
  simp only [CharSet.codePoints] at h
  simp only [surrogates]
  omega

namespace ReadsUnits

variable (h : a.ReadsUnits) (s t : Nat)
include h

theorem addState : a.addState.2.ReadsUnits := by
  simpa [ReadsUnits] using h

theorem addAccepting (token : Term) : (a.addAccepting token).2.ReadsUnits := by
  simpa [ReadsUnits] using h

theorem addEmpty : (a.addEmpty s t).ReadsUnits := by
  simpa [ReadsUnits] using h

theorem addEdge (lo : Nat) {hi : Nat} (hhi : hi ≤ 0x10000) : (a.addEdge s lo hi t).ReadsUnits := by
  intro i e he
  rcases mem_edges_addEdge.mp he with he | ⟨-, rfl⟩
  · exact h i e he
  · exact hhi

theorem addPair {highLo highHi lowLo lowHi : Nat} (hhigh : highHi ≤ 0x10000)
    (hlow : lowHi ≤ 0x10000) : (a.addPair s t highLo highHi lowLo lowHi).ReadsUnits :=
  (h.addState.addEdge s _ _ hhigh).addEdge _ t _ hlow

theorem addBasicRange (lo hi : Nat) : (a.addBasicRange s t lo hi).ReadsUnits := by
  have hlow : (if lo < 0xd800 then a.addEdge s lo (min hi 0xd800) t else a).ReadsUnits :=
    .ite (h.addEdge s t lo (by omega)) h
  exact .ite (hlow.addEdge s t _ (by omega)) hlow

theorem addAstralRange {lo hi : Nat} (hlo : lo < CharSet.codePoints)
    (hhi : hi ≤ CharSet.codePoints) : (a.addAstralRange s t lo hi).ReadsUnits := by
  have hfirst := surrogates_lt hlo
  have hlast : (surrogates (hi - 1)).1 < 0xdc00 ∧ (surrogates (hi - 1)).2 < 0xe000 :=
    surrogates_lt (by simp only [CharSet.codePoints] at hhi ⊢; omega)
  have hpair {b : Nfa} (hb : b.ReadsUnits) {p : Prop} {_ : Decidable p}
      {highLo highHi lowLo lowHi : Nat} (hhigh : highHi ≤ 0x10000) (hlow : lowHi ≤ 0x10000) :
      (if p then b.addPair s t highLo highHi lowLo lowHi else b).ReadsUnits :=
    .ite (hb.addPair s t hhigh hlow) hb
  have hcut (high : Nat) {cuts : Bool} (hhigh : high < 0xdc00) :
      (if cuts then high - 1 else high) + 1 ≤ 0x10000 := by
    split <;> omega
  unfold Nfa.addAstralRange
  dsimp only
  refine .ite (h.addPair s t ?_ ?_) (hpair (hpair (hpair h ?_ ?_) ?_ ?_) (hcut _ hlast.1) ?_)
  all_goals omega

theorem addRange {lo hi : Nat} (hlt : lo < hi) (hhi : hi ≤ CharSet.codePoints) :
    (a.addRange s t lo hi).ReadsUnits := by
  have hbasic : (if lo < 0x10000 then a.addBasicRange s t lo hi else a).ReadsUnits :=
    .ite (h.addBasicRange s t lo hi) h
  have hlo : max lo 0x10000 < CharSet.codePoints := by
    simp only [CharSet.codePoints] at hhi ⊢
    omega
  exact .ite hbasic (hbasic.addAstralRange s t hlo hhi)

theorem addAny : (a.addAny s t).ReadsUnits := by
  refine (((h.addState.addEdge s t 0 ?_).addEdge s t 0xdc00 ?_).addEdge s _ 0xd800 ?_).addEdge _ t
    0xdc00 ?_
  all_goals decide

end ReadsUnits

end Nfa

/-! ## §2 Tokens -/

theorem lt_of_mem_units {text : List Char} {unit : Nat} (h : unit ∈ units text) :
    unit < 0x10000 := by
  obtain ⟨c, -, hunit⟩ := List.mem_flatMap.mp h
  have hcode : c.toNat < CharSet.codePoints := by
    have := Nfa.exists_char_iff.mp ⟨c, rfl⟩
    simp only [CharSet.codePoints]
    omega
  have hpair := Nfa.surrogates_lt hcode
  rw [unitsOf] at hunit
  split at hunit
  next hbasic => exact List.mem_singleton.mp hunit ▸ hbasic
  next =>
    simp only [List.mem_cons, List.not_mem_nil, or_false] at hunit
    omega

namespace TokenBuild

open Nfa (ReadsUnits)

variable {rules : List RuleDecl}

theorem preserves_addState {α : Type} {f : Nat → Action α}
    (hf : ∀ state, Preserves ReadsUnits (f state)) : Preserves ReadsUnits (newState >>= f) := by
  refine Preserves.bind (fun p x p' hrun h => ?_) hf
  rw [(newState_ok hrun).2]
  exact h.addState

theorem preserves_addEmpty (s t : Nat) :
    Preserves ReadsUnits (change fun a => a.addEmpty s t) :=
  .change fun _ h => h.addEmpty s t

theorem preserves_chain {α : Type} {build : α → Nat → Nat → Action Unit} {l : List α}
    (hbuild : ∀ x ∈ l, ∀ s t, Preserves ReadsUnits (build x s t)) (s t : Nat) :
    Preserves ReadsUnits (chain build l s t) := by
  induction l generalizing s with
  | nil => exact .pure _
  | cons x l ih =>
    obtain ⟨hx, hl⟩ := List.forall_mem_cons.mp hbuild
    cases l with
    | nil => exact hx s t
    | cons y l => exact preserves_addState fun next => (hx s next).bind fun _ => ih hl next

theorem preserves_addLiteral (value : String) (s t : Nat) :
    Preserves ReadsUnits (addLiteral value s t) := by
  unfold addLiteral
  split
  · exact preserves_addEmpty s t
  · exact preserves_chain (fun unit hunit s t => .change fun _ h =>
      h.addEdge s t unit (lt_of_mem_units hunit)) s t

theorem preserves_addRanges {ranges : List CodeRange} (h : ∀ r ∈ ranges, CharSet.IsProper r)
    (s t : Nat) : Preserves ReadsUnits (addRanges ranges s t) :=
  .forM fun r hr => .change fun _ ha => ha.addRange s t (h r hr).1 (h r hr).2

theorem preserves_addRule {again : List OpenRule → List Binding → Expr → Nat → Nat → Action Unit}
    {scope : List Binding} {rule : RuleDecl} {args : List Expr}
    (hagain : ∀ building s t,
      Preserves ReadsUnits (again building (bound rule args scope) rule.body s t))
    (building : List OpenRule) (start s t : Nat) :
    Preserves ReadsUnits (addRule again building scope rule start args s t) := by
  unfold addRule
  dsimp only
  split
  · exact .fail_bind _ _ _
  split
  · split
    · exact preserves_addEmpty _ _
    · exact .fail _ _
  · exact (Preserves.use _).bind fun _ => preserves_addState fun entry =>
      (preserves_addEmpty s entry).bind fun _ => hagain _ entry t

section

variable {pool : List Expr} (hpool : IsPool rules pool) (hsets : ∀ e ∈ pool, e.IsCanonical)
include hpool hsets

/-- Where an expression is built, sets hold code points, and so all edges are on code units. -/
theorem preserves_addExpr (fuel : Nat) {depth : Nat} {opened : List Reference}
    {scope : List Binding} {e : Expr}
    (hwritten : (⟨opened, scope, e⟩ : Place).IsWritten pool depth) (building : List OpenRule)
    (s t : Nat) : Preserves ReadsUnits (addExpr rules fuel building scope e s t) := by
  induction fuel generalizing depth opened scope e building s t with
  | zero => exact .fail _ _
  | succ fuel ih =>
    have hpart {part : Expr} (h : part ∈ parts e) (s t : Nat) :
        Preserves ReadsUnits (addExpr rules fuel building scope part s t) :=
      ih (hwritten.of_part hpool h) building s t
    cases e with
    | name start name args =>
      rw [addExpr]
      split
      next hfound =>
        obtain ⟨outer, rfl, hargument⟩ := hwritten.of_argument hfound
        split
        · exact ih hargument building s t
        · exact .fail _ _
      next =>
        split
        next hrule =>
          have hbody := hwritten.of_reference hpool (List.mem_of_find?_eq_some hrule)
          exact preserves_addRule (fun building s t => ih hbody building s t) building start s t
        next => exact .fail _ _
    | charClass start cls =>
      rw [addExpr]
      split
      · exact .fail _ _
      · exact preserves_addRanges (isProper_charClass cls) s t
    | choice start alternatives =>
      rw [addExpr]
      exact .forM fun e he => hpart he s t
    | sequence start elements markers =>
      rw [addExpr]
      split
      · exact .fail _ _
      · split
        · exact preserves_addEmpty s t
        · exact preserves_chain (fun e he => hpart he) s t
    | repeated start body kind =>
      have hbody := hpart (List.mem_singleton_self body)
      cases kind with
      | star =>
        rw [addExpr]
        exact preserves_addState fun loop => (preserves_addEmpty s loop).bind fun _ =>
          (hbody loop loop).bind fun _ => preserves_addEmpty loop t
      | plus =>
        rw [addExpr]
        exact preserves_addState fun loop => (hbody s loop).bind fun _ =>
          (hbody loop loop).bind fun _ => preserves_addEmpty loop t
      | optional =>
        rw [addExpr]
        exact (preserves_addEmpty s t).bind fun _ => hbody s t
    | set start ranges inverted =>
      rw [addExpr]
      cases hsets _ hwritten.expr with
      | set _ _ hcanonical =>
        refine preserves_addRanges ?_ s t
        split
        · exact (CharSet.isCanonical_complement hcanonical).proper
        · exact hcanonical.proper
    | literal start value =>
      rw [addExpr]
      exact preserves_addLiteral value s t
    | any start =>
      rw [addExpr]
      exact .change fun _ h => h.addAny s t
    | specialize start kind token content props =>
      rw [addExpr]
      exact .fail _ _
    | inlineRule start props body =>
      rw [addExpr]
      exact .fail _ _

end

theorem preserves_reference {args : List Expr} (hargs : ∀ a ∈ args, a.IsReadable)
    (hbodies : ∀ rule ∈ rules, rule.body.IsReadable) {rule : RuleDecl} (hrule : rule ∈ rules)
    (fuel start s t : Nat) :
    Preserves ReadsUnits (addRule (addExpr rules fuel) [] [] rule start args s t) := by
  have hsets : ∀ e ∈ nestedAll args, e.IsCanonical := by
    rw [nestedAll_eq]
    intro e he
    obtain ⟨arg, harg, he⟩ := List.mem_flatMap.mp he
    exact (isReadable_of_mem_nested (hargs arg harg) e he).isCanonical
  have hpool := isPool_written rules (.name start rule.id.name args)
  have hwritten : (⟨[], [], .name start rule.id.name args⟩ : Place).IsWritten
      (written rules (.name start rule.id.name args)) 0 :=
    ⟨mem_nestedAll_of_mem List.mem_cons_self, rfl⟩
  exact preserves_addRule (fun building s t => preserves_addExpr hpool
    (isCanonical_of_mem_written hsets hbodies start) fuel (hwritten.of_reference hpool hrule)
    building s t) [] start s t

end TokenBuild

/-- If tokens read code units, they do afterwards. -/
def Draft.KeepsUnits (d d' : Draft) : Prop :=
  d.tokens.ReadsUnits → d'.tokens.ReadsUnits

instance : IsPreorder Draft Draft.KeepsUnits where
  refl _ := id
  trans _ _ _ h h' := h' ∘ h

theorem Draft.MakesToken.keepsUnits {d d' : Draft} {action : Nat → TokenBuild.Action Unit}
    {key : TokenKey} {t : Term} (h : d.MakesToken action key t d')
    (haction : ∀ target, TokenBuild.Preserves Nfa.ReadsUnits (action target)) :
    d.KeepsUnits d' := by
  intro hd
  obtain ⟨used, hrun⟩ := h.builds
  exact haction _ hrun (hd.addAccepting t)

/-- The tokens of a grammar text read code units all along. -/
theorem Build.tracks_keepsUnits {ctx : Declared}
    (hbodies : ∀ r ∈ ctx.decl.tokenRules, r.body.IsReadable) : Tracks ctx Draft.KeepsUnits where
  spares hspares hd := hspares.tokens_eq ▸ hd
  token start name args hargs d a d' h := by
    rcases yields_token?_makes start name args a d' h with rfl | ⟨rule, t, hrule, hmakes⟩
    · exact id
    · exact hmakes.keepsUnits fun target => TokenBuild.preserves_reference hargs hbodies
        (List.mem_of_find?_eq_some hrule) _ start _ target
  literal value d a d' h := by
    rcases yields_literalToken_makes value a d' h with rfl | ⟨t, hmakes⟩
    · exact id
    · exact hmakes.keepsUnits fun target => TokenBuild.preserves_addLiteral value _ target

theorem Blueprint.readsUnits_of_ofSource {source : Text.Source} {b : Blueprint} {journal : Journal}
    (h : ofSource source = (.ok b, journal)) : b.draft.tokens.ReadsUnits := by
  refine along_of_ofSource h (fun hdecl => Build.tracks_keepsUnits hdecl.tokens) fun i e he => ?_
  have hstate : ({} : Draft).tokens.state i = {} := by
    cases i <;> rfl
  rw [hstate] at he
  cases he

/-! ## §3 Subsets -/

namespace Dfa

/-- No edge begins beyond the last code unit. -/
def ReadsUnits (a : Dfa) : Prop :=
  ∀ i, ∀ e ∈ (a.state i).edges, e.lo < 0x10000

/-- Where an automaton without choices reads a code unit, the one with choices does, too. -/
theorem readsUnits_of_compile {nfa : Nfa} {start : Nat} {terms : TermTable} {a : Dfa}
    (hnfa : nfa.ReadsUnits) (h : nfa.compile start terms = .ok a) : a.ReadsUnits := by
  obtain ⟨f, hexplore, hf, hdone, -⟩ := nfa.exists_found start
  rw [nfa.compile_eq start terms hexplore] at h
  split at h
  next =>
    cases h
    intro i e he
    by_cases hi : i < f.sets.size
    · obtain ⟨edges, hstate, hfits⟩ := hdone.state_eq (Array.getElem?_eq_getElem hi)
      rw [hstate] at he
      obtain ⟨span, hspan, hlo, -⟩ := exists_of_mem_forall₂ hfits.flip he
      obtain ⟨hascending, hcovers⟩ := Subset.spans_spec nfa.closure (Subset.edgesOf nfa f.sets[i])
      have hfull := hascending.nonempty span hspan
      obtain ⟨heq, hne⟩ :=
        (hcovers span.lo span.targets).mp ⟨span, hspan, Nat.le_refl _, hfull, rfl⟩
      obtain ⟨x, hx⟩ := List.exists_mem_of_ne_nil _ hne
      obtain ⟨e', he', -, hhi, -⟩ := Subset.mem_targetsAt.mp (heq ▸ hx)
      obtain ⟨q, -, he'⟩ := List.mem_flatMap.mp he'
      have := hnfa q e' he'
      omega
    · rw [state_of_size_le (by rw [Subset.Found.size_toDfa hf]; omega)] at he
      cases he
  next => cases h

theorem ReadsUnits.minimize {a : Dfa} (h : a.ReadsUnits) : a.minimize.ReadsUnits := by
  intro k e he
  cases hp : a.leaders[k]? with
  | none =>
    rw [state_of_size_le (size_minimize ▸ List.getElem?_eq_none_iff.mp hp)] at he
    cases he
  | some p =>
    rw [edges_minimize hp] at he
    obtain ⟨e', he', hlo, -⟩ := Minimize.exists_of_mem_joined he
    obtain ⟨e₀, he₀, rfl⟩ := List.mem_map.mp he'
    exact hlo ▸ h p e₀ he₀

end Dfa

/-! ## §4 Numbers -/

namespace Layout

variable {a : Dfa} {ids : Term → Nat} {masks : Nat → Nat} {precedence : List Nat}

theorem maskOf_le (h : ∀ id, masks id ≤ 0xffff) (id : Nat) : maskOf masks id ≤ 0xffff := by
  rw [maskOf]
  split
  · exact Nat.le_refl _
  · exact h id

/-- There are no groups in a state but those of tokens. -/
theorem stateMask_le (h : ∀ id, masks id ≤ 0xffff) (i : Nat) :
    stateMask a ids masks i ≤ 0xffff := by
  have hlt : stateMask a ids masks i < 2 ^ 16 := by
    refine Nat.lt_pow_two_of_testBit _ fun k hk => Bool.eq_false_iff.mpr fun hbit => ?_
    obtain ⟨_, _, t, _, hbit⟩ := testBit_stateMask.mp hbit
    have hmask : maskOf masks (ids t) < 2 ^ k :=
      Nat.lt_of_lt_of_le (Nat.lt_succ_of_le (maskOf_le h _)) (Nat.pow_le_pow_right Nat.two_pos hk)
    rw [Nat.testBit_lt_two_pow hmask] at hbit
    cases hbit
  exact Nat.le_of_lt_succ hlt

/-- Each number in a record fits into 16 bits, if places do and the record ends in time. -/
theorem le_of_mem_record {place : Nat → Nat} {start i : Nat} (hedges : a.ReadsUnits)
    (hids : ∀ t, ids t ≤ 0xffff) (hmasks : ∀ id, masks id ≤ 0xffff)
    (hplace : ∀ i, place i ≤ 0xffff) (hend : start + recordSize (a.state i) ≤ 0xffff) :
    ∀ w ∈ record a ids masks precedence place start i, w ≤ 0xffff := by
  rw [recordSize] at hend
  intro w hw
  simp only [record, List.mem_append, List.mem_cons, List.not_mem_nil, or_false,
    List.mem_flatMap] at hw
  rcases hw with ((rfl | rfl | rfl) | ⟨id, hid, rfl | rfl⟩) | ⟨e, he, rfl | rfl | rfl⟩
  · exact stateMask_le hmasks i
  · omega
  · omega
  · obtain ⟨t, _, rfl⟩ := List.mem_map.mp ((perm_ordered ids precedence _).mem_iff.mp hid)
    exact hids t
  · exact maskOf_le hmasks id
  · exact Nat.le_of_lt_succ (hedges i e he)
  · split <;> omega
  · exact hplace e.target

end Layout

open Layout in
/-- All numbers of a tokenizer fit into 16 bits, if its edges are on code units and the numbers
and groups of tokens fit. -/
theorem Dfa.le_of_mem_toWords {a : Dfa} {ids : Term → Nat} {masks : Nat → Nat}
    {precedence words : List Nat} (hedges : a.ReadsUnits) (hids : ∀ t, ids t ≤ 0xffff)
    (hmasks : ∀ id, masks id ≤ 0xffff) (h : a.toWords ids masks precedence = .ok words) :
    ∀ w ∈ words, w ≤ 0xffff := by
  obtain ⟨hwords, hlength⟩ := toWords_ok h
  have hend {p : Nat × Nat} (hp : p ∈ order a) : p.2 + recordSize (a.state p.1) ≤ 0xffff := by
    obtain ⟨-, rest, hdrop⟩ := @drop_records a ids masks precedence (addressOf a) 0 _ _ _ hp
    have hcount := congrArg List.length hdrop
    rw [Nat.sub_zero, List.length_drop, List.length_append, length_record] at hcount
    have hsize : 0 < recordSize (a.state p.1) := by
      rw [recordSize]
      omega
    have htotal := congrArg List.length hwords
    rw [order] at htotal
    omega
  have hplace (i : Nat) : addressOf a i ≤ 0xffff := by
    rcases addressOf_eq_zero_or_mem a i with hzero | hmem
    · rw [hzero]
      exact Nat.zero_le _
    · exact Nat.le_trans (Nat.le_add_right _ _) (hend hmem)
  intro w hw
  rw [hwords] at hw
  obtain ⟨⟨i, start⟩, hp, hw⟩ := List.mem_flatMap.mp hw
  exact le_of_mem_record hedges hids hmasks hplace (hend hp) w hw

/-! ## §5 Builds -/

/-- The groups of a token fit into 16 bits, since there are no more groups than bits. -/
theorem Blueprint.TokenStages.masks_le {b : Blueprint} {words : List Nat} (x : b.TokenStages words)
    (id : Nat) : (TokenGroups.masks x.grammar x.groups.groups)[id]?.getD 0 ≤ 0xffff := by
  have hlt : (TokenGroups.masks x.grammar x.groups.groups)[id]?.getD 0 < 2 ^ 16 := by
    refine Nat.lt_pow_two_of_testBit _ fun k hk => Bool.eq_false_iff.mpr fun hbit => ?_
    obtain ⟨-, t, ht, -⟩ := TokenGroups.testBit_masks.mp hbit
    have hlength := x.length_groups_le
    rw [List.getD_eq_default _ _ (by omega)] at ht
    cases ht
  exact Nat.le_of_lt_succ hlt

/-- Nothing is lost when the numbers of a tokenizer are stored in 16 bits each. -/
theorem compileTables_tokenData_le {source : Text.Source} {tables : ParserTables}
    {journal : Journal} (h : compileTables source = (.ok tables, journal)) :
    ∀ w ∈ tables.tokenData, w ≤ 0xffff := by
  obtain ⟨b, j, hsource, ⟨x⟩⟩ := exists_tokenStages h
  have hedges : x.compiled.minimize.ReadsUnits :=
    (Dfa.readsUnits_of_compile (Blueprint.readsUnits_of_ofSource hsource) x.compiles).minimize
  refine Dfa.le_of_mem_toWords hedges (fun t => ?_) x.masks_le x.written
  have := Numbering.id_lt x.numbered t
  omega

end GrammarCompiler
