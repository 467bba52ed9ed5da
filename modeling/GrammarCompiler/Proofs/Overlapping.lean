/-
GrammarCompiler.Proofs.Overlapping — which tokens can conflict.

Conflicts are between tokens that the main tokenizer reads, never with those of
external tokenizers: overlaps are found in states where tokens end, and those that are
declared are between tokens that rules refer to. So the groups of a grammar keep each
state clear of all opponents of what can be read there.

  §1 Overlaps  — they are between tokens that end in some state.
  §2 Drafts    — the tokens of a draft, and those of external tokenizers.
  §3 Conflicts — declared ones.
  §4 Grammars  — the groups of a grammar text.
-/
import GrammarCompiler.Proofs.Grouping
import GrammarCompiler.Proofs.Lexing
import GrammarCompiler.Proofs.Minimizing

namespace GrammarCompiler

open Draft (SparesTokens Silently)

/-! ## §1 Overlaps -/

namespace Overlap

/-- Both tokens of an overlap have a property. -/
def Both (P : Term → Prop) (o : Overlap) : Prop :=
  P o.first ∧ P o.second

variable {P : Term → Prop}

theorem Both.of_involves {o : Overlap} {t u : Term} (h : o.Both P)
    (hinvolves : o.involves t u = true) :
    P t ∧ P u := by
  simp only [involves, Bool.or_eq_true, Bool.and_eq_true, beq_iff_eq] at hinvolves
  rcases hinvolves with ⟨rfl, rfl⟩ | ⟨rfl, rfl⟩
  · exact h
  · exact h.symm

theorem both_add {ids : Term → Nat} {found : List Overlap} {a b : Term} {soft : Int}
    {text : List Nat} {longer : Option (List Nat)} (hfound : ∀ o ∈ found, o.Both P) (ha : P a)
    (hb : P b) : ∀ o ∈ add ids found a b soft text longer, o.Both P := by
  unfold add
  generalize hordered : (if ids a < ids b then (b, a, -soft) else (a, b, soft)) = ordered
  obtain ⟨first, second, soft'⟩ := ordered
  have hboth : P first ∧ P second := by
    split at hordered <;> cases hordered
    · exact ⟨hb, ha⟩
    · exact ⟨ha, hb⟩
  dsimp only
  split
  next =>
    refine List.forall_mem_map.mpr fun o ho => ?_
    split <;> exact hfound o ho
  next =>
    exact List.forall_mem_append.mpr ⟨hfound, List.forall_mem_singleton.mpr hboth⟩

end Overlap

namespace Dfa

open Overlap (Both both_add)

variable {P : Term → Prop} {ids : Term → Nat} {found : List Overlap}

theorem both_addSame {text : List Nat} {tokens : List Term} (hfound : ∀ o ∈ found, o.Both P)
    (htokens : ∀ t ∈ tokens, P t) : ∀ o ∈ addSame ids text tokens found, o.Both P := by
  induction tokens generalizing found with
  | nil => exact hfound
  | cons t later ih =>
    obtain ⟨ht, hlater⟩ := List.forall_mem_cons.mp htokens
    refine ih ?_ hlater
    exact List.foldlRecOn (motive := fun (found : List Overlap) => ∀ o ∈ found, o.Both P)
      later _ hfound
      fun found hfound u hu => both_add hfound ht (hlater u hu)

theorem both_addLonger {unbounded : List Term} {together : Term → Term → Bool}
    {text rest : List Nat} {here there : List Term} (hfound : ∀ o ∈ found, o.Both P)
    (hhere : ∀ t ∈ here, P t) (hthere : ∀ t ∈ there, P t) :
    ∀ o ∈ addLonger ids unbounded together text rest here there found, o.Both P := by
  refine List.foldlRecOn (motive := fun (found : List Overlap) => ∀ o ∈ found, o.Both P)
    there _ hfound
    fun found hfound t ht => ?_
  refine List.foldlRecOn (motive := fun (found : List Overlap) => ∀ o ∈ found, o.Both P)
    here _ hfound
    fun found hfound u hu => ?_
  split
  · exact hfound
  · exact both_add hfound (hthere t ht) (hhere u hu)

/-- Overlaps are between tokens that end in states. -/
theorem both_overlaps {a : Dfa} {together : Term → Term → Bool}
    (h : ∀ i, ∀ t ∈ (a.state i).accepting, P t) : ∀ o ∈ a.overlaps ids together, o.Both P := by
  unfold overlaps
  refine List.foldlRecOn (motive := fun (found : List Overlap) => ∀ o ∈ found, o.Both P)
    (a.reachable 0) _
    (List.forall_mem_nil _) fun found hfound first _ => ?_
  dsimp only
  split
  · exact hfound
  refine List.foldlRecOn (motive := fun (found : List Overlap) => ∀ o ∈ found, o.Both P)
    (a.reachable first.node) _
    (both_addSame hfound (h first.node)) fun found hfound second _ => ?_
  split
  · exact hfound
  · exact both_addLonger hfound (h first.node) (h second.node)

/-- The tokens that end in the states that remain end there before. -/
theorem exists_of_mem_accepting_minimize {a : Dfa} {i : Nat} {t : Term}
    (h : t ∈ (a.minimize.state i).accepting) : ∃ j, t ∈ (a.state j).accepting := by
  by_cases hi : i < a.leaders.length
  · exact ⟨a.leaders[i], by simpa [minimize_eq, state, hi, Minimize.moveTargets] using h⟩
  · rw [state_of_size_le (by simpa [minimize_eq, size] using hi)] at h
    cases h

end Dfa

/-- A token that ends in a set of states ends in one of them. -/
theorem Nfa.exists_of_mem_accepting_compile {a : Nfa} {start : Nat} {terms : TermTable} {dfa : Dfa}
    (h : a.compile start terms = .ok dfa) {i : Nat} {t : Term}
    (ht : t ∈ (dfa.state i).accepting) : ∃ q, t ∈ (a.state q).accepting := by
  obtain ⟨f, hexplore, hf, hdone, -⟩ := a.exists_found start
  rw [a.compile_eq start terms hexplore] at h
  split at h
  next =>
    cases h
    by_cases hi : i < f.sets.size
    · obtain ⟨edges, hstate, -⟩ := hdone.state_eq (Array.getElem?_eq_getElem hi)
      rw [hstate] at ht
      obtain ⟨q, -, hq⟩ := Subset.mem_accepting.mp ht
      exact ⟨q, hq⟩
    · rw [Dfa.state_of_size_le (by rw [Subset.Found.size_toDfa hf]; omega)] at ht
      cases ht
  next => cases h

/-! ## §2 Drafts -/

namespace Draft

/-- The automaton of a draft reads the tokens that are remembered, each by one symbol that was
created for it, and those that come from somewhere else are others. -/
structure HasOwnTokens (d : Draft) : Prop where
  eof_lt_size : Term.eof.index < d.terms.size
  eof_lt : ∀ i ∈ d.tokenInstances, Term.eof.index < i.term.index
  lt_size : ∀ i ∈ d.tokenInstances, i.term.index < d.terms.size
  nodup : (d.tokenInstances.map TokenInstance.term).Nodup
  foreign_lt_size : ∀ t ∈ d.foreignTerms, t.index < d.terms.size
  apart : ∀ i ∈ d.tokenInstances, i.term ∉ d.foreignTerms
  remembers : ∀ q, ∀ t ∈ (d.tokens.state q).accepting, ∃ i ∈ d.tokenInstances, i.term = t

theorem hasOwnTokens_empty : HasOwnTokens {} where
  eof_lt_size := by decide
  eof_lt := nofun
  lt_size := nofun
  nodup := .nil
  foreign_lt_size := nofun
  apart := nofun
  remembers q := by cases q <;> exact nofun

variable {d d' d'' : Draft} {t : Term} {key : TokenKey}

theorem mem_foreignTerms_of_mem_externalTerms (h : t ∈ d.externalTerms) : t ∈ d.foreignTerms := by
  obtain ⟨⟨u, origin⟩, hmem, hu⟩ := List.mem_filterMap.mp h
  cases origin with
  | external tokenizer =>
    obtain rfl := Option.some.inj hu
    exact List.mem_append_left _ (List.mem_append_left _ (List.mem_map_of_mem hmem))
  | specializes base => cases hu

theorem HasOwnTokens.of_spares (h : d.HasOwnTokens) (hd : d.SparesTokens d') : d'.HasOwnTokens := by
  refine ⟨Nat.lt_of_lt_of_le h.eof_lt_size hd.size_le, hd.tokenInstances_eq ▸ h.eof_lt,
    fun i hi => ?_, hd.tokenInstances_eq ▸ h.nodup, fun t ht => ?_, fun i hi hmem => ?_, ?_⟩
  · exact Nat.lt_of_lt_of_le (h.lt_size i (hd.tokenInstances_eq ▸ hi)) hd.size_le
  · rcases hd.foreignTerms t ht with ht | ⟨-, hlt⟩
    · exact Nat.lt_of_lt_of_le (h.foreign_lt_size t ht) hd.size_le
    · exact hlt
  · rw [hd.tokenInstances_eq] at hi
    rcases hd.foreignTerms _ hmem with hmem | ⟨hle, -⟩
    · exact h.apart i hi hmem
    · exact absurd (h.lt_size i hi) (Nat.not_lt.mpr hle)
  · rw [hd.tokens_eq, hd.tokenInstances_eq]
    exact h.remembers

/-- The new symbol becomes a token. -/
structure Adopts (d : Draft) (key : TokenKey) (t : Term) (d' : Draft) : Prop where
  accepting : ∀ q, ∀ u ∈ (d'.tokens.state q).accepting, u = t ∨ u ∈ (d.tokens.state q).accepting
  tokenInstances_eq : d'.tokenInstances = d.tokenInstances ++ [⟨key, t⟩]
  foreignTerms_eq : d'.foreignTerms = d.foreignTerms
  size_le : d.terms.size ≤ d'.terms.size
  size_le_index : d.terms.size ≤ t.index
  index_lt : t.index < d'.terms.size

/-- A token that is built does not change where others end. -/
theorem MakesToken.adopts {action : Nat → TokenBuild.Action Unit} (h : d.MakesToken action key t d')
    (haction : ∀ p', action d.tokens.size ⟨(d.tokens.addAccepting t).2, []⟩ = .ok ((), p') →
      (d.tokens.addAccepting t).2.Grows p'.automaton) : d.Adopts key t d' where
  accepting q u hu := by
    obtain ⟨used, hrun⟩ := h.builds
    rw [(haction _ hrun).accepting_eq, Nfa.state_addAccepting] at hu
    split at hu
    next => exact .inl (List.mem_singleton.mp hu)
    next => exact .inr hu
  tokenInstances_eq := h.tokenInstances_eq
  foreignTerms_eq := h.foreignTerms_eq
  size_le := h.size_le
  size_le_index := h.size_le_index
  index_lt := h.index_lt

theorem Adopts.hasOwnTokens (h : d.Adopts key t d') (hd : d.HasOwnTokens) : d'.HasOwnTokens := by
  refine ⟨Nat.lt_of_lt_of_le hd.eof_lt_size h.size_le, ?_, ?_, ?_, fun u hu => ?_, ?_,
    fun q u hu => ?_⟩
  · rw [h.tokenInstances_eq]
    refine List.forall_mem_append.mpr ⟨hd.eof_lt, List.forall_mem_singleton.mpr ?_⟩
    exact Nat.lt_of_lt_of_le hd.eof_lt_size h.size_le_index
  · rw [h.tokenInstances_eq]
    refine List.forall_mem_append.mpr ⟨fun i hi => ?_, List.forall_mem_singleton.mpr h.index_lt⟩
    exact Nat.lt_of_lt_of_le (hd.lt_size i hi) h.size_le
  · rw [h.tokenInstances_eq, List.map_append]
    refine hd.nodup.append (List.nodup_singleton t) fun u hu heq => ?_
    obtain ⟨i, hi, rfl⟩ := List.mem_map.mp hu
    obtain rfl := List.mem_singleton.mp heq
    exact Nat.not_lt.mpr h.size_le_index (hd.lt_size i hi)
  · exact Nat.lt_of_lt_of_le (hd.foreign_lt_size u (h.foreignTerms_eq ▸ hu)) h.size_le
  · rw [h.tokenInstances_eq, h.foreignTerms_eq]
    refine List.forall_mem_append.mpr ⟨hd.apart, List.forall_mem_singleton.mpr fun ht => ?_⟩
    exact absurd (hd.foreign_lt_size t ht) (Nat.not_lt.mpr h.size_le_index)
  · rw [h.tokenInstances_eq]
    rcases h.accepting q u hu with rfl | hu
    · exact ⟨_, List.mem_append_right _ (List.mem_singleton_self _), rfl⟩
    · obtain ⟨i, hi, heq⟩ := hd.remembers q u hu
      exact ⟨i, List.mem_append_left _ hi, heq⟩

/-- If a draft has its own tokens, it has them afterwards. -/
def OwnsOn (d d' : Draft) : Prop :=
  d.HasOwnTokens → d'.HasOwnTokens

instance : IsPreorder Draft OwnsOn where
  refl _ := id
  trans _ _ _ h h' := h' ∘ h

end Draft

namespace Build

open Draft (OwnsOn)
open TokenBuild (extends_literal extends_reference)

variable {ctx : Declared} {d : Draft} {t : Term}

theorem owns_literalToken (value : String) : Along ctx OwnsOn (literalToken value) := by
  intro d u d' h hd
  rcases yields_literalToken_makes value u d' h with rfl | ⟨t, hmakes⟩
  · exact hd
  · exact (hmakes.adopts fun _ hrun => (extends_literal hrun (by simp)).grows).hasOwnTokens hd

theorem owns_token? (start : Nat) (name : String) (args : List Expr) :
    Along ctx OwnsOn (token? start name args) := by
  intro d u d' h hd
  rcases yields_token?_makes start name args u d' h with rfl | ⟨rule, t, -, hmakes⟩
  · exact hd
  · exact (hmakes.adopts fun _ hrun => (extends_reference hrun (by simp)).grows).hasOwnTokens hd

/-- Drafts have their own tokens all along. -/
theorem tracks_ownsOn : Tracks ctx OwnsOn where
  spares hspares hd := hd.of_spares hspares
  token start name args _ := owns_token? start name args
  literal := owns_literalToken

/-! ## §3 Conflicts -/

theorem yields_conflictToken (e : Expr) : Yields ctx d (conflictToken e) fun found d' =>
    Silently ctx.decl d d' ∧ ∀ t ∈ found, ∃ i ∈ d.tokenInstances, i.term = t := by
  refine yields_get_bind (Yields.when (silently_warn _ _) fun d₁ hd₁ => yields_pure ⟨hd₁, ?_⟩)
  intro t ht
  obtain ⟨key, -, hfound⟩ := Option.bind_eq_some_iff.mp ht
  obtain ⟨i, hi, rfl⟩ := Option.map_eq_some_iff.mp hfound
  exact ⟨i, List.mem_of_find?_eq_some hi, rfl⟩

/-- Both tokens of a declared conflict are remembered. -/
def IsRemembered (d : Draft) (p : Term × Term) : Prop :=
  (∃ i ∈ d.tokenInstances, i.term = p.1) ∧ ∃ i ∈ d.tokenInstances, i.term = p.2

theorem yields_readConflict (decl : TokenConflictDecl) : Yields ctx d (readConflict decl)
    fun found d' => Silently ctx.decl d d' ∧ ∀ p ∈ found, IsRemembered d p := by
  refine (yields_conflictToken _).bind fun first d₁ ⟨hd₁, hfirst⟩ => ?_
  refine (yields_conflictToken _).bind fun second d₂ ⟨hd₂, hsecond⟩ => yields_pure ?_
  refine ⟨trans_of (Silently ctx.decl) hd₁ hd₂, fun p hp => ?_⟩
  obtain ⟨a, ha, hp⟩ := Option.bind_eq_some_iff.mp hp
  obtain ⟨b, hb, rfl⟩ := Option.map_eq_some_iff.mp hp
  rw [hd₁.sparesTokens.tokenInstances_eq] at hsecond
  exact ⟨hfirst a ha, hsecond b hb⟩

theorem yields_readConflicts (decls : List TokenConflictDecl) : Yields ctx d
    (decls.mapM readConflict) fun found d' => Silently ctx.decl d d' ∧
      ∀ p ∈ found.filterMap id, IsRemembered d p := by
  induction decls generalizing d with
  | nil => exact yields_pure ⟨refl_of (Silently ctx.decl) d, by simp⟩
  | cons decl decls ih =>
    rw [List.mapM_cons]
    refine (yields_readConflict decl).bind fun first d₁ ⟨hd₁, hfirst⟩ => ?_
    refine ih.bind fun later d₂ ⟨hd₂, hlater⟩ => yields_pure ?_
    refine ⟨trans_of (Silently ctx.decl) hd₁ hd₂, fun p hp => ?_⟩
    simp only [List.mem_filterMap, List.mem_cons, id_eq, exists_eq_or_imp, exists_eq_right]
      at hp hlater
    rcases hp with hp | hp
    · exact hfirst p hp
    · have hp := hlater p hp
      rwa [IsRemembered, hd₁.sparesTokens.tokenInstances_eq] at hp

theorem yields_blueprint_conflicts (d : Draft) :
    Yields ctx d blueprint fun b _ => ∀ p ∈ b.conflicts, IsRemembered b.draft p := by
  have hany {α : Type} (m : Build α) (d : Draft) : Yields ctx d m fun _ _ => True :=
    fun _ _ _ => trivial
  refine yields_read_bind ((hany _ _).bind fun _ _ _ => (hany _ _).bind fun _ _ _ => ?_)
  refine (hany _ _).bind fun _ _ _ => (hany _ _).bind fun _ _ _ => (hany _ _).bind fun _ _ _ => ?_
  refine (yields_readConflicts _).bind fun found d₁ ⟨hd₁, hfound⟩ => ?_
  refine silently_defineGroups.yields.bind fun _ d₂ hd₂ => ?_
  refine yields_modify_bind (yields_get_bind (yields_pure fun p hp => ?_))
  have hp := hfound p hp
  rwa [IsRemembered, ← (trans_of (Silently ctx.decl) hd₁ hd₂).sparesTokens.tokenInstances_eq] at hp

end Build

/-! ## §4 Grammars -/

theorem TokenOrigins.mem_of_mainToken?_eq_none {origins : TokenOrigins} {t : Term}
    (h : origins.mainToken? t = none) : ∃ k, (t, .external k) ∈ origins := by
  rw [mainToken?] at h
  split at h
  next => cases h
  next k hk =>
    obtain ⟨before, after, heq, -⟩ := List.lookup_eq_some_iff.mp hk
    exact ⟨k, heq ▸ List.mem_append_right _ List.mem_cons_self⟩
  next => cases h

/-- A token that the main tokenizer does not read is one of an external tokenizer. -/
theorem Draft.mem_externalTerms {d : Draft} {t : Term} (h : d.origins.mainToken? t = none) :
    t ∈ d.externalTerms := by
  obtain ⟨k, hk⟩ := TokenOrigins.mem_of_mainToken?_eq_none h
  exact List.mem_filterMap.mpr ⟨_, hk, rfl⟩

namespace TokenGroups

open Overlap (Among Both)
open TokenRank (precedes)

variable {ranks : List TokenRank} {declared : List (Term × Term)} {overlaps found : List Overlap}

/-- An overlap of tokens that have no declared order. -/
def isUnsettled (ranks : List TokenRank) (o : Overlap) : Bool :=
  !precedes ranks o.second o.first && !precedes ranks o.first o.second

/-- Adds a declared conflict if there is none yet between its tokens. -/
def addDeclared (found : List Overlap) (p : Term × Term) : List Overlap :=
  if found.any fun o => o.involves p.1 p.2 then found
  else found ++ [{ first := p.1, second := p.2, soft := 0 }]

theorem conflicts_eq : conflicts ranks declared overlaps =
    declared.foldl addDeclared (overlaps.filter (isUnsettled ranks)) :=
  rfl

theorem mem_addDeclared {o : Overlap} (p : Term × Term) (h : o ∈ found) :
    o ∈ addDeclared found p := by
  rw [addDeclared]
  split
  · exact h
  · exact List.mem_append_left _ h

theorem mem_or_of_mem_addDeclared {o : Overlap} {p : Term × Term} (h : o ∈ addDeclared found p) :
    o ∈ found ∨ o.soft = 0 ∧ (o.first, o.second) = p := by
  rw [addDeclared] at h
  split at h
  · exact .inl h
  · rcases List.mem_append.mp h with h | h
    · exact .inl h
    · rw [List.mem_singleton.mp h]
      exact .inr ⟨rfl, rfl⟩

theorem exists_mem_addDeclared (found : List Overlap) (p : Term × Term) :
    ∃ o ∈ addDeclared found p, o.involves p.1 p.2 = true := by
  rw [addDeclared]
  split
  next hany => exact List.any_eq_true.mp hany
  next => exact ⟨_, List.mem_append_right _ List.mem_cons_self, by simp [Overlap.involves]⟩

/-- Conflicts are overlaps of tokens that have no order, or they are declared. -/
theorem mem_or_of_mem_conflicts {o : Overlap} (h : o ∈ conflicts ranks declared overlaps) :
    o ∈ overlaps ∧ isUnsettled ranks o = true ∨ o.soft = 0 ∧ (o.first, o.second) ∈ declared := by
  rw [conflicts_eq] at h
  have hall := List.foldlRecOn (motive := fun (found : List Overlap) => ∀ o ∈ found,
    o ∈ overlaps ∧ isUnsettled ranks o = true ∨ o.soft = 0 ∧ (o.first, o.second) ∈ declared)
    declared addDeclared (fun o ho => .inl (List.mem_filter.mp ho)) fun found hfound p hp o ho => by
      rcases mem_or_of_mem_addDeclared ho with ho | ⟨hsoft, rfl⟩
      · exact hfound o ho
      · exact .inr ⟨hsoft, hp⟩
  exact hall o h

/-- There is a conflict for each one that is declared. -/
theorem exists_mem_conflicts {p : Term × Term} (h : p ∈ declared) :
    ∃ o ∈ conflicts ranks declared overlaps, o.involves p.1 p.2 = true := by
  obtain ⟨before, after, rfl⟩ := List.append_of_mem h
  rw [conflicts_eq, List.foldl_append, List.foldl_cons]
  refine List.foldlRecOn (motive := fun (found : List Overlap) => ∃ o ∈ found,
    o.involves p.1 p.2 = true) after _ ?_ ?_
  · exact exists_mem_addDeclared _ p
  · rintro found ⟨o, ho, hinvolves⟩ p' _
    exact ⟨o, mem_addDeclared p' ho, hinvolves⟩

theorem both_conflicts {P : Term → Prop} (hoverlaps : ∀ o ∈ overlaps, o.Both P)
    (hdeclared : ∀ p ∈ declared, P p.1 ∧ P p.2) :
    ∀ o ∈ conflicts ranks declared overlaps, o.Both P := by
  intro o ho
  rcases mem_or_of_mem_conflicts ho with ⟨ho, _⟩ | ⟨_, hdecl⟩
  · exact hoverlaps o ho
  · exact hdeclared _ hdecl

end TokenGroups

/-- A token that the main tokenizer reads. -/
def Blueprint.Compiles (b : Blueprint) (t : Term) : Prop :=
  ∃ i ∈ b.draft.tokenInstances, i.term = t

section

variable {source : Text.Source} {b : Blueprint} {journal : Journal}
  (h : Blueprint.ofSource source = (.ok b, journal))
include h

theorem Blueprint.hasOwnTokens_of_ofSource : b.draft.HasOwnTokens :=
  along_of_ofSource h (fun _ => Build.tracks_ownsOn) Draft.hasOwnTokens_empty

/-- Both tokens of a declared conflict are tokens that the main tokenizer reads. -/
theorem Blueprint.compiles_of_mem_conflicts {p : Term × Term} (hp : p ∈ b.conflicts) :
    b.Compiles p.1 ∧ b.Compiles p.2 := by
  rw [ofSource] at h
  split at h
  next => cases h
  next decl hparse =>
    split at h
    next hrun =>
      cases h
      exact Build.yields_blueprint_conflicts {} b _ hrun p hp
    next => cases h

/-- What ends in a state of the tokenizer is a token that it reads. -/
theorem Blueprint.compiles_of_mem_accepting {dfa : Dfa}
    (hdfa : b.draft.tokens.compile Draft.tokenStart b.draft.terms = .ok dfa) {i : Nat} {t : Term}
    (ht : t ∈ (dfa.minimize.state i).accepting) : b.Compiles t := by
  obtain ⟨j, hj⟩ := Dfa.exists_of_mem_accepting_minimize ht
  obtain ⟨q, hq⟩ := Nfa.exists_of_mem_accepting_compile hdfa hj
  exact (hasOwnTokens_of_ofSource h).remembers q t hq

/-- The tokens of conflicts in a grammar text are tokens that the main tokenizer reads. -/
theorem Blueprint.both_compiles_of_ofSource {dfa : Dfa}
    (hdfa : b.draft.tokens.compile Draft.tokenStart b.draft.terms = .ok dfa)
    (ids : Term → Nat) (together : Term → Term → Bool) :
    ∀ o ∈ TokenGroups.conflicts b.ranks b.conflicts (dfa.minimize.overlaps ids together),
      o.Both b.Compiles :=
  TokenGroups.both_conflicts
    (Dfa.both_overlaps fun _ _ ht => compiles_of_mem_accepting h hdfa ht)
    fun _ hp => compiles_of_mem_conflicts h hp

/-- A token that the main tokenizer reads comes from nowhere else. -/
theorem Blueprint.Compiles.notMem_foreignTerms {t : Term} (ht : b.Compiles t) :
    t ∉ b.draft.foreignTerms := by
  obtain ⟨i, hi, rfl⟩ := ht
  exact (hasOwnTokens_of_ofSource h).apart i hi

/-- The tokens of conflicts in a grammar text are not those of external tokenizers. -/
theorem Blueprint.both_conflicts_of_ofSource {dfa : Dfa}
    (hdfa : b.draft.tokens.compile Draft.tokenStart b.draft.terms = .ok dfa)
    (ids : Term → Nat) (together : Term → Term → Bool) :
    ∀ o ∈ TokenGroups.conflicts b.ranks b.conflicts (dfa.minimize.overlaps ids together),
      o.Both (· ∉ b.draft.externalTerms) := by
  have hspared {t : Term} (ht : b.Compiles t) : t ∉ b.draft.externalTerms :=
    fun hmem => ht.notMem_foreignTerms h (Draft.mem_foreignTerms_of_mem_externalTerms hmem)
  intro o ho
  obtain ⟨hfirst, hsecond⟩ := both_compiles_of_ofSource h hdfa ids together o ho
  exact ⟨hspared hfirst, hspared hsecond⟩

end

/-- The groups of tokens of a grammar text keep conflicting tokens apart. There are at most sixteen
groups, and none of them holds two tokens that conflict. Each state that reads tokens of the main
tokenizer, and has no default reduction, has one group. What can be read in that state is in this
group if it conflicts with anything, and nothing in the group conflicts with it, where a specialized
token counts as the token it is a case of. -/
theorem Blueprint.tokenGroups_separate {source : Text.Source} {b : Blueprint} {journal : Journal}
    (h : Blueprint.ofSource source = (.ok b, journal)) {dfa : Dfa}
    (hdfa : b.draft.tokens.compile Draft.tokenStart b.draft.terms = .ok dfa) {g : Grammar}
    {skips : Skipping} {full : Automaton} {groups : TokenGroups}
    (hgroups : TokenGroups.ofAutomaton g b.draft.origins skips b.ranks b.conflicts dfa.minimize
      full = .ok groups) :
    full.Regroups groups.states ∧
    groups.hard = (TokenGroups.conflicts b.ranks b.conflicts (dfa.minimize.overlaps g.id
      (TokenGroups.together (TokenGroups.usage skips g.terms.size full)))).filter
        (fun o => o.soft == 0) ∧
    groups.groups.length ≤ 16 ∧
    (∀ tokens ∈ groups.groups, ∀ o ∈ groups.hard, ¬ (o.first ∈ tokens ∧ o.second ∈ tokens)) ∧
    ∀ s ∈ groups.states, s.defaultReduce = none →
      (∃ t ∈ TokenGroups.usable skips s, (b.draft.origins.mainToken? t).isSome) →
      ∃ k tokens, s.group = some k ∧ groups.groups[k]? = some tokens ∧
        (∀ t ∈ TokenGroups.usable skips s, ∀ v ∈ b.draft.origins.mainToken? t,
          (∃ u, ∃ o ∈ groups.hard, o.involves v u = true) → v ∈ tokens) ∧
        ∀ t ∈ TokenGroups.usable skips s, ∀ u ∈ tokens, ∀ o ∈ groups.hard,
          o.involves u ((b.draft.origins.mainToken? t).getD t) = false := by
  obtain ⟨hhard, hlength, p, hp, _, hstates, hlists⟩ := TokenGroups.separates_of_ofConflicts
    (show TokenGroups.ofConflicts g b.draft.origins skips _ full = .ok groups from hgroups)
  refine ⟨TokenGroups.regroups_of_ofAutomaton hgroups, hhard, hlength, ?_, ?_⟩
  · intro tokens htokens o ho ⟨hfirst, hsecond⟩
    obtain ⟨k, hk⟩ := List.mem_iff_getElem?.mp htokens
    have hgroup : p.groups.getD k [] = tokens := by
      rw [hlists, List.getD_eq_getElem?_getD, hk]
      rfl
    refine hp.apart k o.first (hgroup ▸ hfirst) o.second (hgroup ▸ hsecond) ⟨o, ho, ?_⟩
    simp [Overlap.involves]
  · rintro s hs hdefault ⟨t₀, ht₀, hmain⟩
    obtain ⟨main, hmain⟩ := Option.isSome_iff_exists.mp hmain
    have hwanted : TokenGroups.wanted b.draft.origins skips s ≠ [] :=
      List.ne_nil_of_mem (TokenGroups.mem_wanted.mpr ⟨t₀, ht₀, hmain⟩)
    obtain ⟨k, hk, hgroup, hserved⟩ := hp.served s (hstates ▸ hs) hdefault hwanted
    rw [hlists] at hk hserved
    rw [List.getD_eq_getElem _ _ hk] at hserved
    refine ⟨k, groups.groups[k], hgroup, List.getElem?_eq_getElem hk, ?_, ?_⟩
    · rintro t ht v hv ⟨u, hamong⟩
      exact (hserved v (TokenGroups.mem_wanted.mpr ⟨t, ht, hv⟩) u hamong).1
    · intro t ht u hu o ho
      rw [Bool.eq_false_iff]
      intro hinvolves
      cases hread : b.draft.origins.mainToken? t with
      | some v =>
        rw [hread, Option.getD_some, Overlap.involves_comm] at hinvolves
        exact (hserved v (TokenGroups.mem_wanted.mpr ⟨t, ht, hread⟩) u ⟨o, ho, hinvolves⟩).2 hu
      | none =>
        rw [hread, Option.getD_none] at hinvolves
        rw [hhard] at ho
        have hboth := both_conflicts_of_ofSource h hdfa _ _ o (List.mem_of_mem_filter ho)
        exact (hboth.of_involves hinvolves).2 (Draft.mem_externalTerms hread)

theorem Blueprint.exists_ofSource_eq {source : Text.Source} {b : Blueprint}
    (h : (ofSource source).1 = .ok b) : ∃ journal, ofSource source = (.ok b, journal) :=
  ⟨_, Prod.ext h rfl⟩

/-- Two tokens that are declared to conflict, and an external one. -/
def declaredConflict : Text.Source :=
  ⟨"", "@top T \x7b X \"a\" \"b\" \x7d @external tokens t from \"./t\" \x7b X \x7d" ++
    "@tokens \x7b \"a\" \"b\" @conflict \x7b \"a\", \"b\" \x7d \x7d"⟩

/-- There are two groups that keep the two tokens apart. -/
theorem Blueprint.tokenGroups_separate_declaredConflict :
    ∃ b journal dfa g skips full groups,
      Blueprint.ofSource declaredConflict = (.ok b, journal) ∧
      b.draft.tokens.compile Draft.tokenStart b.draft.terms = .ok dfa ∧
      TokenGroups.ofAutomaton g b.draft.origins skips b.ranks b.conflicts dfa.minimize full =
        .ok groups ∧
      groups.groups.length = 2 ∧ groups.hard.length = 1 ∧
      ∀ tokens ∈ groups.groups, ∀ o ∈ groups.hard, ¬ (o.first ∈ tokens ∧ o.second ∈ tokens) := by
  have hcheck : (do
      let b ← (ofSource declaredConflict).1
      let numbering ← Numbering.ofRules b.draft.terms b.draft.rules
      let g : Grammar := { terms := b.draft.terms, numbering, rules := b.draft.rules }
      let table := FirstTable.ofGrammar g
      let full ← fullAutomaton g table g.terms.tops b.draft.noSkip
      let dfa ← b.draft.tokens.compile Draft.tokenStart b.draft.terms
      TokenGroups.ofAutomaton g b.draft.origins (Skipping.ofTerms g table b.draft.skipTerms) b.ranks
        b.conflicts dfa.minimize full : Except BuildError TokenGroups).toOption.any
      (fun groups => groups.groups.length == 2 && groups.hard.length == 1) = true := by
    decide +kernel
  obtain ⟨groups, hrun, hcounts⟩ := exists_ok_of_any hcheck
  obtain ⟨b, hb, hrun⟩ := exists_ok_of_bind hrun
  obtain ⟨numbering, -, hrun⟩ := exists_ok_of_bind hrun
  obtain ⟨full, -, hrun⟩ := exists_ok_of_bind hrun
  obtain ⟨dfa, hdfa, hgroups⟩ := exists_ok_of_bind hrun
  obtain ⟨journal, hsource⟩ := exists_ofSource_eq hb
  rw [Bool.and_eq_true, beq_iff_eq, beq_iff_eq] at hcounts
  exact ⟨b, journal, dfa, _, _, full, groups, hsource, hdfa, hgroups, hcounts.1, hcounts.2,
    (tokenGroups_separate hsource hdfa hgroups).2.2.2.1⟩

end GrammarCompiler
