/-
GrammarCompiler.Proofs.Lexing — tokens are read as they are written.

All tokens of a grammar start in the same state of one automaton, and each of them
ends in a state of its own. No way leads back to the start and none out of an end,
so a token that is built does not change what the others are read by.

  §1 Roots    — an automaton with one more token.
  §2 Drafts   — what holds of the tokens of a draft.
  §3 Tokens   — building the token of a reference or a literal.
  §4 Grammars — the tokens of a grammar text.
-/
import GrammarCompiler.Proofs.Confining
import GrammarCompiler.Proofs.Instantiating
import GrammarCompiler.Proofs.Visiting
import Mathlib

namespace GrammarCompiler

open Draft (tokenStart SparesTokens)
open TokenBuild (spelled spelled_literal joins_addLiteral lays_reference extends_reference
  IsRegular)

/-! ## §1 Roots -/

namespace Nfa

variable {a b : Nfa} {t : Term} {q : Nat} {K : Language Nat}

/-- Edges lead to states, and none leads back to the start. -/
structure IsRooted (a : Nfa) : Prop where
  start_lt : tokenStart < a.size
  closed : a.Admits fun _ => ⊤
  start_eq : a.ways tokenStart tokenStart = 1

/-- A token ends in one state, and nowhere else. -/
def EndsAt (a : Nfa) (token : Term) (q : Nat) : Prop :=
  ∀ i, token ∈ (a.state i).accepting ↔ i = q

/-- `a.Gains t K b`: the automaton `b` is `a` with one more token, which ends in a new state and
is read by the words of `K`. -/
def Gains (a : Nfa) (t : Term) (K : Language Nat) (b : Nfa) : Prop :=
  (a.addAccepting t).2.Joins tokenStart a.size K b

theorem Gains.size_lt (h : a.Gains t K b) : a.size < b.size := by
  simpa using h.grows.size_le

theorem Gains.accepting_eq (h : a.Gains t K b) (q : Nat) : (b.state q).accepting =
    if q = a.size then [t] else (a.state q).accepting := by
  rw [h.grows.accepting_eq, state_addAccepting]
  split <;> rfl

/-- Nothing leads on from the end of the new token. -/
theorem Gains.ways_eq (h : a.Gains t K b) (ha : a.IsRooted) (hq : q ≤ a.size) :
    b.ways tokenStart q = a.ways tokenStart q + K * a.ways a.size q := by
  have hback : (a.addAccepting t).2.ways a.size tokenStart = 0 := by
    rw [ways_addAccepting]
    exact ways_of_state_eq (state_of_size_le (Nat.le_refl _)) (Nat.ne_of_lt ha.start_lt)
  have hlt {i : Nat} (hi : i ≤ a.size) : i < (a.addAccepting t).2.size := by
    rw [size_addAccepting]
    exact Nat.lt_succ_of_le hi
  have heq :=
    Joins.ways_eq h (ha.closed.addAccepting t) (hlt (Nat.le_of_lt ha.start_lt)) hback (hlt hq)
  simpa only [ways_addAccepting, ha.start_eq, one_mul] using heq

/-- The ways to the states that were there are the same. -/
theorem Gains.ways_of_lt (h : a.Gains t K b) (ha : a.IsRooted) (hq : q < a.size) :
    b.ways tokenStart q = a.ways tokenStart q := by
  rw [h.ways_eq ha (Nat.le_of_lt hq),
    ways_of_state_eq (state_of_size_le (Nat.le_refl _)) (Nat.ne_of_lt hq), mul_zero, add_zero]

/-- The ways to the end of the new token are its words. -/
theorem Gains.ways_size (h : a.Gains t K b) (ha : a.IsRooted) : b.ways tokenStart a.size = K := by
  have hnone : a.ways tokenStart a.size = 0 := bot_unique fun _ hpath =>
    absurd (ha.closed.lt_size_of_path hpath ha.start_lt) (Nat.lt_irrefl _)
  rw [h.ways_eq ha (Nat.le_refl _), hnone,
    ways_self_of_state_eq (state_of_size_le (Nat.le_refl _)), mul_one, zero_add]

theorem Gains.isRooted (h : a.Gains t K b) (ha : a.IsRooted) : b.IsRooted where
  start_lt := Nat.lt_trans ha.start_lt h.size_lt
  closed := by
    obtain ⟨L, -, hL⟩ := h.admits _ (ha.closed.addAccepting t) le_top
    exact ⟨fun s m hm => ⟨(hL.empty s m hm).1, le_top⟩,
      fun s e he => ⟨(hL.edge s e he).1, fun _ _ _ _ _ => trivial⟩⟩
  start_eq := (h.ways_of_lt ha ha.start_lt).trans ha.start_eq

/-- A token that ended somewhere ends there still, if the new one is another. -/
theorem Gains.endsAt (h : a.Gains t K b) {u : Term} (hu : a.EndsAt u q) (hq : q < a.size)
    (hne : u ≠ t) : b.EndsAt u q := by
  intro i
  rw [h.accepting_eq]
  split
  next heq =>
    refine iff_of_false (fun hmem => hne (List.mem_singleton.mp hmem)) ?_
    rw [heq]
    exact Nat.ne_of_gt hq
  next => exact hu i

/-- A token that ended nowhere ends in the new state. -/
theorem Gains.endsAt_size (h : a.Gains t K b) (hnew : ∀ i, t ∉ (a.state i).accepting) :
    b.EndsAt t a.size := by
  intro i
  rw [h.accepting_eq]
  split
  next heq => exact iff_of_true (List.mem_singleton_self t) heq
  next hne => exact iff_of_false (hnew i) hne

end Nfa

/-! ## §2 Drafts -/

/-- What a token is read by, as an expression. -/
def TokenKey.expr : TokenKey → Expr
  | .rule name args => .name 0 name args
  | .literal value => .literal 0 value

theorem TokenKey.exists_args_of_hasRule {key : TokenKey} {name : String}
    (h : key.hasRule name = true) : ∃ args, key = .rule name args := by
  cases key with
  | rule name' args =>
    obtain rfl : name = name' := by simpa [hasRule] using h
    exact ⟨args, rfl⟩
  | literal => cases h

namespace Draft

variable {rules : List RuleDecl} {P : TokenKey → Prop} {d d' d'' : Draft} {t : Term}

/-- `d.Prepares t d'`: there is a new symbol, which is no token yet. -/
structure Prepares (d : Draft) (t : Term) (d' : Draft) : Prop extends Creates d t d' where
  foreignTerms_eq : d'.foreignTerms = d.foreignTerms

theorem Prepares.trans {decl : GrammarDecl} (h : d.Prepares t d') (h' : Silently decl d' d'') :
    d.Prepares t d'' where
  __ := h.toCreates.trans h'.sparesTokens
  foreignTerms_eq := h'.foreignTerms_eq.trans h.foreignTerms_eq

/-- `d.MakesToken action key t d'`: there is a new symbol, and its token is built by an action up
to a new state. -/
structure MakesToken (d : Draft) (action : Nat → TokenBuild.Action Unit) (key : TokenKey)
    (t : Term) (d' : Draft) : Prop where
  size_le : d.terms.size ≤ d'.terms.size
  size_le_index : d.terms.size ≤ t.index
  index_lt : t.index < d'.terms.size
  foreignTerms_eq : d'.foreignTerms = d.foreignTerms
  tokenInstances_eq : d'.tokenInstances = d.tokenInstances ++ [⟨key, t⟩]
  builds : ∃ used, action d.tokens.size ⟨(d.tokens.addAccepting t).2, []⟩ =
    .ok ((), ⟨d'.tokens, used⟩)

/-- The automaton of a draft reads the tokens that are remembered, and nothing else: each of them
ends in a state of its own, and the ways to it are its texts if it is one of `P`. -/
structure Lexes (rules : List RuleDecl) (P : TokenKey → Prop) (d : Draft) : Prop where
  rooted : d.tokens.IsRooted
  lt_size : ∀ i ∈ d.tokenInstances, i.term.index < d.terms.size
  reads : ∀ i ∈ d.tokenInstances, ∃ q < d.tokens.size, d.tokens.EndsAt i.term q ∧
    (P i.key → d.tokens.ways tokenStart q = spelled rules i.key.expr)
  remembers : ∀ q, ∀ t ∈ (d.tokens.state q).accepting, ∃ i ∈ d.tokenInstances, i.term = t

/-- In the beginning there are no tokens. -/
theorem lexes_empty (rules : List RuleDecl) (P : TokenKey → Prop) : Lexes rules P {} := by
  have hstate (q : Nat) : ({} : Draft).tokens.state q = {} := by
    cases q <;> rfl
  have hclosed : ({} : Draft).tokens.Admits fun _ => ⊤ :=
    ⟨by simp [hstate], by simp [hstate]⟩
  refine ⟨⟨Nat.zero_lt_one, hclosed, Nfa.ways_self_of_state_eq (hstate _)⟩, nofun, nofun, ?_⟩
  simp [hstate]

theorem Lexes.of_spares (h : d.Lexes rules P) (hd : d.SparesTokens d') : d'.Lexes rules P := by
  obtain ⟨hsize, htokens, hinstances, -⟩ := hd
  refine ⟨htokens ▸ h.rooted, fun i hi => ?_, ?_, ?_⟩
  · exact Nat.lt_of_lt_of_le (h.lt_size i (hinstances ▸ hi)) hsize
  · rw [htokens, hinstances]
    exact h.reads
  · rw [htokens, hinstances]
    exact h.remembers

/-- `Remembers rules P d key t d'`: the draft `d'` is `d` with a token for a new symbol. -/
structure Remembers (rules : List RuleDecl) (P : TokenKey → Prop) (d : Draft) (key : TokenKey)
    (t : Term) (d' : Draft) : Prop where
  size_le : d.terms.size ≤ d'.terms.size
  size_le_index : d.terms.size ≤ t.index
  index_lt : t.index < d'.terms.size
  gains : ∃ K, d.tokens.Gains t K d'.tokens ∧ (P key → K = spelled rules key.expr)
  tokenInstances_eq : d'.tokenInstances = d.tokenInstances ++ [⟨key, t⟩]

theorem Remembers.lexes {key : TokenKey} (h : Remembers rules P d key t d')
    (hd : d.Lexes rules P) : d'.Lexes rules P := by
  obtain ⟨K, hgains, hK⟩ := h.gains
  have hne : ∀ i ∈ d.tokenInstances, i.term ≠ t := by
    rintro i hi rfl
    exact absurd (hd.lt_size i hi) (Nat.not_lt.mpr h.size_le_index)
  refine ⟨hgains.isRooted hd.rooted, ?_, ?_, fun q u hu => ?_⟩
  · rw [h.tokenInstances_eq]
    refine List.forall_mem_append.mpr ⟨fun i hi => ?_, List.forall_mem_singleton.mpr h.index_lt⟩
    exact Nat.lt_of_lt_of_le (hd.lt_size i hi) h.size_le
  · rw [h.tokenInstances_eq]
    refine List.forall_mem_append.mpr ⟨fun i hi => ?_, List.forall_mem_singleton.mpr ?_⟩
    · obtain ⟨q, hq, hends, hreads⟩ := hd.reads i hi
      exact ⟨q, Nat.lt_trans hq hgains.size_lt, hgains.endsAt hends hq (hne i hi),
        fun hi => (hgains.ways_of_lt hd.rooted hq).trans (hreads hi)⟩
    · refine ⟨d.tokens.size, hgains.size_lt, hgains.endsAt_size fun q hmem => ?_,
        fun hkey => (hgains.ways_size hd.rooted).trans (hK hkey)⟩
      obtain ⟨i, hi, heq⟩ := hd.remembers q t hmem
      exact hne i hi heq
  · rw [hgains.accepting_eq] at hu
    rw [h.tokenInstances_eq]
    split at hu
    next =>
      obtain rfl := List.mem_singleton.mp hu
      exact ⟨⟨key, u⟩, List.mem_append_right _ (List.mem_singleton_self _), rfl⟩
    next =>
      obtain ⟨i, hi, heq⟩ := hd.remembers q u hu
      exact ⟨i, List.mem_append_left _ hi, heq⟩

/-- What is built for the token of a new symbol tells what the token is read by. -/
theorem MakesToken.remembers {action : Nat → TokenBuild.Action Unit} {key : TokenKey}
    (h : d.MakesToken action key t d')
    (hgains : ∀ p', action d.tokens.size ⟨(d.tokens.addAccepting t).2, []⟩ = .ok ((), p') →
      ∃ K, d.tokens.Gains t K p'.automaton ∧ (P key → K = spelled rules key.expr)) :
    Remembers rules P d key t d' where
  size_le := h.size_le
  size_le_index := h.size_le_index
  index_lt := h.index_lt
  gains := have ⟨_, hrun⟩ := h.builds; hgains _ hrun
  tokenInstances_eq := h.tokenInstances_eq

/-- If tokens are read as they are written, they are so afterwards. -/
def LexesOn (rules : List RuleDecl) (P : TokenKey → Prop) (d d' : Draft) : Prop :=
  d.Lexes rules P → d'.Lexes rules P

instance (rules : List RuleDecl) (P : TokenKey → Prop) : IsPreorder Draft (LexesOn rules P) where
  refl _ := id
  trans _ _ _ h h' := h' ∘ h

end Draft

/-! ## §3 Tokens -/

namespace Build

open Draft (Silently Lexes LexesOn Prepares)

variable {α : Type} {ctx : Declared} {d d₀ : Draft} {rules : List RuleDecl}
  {P : TokenKey → Prop} {t : Term}

theorem yields_onTokens (action : TokenBuild.Action Unit) :
    Yields ctx d (onTokens action) fun _ d' => ∃ progress,
      action ⟨d.tokens, []⟩ = .ok ((), progress) ∧
        Silently ctx.decl { d with tokens := progress.automaton } d' := by
  refine yields_get_bind (yields_check_bind ?_)
  rintro ⟨⟨⟩, progress⟩ hrun
  refine yields_modify_bind fun _ d' h => ⟨progress, hrun, ?_⟩
  exact Along.forM (fun name _ => silently_markUsed name) _ _ d' h

theorem yields_newTerminal_prepares (name : String) (info : NodeInfo) :
    Yields ctx d (newTerminal name info) fun t d' => d.Prepares t d' := by
  have hsame : Yields ctx d (newTerminal name info) fun _ d' =>
      d'.foreignTerms = d.foreignTerms := by
    refine Yields.bind (Q := fun _ d' => d'.foreignTerms = d.foreignTerms)
      (fun t d₁ h => by cases h; rfl) fun t d₁ hd₁ => ?_
    refine (silently_restrictToDialect _ _).yields.bind fun _ d₂ hd₂ => yields_pure ?_
    exact hd₂.foreignTerms_eq.trans hd₁
  exact fun t d' h => ⟨yields_newTerminal_creates name info t d' h, hsame t d' h⟩

/-- What is left to do for a new symbol makes its token, when there is a state for its end. -/
theorem yields_makes (action : Nat → TokenBuild.Action Unit) (key : TokenKey) (a : α)
    (hd : d₀.Prepares t d) : Yields ctx { d with tokens := (d.tokens.addAccepting t).2 } (do
      onTokens (action d.tokens.size)
      rememberToken key t
      return a) fun _ d' => d₀.MakesToken action key t d' := by
  refine (yields_onTokens _).bind ?_
  rintro _ d₁ ⟨progress, hrun, hsilent⟩
  obtain ⟨hsize, htokens, hinstances, -⟩ := hsilent.sparesTokens
  refine yields_modify_bind (yields_pure ?_)
  refine ⟨Nat.le_trans hd.size_le hsize, hd.size_le_index, Nat.lt_of_lt_of_le hd.index_lt hsize,
    hsilent.foreignTerms_eq.trans hd.foreignTerms_eq,
    congrArg (· ++ [⟨key, t⟩]) (hinstances.trans hd.tokenInstances_eq), progress.used, ?_⟩
  rw [← hd.tokens_eq]
  exact htokens.symm ▸ hrun

/-- A literal has a token already, or one is made. -/
theorem yields_literalToken_makes (value : String) : Yields ctx d (literalToken value) fun _ d' =>
    d' = d ∨ ∃ t, d.MakesToken (TokenBuild.addLiteral value tokenStart) (.literal value) t d' := by
  have hnew (info : NodeInfo) : Yields ctx d (newLiteral value info) fun _ d' =>
      d' = d ∨
        ∃ t, d.MakesToken (TokenBuild.addLiteral value tokenStart) (.literal value) t d' := by
    refine (yields_newTerminal_prepares _ _).bind fun t d₁ hd₁ => ?_
    split
    · refine (silently_nameTerm _ t).yields.bind fun _ d₂ hd₂ u d' h => .inr ⟨t, ?_⟩
      exact yields_makes (TokenBuild.addLiteral value tokenStart) _ t (hd₁.trans hd₂) u d' h
    · refine fun u d' h => .inr ⟨t, ?_⟩
      exact yields_makes (TokenBuild.addLiteral value tokenStart) _ t hd₁ u d' h
  refine yields_get_bind ?_
  split
  · exact yields_pure (.inl rfl)
  refine yields_read_bind ?_
  dsimp only
  split
  · exact yields_check_bind fun info _ => hnew info
  · exact yields_pure_bind (hnew {})

/-- A reference has a token already, or is for none, or one is made. -/
theorem yields_token?_makes (start : Nat) (name : String) (args : List Expr) :
    Yields ctx d (token? start name args) fun _ d' => d' = d ∨ ∃ rule t,
      ctx.decl.tokenRules.find? (fun r => r.id.name == name) = some rule ∧
      d.MakesToken (TokenBuild.addRule (TokenBuild.addExpr ctx.decl.tokenRules
        (TokenBuild.fuelFor ctx.decl.tokenRules (.name start name args))) [] [] rule start args
        tokenStart) (.rule name args) t d' := by
  refine yields_get_bind ?_
  split
  · exact yields_pure (.inl rfl)
  refine yields_read_bind ?_
  dsimp only
  split
  next rule hrule =>
    refine yields_check_bind fun info _ => ?_
    refine (yields_newTerminal_prepares _ _).bind fun t d₁ hd₁ => ?_
    refine Yields.when (silently_exportNode info t) fun d₂ hd₂ u d' h => .inr ⟨rule, t, hrule, ?_⟩
    exact yields_makes (TokenBuild.addRule (TokenBuild.addExpr ctx.decl.tokenRules
      (TokenBuild.fuelFor ctx.decl.tokenRules (.name start name args))) [] [] rule start args
      tokenStart) (.rule name args) (some t) (hd₁.trans hd₂) u d' h
  next => exact yields_pure (.inl rfl)

theorem yields_literalToken_lexes (value : String) (hd : d.Lexes rules P) :
    Yields ctx d (literalToken value) fun _ d' => d'.Lexes rules P := by
  intro u d' h
  rcases yields_literalToken_makes value u d' h with rfl | ⟨t, hmakes⟩
  · exact hd
  refine (hmakes.remembers fun p' hrun => ?_).lexes hd
  have hstart : tokenStart < (d.tokens.addAccepting t).2.size := by
    simpa using Nat.lt_succ_of_lt hd.rooted.start_lt
  exact ⟨_, (joins_addLiteral hrun hstart (by simp)).congr (spelled_literal 0 value).symm,
    fun _ => rfl⟩

section

variable (hbodies : ∀ r ∈ ctx.decl.tokenRules, r.body.IsReadable)
  (hregular : ∀ name args rule, P (.rule name args) →
    ctx.decl.tokenRules.find? (fun r => r.id.name == name) = some rule →
      rule.params.length = args.length → IsRegular ctx.decl.tokenRules name args)
include hbodies hregular

theorem yields_token?_lexes (start : Nat) (name : String) (args : List Expr)
    (hd : d.Lexes ctx.decl.tokenRules P) :
    Yields ctx d (token? start name args) fun _ d' => d'.Lexes ctx.decl.tokenRules P := by
  intro u d' h
  rcases yields_token?_makes start name args u d' h with rfl | ⟨rule, t, hrule, hmakes⟩
  · exact hd
  refine (hmakes.remembers fun p' hrun => ?_).lexes hd
  have hstart : tokenStart < (d.tokens.addAccepting t).2.size := by
    simpa using Nat.lt_succ_of_lt hd.rooted.start_lt
  have hend : d.tokens.size < (d.tokens.addAccepting t).2.size := by simp
  by_cases hkey : P (.rule name args)
  · have hlays := lays_reference start hbodies hrule (hregular name args rule hkey hrule) hrun
      hstart hend
    exact ⟨_, hlays.joins hstart hend, fun _ => rfl⟩
  · exact ⟨_, (extends_reference hrun hend).joins hstart hend, fun h => absurd h hkey⟩

/-- If the references of `P` are regular, tokens are read as they are written all along. -/
theorem tracks_lexesOn : Tracks ctx (LexesOn ctx.decl.tokenRules P) where
  spares hspares hd := hd.of_spares hspares
  token start name args _ _ a d' h hd :=
    yields_token?_lexes hbodies hregular start name args hd a d' h
  literal value _ a d' h hd := yields_literalToken_lexes value hd a d' h

end

end Build

/-! ## §4 Grammars -/

/-- The tokens of a grammar text are read as they are written, if the references of `P` are
regular. -/
theorem Blueprint.lexes_of_ofSource {source : Text.Source} {b : Blueprint} {journal : Journal}
    {P : TokenKey → Prop} (h : Blueprint.ofSource source = (.ok b, journal))
    (hregular : ∀ name args rule, P (.rule name args) →
      b.decl.tokenRules.find? (fun r => r.id.name == name) = some rule →
        rule.params.length = args.length → IsRegular b.decl.tokenRules name args) :
    b.draft.Lexes b.decl.tokenRules P :=
  along_of_ofSource h (fun hdecl => Build.tracks_lexesOn hdecl.tokens hregular)
    (Draft.lexes_empty _ _)

/-- The token of a regular reference is read as it is written. -/
theorem Blueprint.path_iff_reference {source : Text.Source} {b : Blueprint} {journal : Journal}
    (h : Blueprint.ofSource source = (.ok b, journal)) {name : String} {args : List Expr}
    (hregular : IsRegular b.decl.tokenRules name args) {i : TokenInstance}
    (hi : i ∈ b.draft.tokenInstances) (hkey : i.key = .rule name args) :
    ∃ q, b.draft.tokens.EndsAt i.term q ∧ ∀ word, b.draft.tokens.Path tokenStart word q ↔
      Spells b.decl.tokenRules (.name 0 name args) word := by
  have hlexes := lexes_of_ofSource (P := (· = .rule name args)) h fun _ _ _ hkey' _ _ => by
    obtain ⟨rfl, rfl⟩ := TokenKey.rule.inj hkey'
    exact hregular
  obtain ⟨q, -, hends, hways⟩ := hlexes.reads i hi
  have hways := hways hkey
  rw [hkey] at hways
  exact ⟨q, hends, fun word => Set.ext_iff.mp hways word⟩

/-- Tokens are compiled exactly: in a grammar text in which no token rule has parameters, each
token ends in a state of its own, and exactly its texts are read on the way there. No state but
these is the end of a token. -/
theorem Blueprint.path_iff_spells {source : Text.Source} {b : Blueprint} {journal : Journal}
    (h : Blueprint.ofSource source = (.ok b, journal))
    (hparams : ∀ r ∈ b.decl.tokenRules, r.params = []) :
    (∀ i ∈ b.draft.tokenInstances, ∃ q, b.draft.tokens.EndsAt i.term q ∧
      ∀ word, b.draft.tokens.Path tokenStart word q ↔
        Spells b.decl.tokenRules i.key.expr word) ∧
    ∀ q, ∀ t ∈ (b.draft.tokens.state q).accepting, ∃ i ∈ b.draft.tokenInstances, i.term = t := by
  have hlexes := lexes_of_ofSource (P := fun _ => True) h fun name args rule _ hrule harity =>
    TokenBuild.isRegular_of_params_nil hparams (List.length_eq_zero_iff.mp
      (harity ▸ congrArg List.length (hparams rule (List.mem_of_find?_eq_some hrule))))
  refine ⟨fun i hi => ?_, hlexes.remembers⟩
  obtain ⟨q, -, hends, hways⟩ := hlexes.reads i hi
  exact ⟨q, hends, fun word => Set.ext_iff.mp (hways trivial) word⟩

/-- A literal, and a token rule that refers to itself at its end. -/
def selfReference : Text.Source :=
  ⟨"", "@top T \x7b A \"!\" \x7d @tokens \x7b A \x7b \"a\" A | $[x-z]? _ \x7d \x7d"⟩

/-- The token of a rule that refers to itself is read as it is written. -/
theorem Blueprint.path_iff_spells_selfReference :
    ∃ b journal, Blueprint.ofSource selfReference = (.ok b, journal) ∧
      (∀ r ∈ b.decl.tokenRules, r.params = []) ∧
      ∃ i ∈ b.draft.tokenInstances, i.key.hasRule "A" = true ∧
        ∃ q, b.draft.tokens.EndsAt i.term q ∧ ∀ word,
          b.draft.tokens.Path tokenStart word q ↔ Spells b.decl.tokenRules i.key.expr word := by
  have hcheck : (ofSource selfReference).1.toOption.any (fun b =>
      b.decl.tokenRules.all (fun r => r.params.isEmpty) &&
        b.draft.tokenInstances.any fun i => i.key.hasRule "A") = true := by
    decide +kernel
  obtain ⟨b, journal, h, hcheck⟩ := exists_ok_fst_of_any hcheck
  rw [Bool.and_eq_true, List.all_eq_true, List.any_eq_true] at hcheck
  obtain ⟨hparams, i, hi, hrule⟩ := hcheck
  have hparams : ∀ r ∈ b.decl.tokenRules, r.params = [] :=
    fun r hr => List.isEmpty_iff.mp (hparams r hr)
  exact ⟨b, journal, h, hparams, i, hi, hrule, (path_iff_spells h hparams).1 i hi⟩

end GrammarCompiler
