/-
GrammarCompiler.Proofs.Building — a build without its notes.

A build goes through stages that can fail, and notes what it does on the way. The
notes never change what comes of it: what a text is compiled to, tables or an error,
is what its stages come to one after another (`compileTables_fst`). Builds that
succeed are put together from what their stages give (`Blueprint.build_eq_ok_iff`).

  §1 Steps  — what comes of a step, whatever was noted before.
  §2 Stages — the stages of a build, and what they begin with.
  §3 Builds — what comes of all stages.
-/
import GrammarCompiler.Proofs.Lists
import GrammarCompiler.Proofs.Simplifying

namespace GrammarCompiler

/-! ## §1 Steps -/

namespace Compile

variable {α β : Type} {a : α} {b : β}

/-- What comes of a step: its result, or its error. -/
def outcome : EStateM.Result BuildError Journal α → Except BuildError α
  | .ok a _ => .ok a
  | .error e _ => .error e

/-- This comes of a step, whatever was noted before. -/
def Gives (m : Stage α) (r : Except BuildError α) : Prop :=
  ∀ j, outcome (m j) = r

theorem outcome_eq_ok_iff {x : EStateM.Result BuildError Journal α} :
    outcome x = .ok a ↔ ∃ j, x = .ok a j := by
  cases x with
  | ok a' j => simp [outcome]
  | error e j => simp [outcome]

theorem gives_pure (a : α) : Gives (pure a) (.ok a) :=
  fun _ => rfl

theorem gives_throw (e : BuildError) : Gives (throw e : Stage α) (.error e) :=
  fun _ => rfl

theorem gives_note (e : Event) : Gives (note e) (.ok ()) :=
  fun _ => rfl

theorem gives_done (r : Except BuildError α) : Gives (done r) r := by
  cases r with
  | ok a => exact gives_pure a
  | error e => exact gives_throw e

theorem Gives.bind {m : Stage α} {f : α → Stage β} {r : Except BuildError α}
    {k : α → Except BuildError β} (hm : Gives m r) (hf : ∀ a, Gives (f a) (k a)) :
    Gives (m >>= f) (r >>= k) := by
  intro j
  change outcome (EStateM.bind m f j) = _
  rw [EStateM.bind, ← hm j]
  cases m j with
  | ok a j₁ => exact hf a j₁
  | error e j₁ => rfl

/-- After a step that cannot fail comes what comes of the next one. -/
theorem Gives.andThen {m : Stage α} {f : α → Stage β} {r : Except BuildError β}
    (hm : Gives m (.ok a)) (hf : Gives (f a) r) : Gives (m >>= f) r := by
  intro j
  obtain ⟨j₁, h₁⟩ := outcome_eq_ok_iff.mp (hm j)
  change outcome (EStateM.bind m f j) = _
  rw [EStateM.bind, h₁]
  exact hf j₁

theorem gives_forM {items : List α} {f : α → Stage Unit} (h : ∀ x, Gives (f x) (.ok ())) :
    Gives (items.forM f) (.ok ()) := by
  induction items with
  | nil => exact gives_pure ()
  | cons x items ih => exact (h x).andThen ih

theorem gives_firstTable (g : Grammar) : Gives (firstTable g) (.ok (FirstTable.ofGrammar g)) :=
  (gives_forM fun _ => gives_note _).andThen (gives_pure _)

theorem gives_tokenizer_bind {d : Draft} {f : Dfa → Stage β} {k : Dfa → Except BuildError β}
    (hf : ∀ dfa, Gives (f dfa.minimize) (k dfa)) :
    Gives (tokenizer d >>= f) (d.tokens.compile Draft.tokenStart d.terms >>= k) := by
  rw [tokenizer, bind_assoc]
  refine (gives_done _).bind fun dfa => ?_
  rw [bind_assoc]
  exact (gives_note _).andThen ((gives_pure _).andThen (hf dfa))

/-- States that are put together, unless too many of them are left. -/
def shrunk (g : Grammar) (states : Automaton) : Except BuildError Automaton :=
  let automaton := mergeIdentical g (collapse g states).1
  if 0xffff < automaton.size then .error (.capacity (.states automaton.size)) else .ok automaton

theorem shrunk_eq_ok_iff {g : Grammar} {states automaton : Automaton} :
    shrunk g states = .ok automaton ↔
      automaton = mergeIdentical g (collapse g states).1 ∧ automaton.size ≤ 0xffff := by
  rw [shrunk]
  generalize mergeIdentical g (collapse g states).1 = merged
  split
  next hsize =>
    refine ⟨nofun, ?_⟩
    rintro ⟨rfl, hle⟩
    omega
  next hsize =>
    rw [Except.ok.injEq]
    constructor
    · rintro rfl
      exact ⟨rfl, Nat.le_of_not_lt hsize⟩
    · rintro ⟨rfl, -⟩
      rfl

theorem gives_shrink (g : Grammar) (states : Automaton) :
    Gives (shrink g states) (shrunk g states) := by
  rw [shrink, shrunk]
  generalize collapse g states = result
  refine (gives_forM fun _ => gives_note _).andThen ((gives_note _).andThen ?_)
  refine (gives_forM fun _ => gives_note _).andThen ?_
  split
  · exact gives_throw _
  · exact gives_pure _

end Compile

/-! ## §2 Stages -/

namespace Blueprint

/-- The rules of a draft, simplified. -/
def simplified (b : Blueprint) : List Rule :=
  let d := b.draft
  let inlined := Inlining.ofRules d.terms (d.skipTerms ++ d.terms.tops) d.rules.length d.rules
  (Merging.merge d.terms inlined.ruleCount inlined.rules).1

/-- The grammar of the simplified rules. -/
def wholeGrammar (b : Blueprint) (numbering : Numbering) : Grammar :=
  { terms := b.draft.terms, numbering, rules := b.simplified }

/-- What is skipped, in this grammar. -/
def skipping (b : Blueprint) (numbering : Numbering) : Skipping :=
  let g := b.wholeGrammar numbering
  .ofTerms g (FirstTable.ofGrammar g) b.draft.skipTerms

/-- The grammar without the rules that need no states. -/
def prunedGrammar (b : Blueprint) (numbering : Numbering) : Grammar :=
  (b.skipping numbering).prune (b.wholeGrammar numbering)

/-- The stages of a build that lead to the numbers of its tokenizer. -/
structure TokenStages (b : Blueprint) (words : List Nat) where
  numbering : Numbering
  full : Automaton
  compiled : Dfa
  groups : TokenGroups
  precedence : List Term
  numbered : Numbering.ofRules b.draft.terms b.simplified = .ok numbering
  built : fullAutomaton (b.prunedGrammar numbering)
    (FirstTable.ofGrammar (b.prunedGrammar numbering))
    (b.draft.terms.tops ++ (b.skipping numbering).withStates) b.draft.noSkip = .ok full
  compiles : b.draft.tokens.compile Draft.tokenStart b.draft.terms = .ok compiled
  grouped : TokenGroups.ofAutomaton (b.prunedGrammar numbering) b.draft.origins
    (b.skipping numbering) b.ranks b.conflicts compiled.minimize full = .ok groups
  ranked : TokenRank.order (b.prunedGrammar numbering).name b.ranks groups.soft = .ok precedence
  written : compiled.minimize.toWords numbering.id
    (fun id => (TokenGroups.masks (b.prunedGrammar numbering) groups.groups)[id]?.getD 0)
    (precedence.map numbering.id) = .ok words

namespace TokenStages

variable {b : Blueprint} {words : List Nat} (x : b.TokenStages words)

/-- The grammar that the automaton is for. -/
def grammar : Grammar :=
  b.prunedGrammar x.numbering

/-- What can be skipped. -/
def skips : Skipping :=
  b.skipping x.numbering

/-- What the stages are put together to. -/
def assembly : Assembly where
  blueprint := b
  grammar := x.grammar
  skips := x.skips
  groups := x.groups.groups
  precedence := x.precedence
  tokenData := words
  automaton := mergeIdentical x.grammar (collapse x.grammar x.groups.states).1

theorem automaton_assembly :
    x.assembly.automaton = mergeIdentical x.grammar (collapse x.grammar x.groups.states).1 := by
  rw [assembly]

end TokenStages

/-- A build without notes. -/
def build (b : Blueprint) : Except BuildError Assembly := do
  let numbering ← Numbering.ofRules b.draft.terms b.simplified
  let g := b.prunedGrammar numbering
  let skips := b.skipping numbering
  let full ← fullAutomaton g (FirstTable.ofGrammar g) (b.draft.terms.tops ++ skips.withStates)
    b.draft.noSkip
  let dfa ← b.draft.tokens.compile Draft.tokenStart b.draft.terms
  let groups ← TokenGroups.ofAutomaton g b.draft.origins skips b.ranks b.conflicts dfa.minimize full
  let precedence ← TokenRank.order g.name b.ranks groups.soft
  let masks := TokenGroups.masks g groups.groups
  let tokenData ← dfa.minimize.toWords g.id (fun id => masks[id]?.getD 0) (precedence.map g.id)
  let automaton ← Compile.shrunk g groups.states
  return { blueprint := b, grammar := g, skips, groups := groups.groups, precedence, tokenData,
           automaton }

/-- A build succeeds exactly if its stages do and leave no more states than can be
numbered. -/
theorem build_eq_ok_iff {b : Blueprint} {a : Assembly} :
    b.build = .ok a ↔
      ∃ words, ∃ x : b.TokenStages words, a = x.assembly ∧ a.automaton.size ≤ 0xffff := by
  constructor
  · intro h
    obtain ⟨numbering, numbered, h⟩ := exists_ok_of_bind h
    obtain ⟨full, built, h⟩ := exists_ok_of_bind h
    obtain ⟨compiled, compiles, h⟩ := exists_ok_of_bind h
    obtain ⟨groups, grouped, h⟩ := exists_ok_of_bind h
    obtain ⟨precedence, ranked, h⟩ := exists_ok_of_bind h
    obtain ⟨words, written, h⟩ := exists_ok_of_bind h
    obtain ⟨automaton, shrinks, h⟩ := exists_ok_of_bind h
    obtain ⟨hautomaton, hsize⟩ := Compile.shrunk_eq_ok_iff.mp shrinks
    cases h
    refine ⟨words, ⟨numbering, full, compiled, groups, precedence, numbered, built, compiles,
      grouped, ranked, written⟩, ?_, hsize⟩
    rw [TokenStages.assembly]
    simp only [hautomaton, TokenStages.grammar, TokenStages.skips]
  · rintro ⟨words, x, rfl, hsize⟩
    have shrinks : Compile.shrunk x.grammar x.groups.states = .ok x.assembly.automaton :=
      Compile.shrunk_eq_ok_iff.mpr ⟨x.automaton_assembly, hsize⟩
    rw [TokenStages.grammar] at shrinks
    have hid : (b.prunedGrammar x.numbering).id = x.numbering.id := rfl
    simp only [build, bind, Except.bind, x.numbered, x.built, x.compiles, x.grouped, x.ranked,
      hid, x.written, shrinks]
    simp only [pure, Except.pure, TokenStages.assembly, TokenStages.grammar, TokenStages.skips]

/-- What the automaton and the tokens of a build are made from. -/
structure Basis where
  grammar : Grammar
  skips : Skipping
  tops : List Term
  noSkip : Term
  origins : TokenOrigins
  ranks : List TokenRank
  conflicts : List (Term × Term)
  tokens : Dfa
deriving DecidableEq

/-- What a build begins with. -/
def basis (b : Blueprint) : Except BuildError Basis := do
  let numbering ← Numbering.ofRules b.draft.terms b.simplified
  let tokens ← b.draft.tokens.compile Draft.tokenStart b.draft.terms
  return { grammar := b.prunedGrammar numbering, skips := b.skipping numbering,
           tops := b.draft.terms.tops, noSkip := b.draft.noSkip, origins := b.draft.origins,
           ranks := b.ranks, conflicts := b.conflicts, tokens }

/-- A build of a blueprint from what it begins with. -/
def Basis.build (x : Basis) (b : Blueprint) : Except BuildError Assembly := do
  let g := x.grammar
  let full ← fullAutomaton g (FirstTable.ofGrammar g) (x.tops ++ x.skips.withStates) x.noSkip
  let groups ← TokenGroups.ofAutomaton g x.origins x.skips x.ranks x.conflicts x.tokens.minimize
    full
  let precedence ← TokenRank.order g.name x.ranks groups.soft
  let masks := TokenGroups.masks g groups.groups
  let tokenData ← x.tokens.minimize.toWords g.id (fun id => masks[id]?.getD 0)
    (precedence.map g.id)
  let automaton ← Compile.shrunk g groups.states
  return { blueprint := b, grammar := g, skips := x.skips, groups := groups.groups, precedence,
           tokenData, automaton }

/-- Of a blueprint only this matters for its build. -/
theorem build_eq_of_basis {b : Blueprint} {x : Basis} (h : b.basis = .ok x) :
    b.build = x.build b := by
  obtain ⟨numbering, numbered, h⟩ := exists_ok_of_bind h
  obtain ⟨tokens, compiles, h⟩ := exists_ok_of_bind h
  cases h
  simp only [build, Basis.build, numbered, compiles, bind, Except.bind]

end Blueprint

/-! ## §3 Builds -/

namespace Compile

theorem gives_simplify (b : Blueprint) : Gives (simplify b.draft) (.ok b.simplified) :=
  (gives_forM fun _ => gives_note _).andThen ((gives_note _).andThen (gives_pure _))

/-- Notes do not change what comes of a build. -/
theorem gives_assembly (b : Blueprint) : Gives (assembly b) b.build := by
  refine (gives_simplify b).andThen ((gives_done _).bind fun numbering => ?_)
  refine (gives_firstTable _).andThen ((gives_firstTable _).andThen ?_)
  refine (gives_done _).bind fun full => (gives_note _).andThen ((gives_note _).andThen ?_)
  refine gives_tokenizer_bind fun dfa => (gives_done _).bind fun groups => ?_
  refine (gives_note _).andThen ((gives_done _).bind fun precedence => ?_)
  exact (gives_done _).bind fun words => (gives_shrink _ _).bind fun automaton => gives_pure _

theorem gives_tables (b : Blueprint) : Gives (tables b) (b.build >>= Assembly.tables) := by
  refine (gives_assembly b).bind fun a j => ?_
  refine Eq.trans ?_ (bind_pure a.tables)
  exact (gives_done a.tables).bind (k := pure) (fun t => (gives_note _).andThen (gives_pure t)) j

/-- A build that succeeds has gone through its stages. -/
theorem exists_stages {b : Blueprint} {a : Assembly} {j j' : Journal}
    (h : assembly b j = .ok a j') :
    ∃ words, ∃ x : b.TokenStages words, a = x.assembly ∧ a.automaton.size ≤ 0xffff := by
  refine Blueprint.build_eq_ok_iff.mp ?_
  rw [← gives_assembly b j, h, outcome]

end Compile

/-- What a text is compiled to is what its stages come to. -/
theorem compileTables_fst (source : Text.Source) :
    (compileTables source).1 = (do (← (← (Blueprint.ofSource source).1).build).tables) := by
  rw [compileTables]
  rcases Blueprint.ofSource source with ⟨_ | b, j⟩
  · rfl
  · have hgives : Compile.Gives (Compile.tables b) (b.build >>= Assembly.tables) :=
      Compile.gives_tables b
    change _ = b.build >>= Assembly.tables
    rw [← hgives j]
    dsimp only [EStateM.run]
    cases Compile.tables b j <;> rfl

/-- Tables that a text is compiled to are those of its build. -/
theorem exists_assembly_of_compileTables {source : Text.Source} {t : ParserTables}
    {journal : Journal} (h : compileTables source = (.ok t, journal)) :
    ∃ b j a j', Blueprint.ofSource source = (.ok b, j) ∧ Compile.assembly b j = .ok a j' ∧
      a.tables = .ok t := by
  have hresult := compileTables_fst source
  rw [h] at hresult
  obtain ⟨b, hsource, hresult⟩ := exists_ok_of_bind hresult.symm
  obtain ⟨a, hbuild, htables⟩ := exists_ok_of_bind hresult
  obtain ⟨j', hassembly⟩ := Compile.outcome_eq_ok_iff.mp
    ((Compile.gives_assembly b (Blueprint.ofSource source).2).trans hbuild)
  exact ⟨b, (Blueprint.ofSource source).2, a, j', Prod.ext hsource rfl, hassembly, htables⟩

/-- A text is compiled to the tables of its build. -/
theorem exists_compileTables {source : Text.Source} {b : Blueprint} {j : Journal} {a : Assembly}
    {t : ParserTables} (hsource : Blueprint.ofSource source = (.ok b, j)) (hbuild : b.build = .ok a)
    (htables : a.tables = .ok t) : ∃ journal, compileTables source = (.ok t, journal) := by
  refine ⟨(compileTables source).2, Prod.ext ?_ rfl⟩
  rw [compileTables_fst, hsource]
  simp only [bind, Except.bind, hbuild, htables]

/-- A text has only one build. -/
theorem Compile.eq_of_assembly {source : Text.Source} {b b' : Blueprint} {j j' j₁ : Journal}
    {a a' : Assembly} (hsource : Blueprint.ofSource source = (.ok b, j)) (hbuild : b.build = .ok a)
    (hsource' : Blueprint.ofSource source = (.ok b', j')) (h : assembly b' j' = .ok a' j₁) :
    a' = a := by
  rw [hsource] at hsource'
  cases hsource'
  have hgives := gives_assembly b j
  rw [h, hbuild] at hgives
  exact Except.ok.inj hgives

end GrammarCompiler
