/-
GrammarCompiler.Proofs.Confining — what building leaves alone.

Whatever is built between two states of an automaton, new edges only stand between
these ends and new states. So something is read between the ends that does not
depend on what else there is, even where it is not what the text says.

  §1 Parts    — an automaton with a part between two of its states.
  §2 Actions  — actions that go on with such a part.
  §3 Building — building expressions and references is one of them.
-/
import GrammarCompiler.Proofs.Laying
import Mathlib

namespace GrammarCompiler

namespace Nfa

/-! ## §1 Parts -/

variable {a b : Nfa} {s t i m n : Nat}

/-- An end of a part of `a`, or a state that is not in `a`. -/
def IsEnd (a : Nfa) (s i : Nat) : Prop :=
  i = s ∨ a.size ≤ i

/-- `a.Extends s t n b`: the automaton `b` has at least `n` states. It is `a` with new states, and
with edges that lead from `s` and from new states to `t` and to new states. -/
structure Extends (a : Nfa) (s t n : Nat) (b : Nfa) : Prop where
  grows : a.Grows b
  size_le : n ≤ b.size
  empty : ∀ i, ∀ m ∈ (b.state i).empty,
    m ∈ (a.state i).empty ∨ a.IsEnd s i ∧ a.IsEnd t m ∧ m < b.size
  edge : ∀ i, ∀ e ∈ (b.state i).edges,
    e ∈ (a.state i).edges ∨ a.IsEnd s i ∧ a.IsEnd t e.target ∧ e.target < b.size

namespace Extends

theorem refl (a : Nfa) (s t : Nat) : a.Extends s t a.size a where
  grows := .refl a
  size_le := Nat.le_refl _
  empty _ _ hm := .inl hm
  edge _ _ he := .inl he

/-- A new state can be an end of what comes later. -/
theorem isEnd_size (h : a.Extends s t n b) (i : Nat) : a.IsEnd i b.size :=
  .inr h.grows.size_le

theorem mono (h : a.Extends s t n b) (hle : m ≤ n) : a.Extends s t m b where
  __ := h
  size_le := Nat.le_trans hle h.size_le

theorem addState (h : a.Extends s t n b) : a.Extends s t (b.size + 1) b.addState.2 where
  grows := h.grows.trans (grows_addState b)
  size_le := by simp
  empty i m hm := by
    rw [state_addState] at hm
    refine (h.empty i m hm).imp_right fun ⟨hi, hend, hlt⟩ => ⟨hi, hend, ?_⟩
    simpa using Nat.lt_succ_of_lt hlt
  edge i e he := by
    rw [state_addState] at he
    refine (h.edge i e he).imp_right fun ⟨hi, hend, hlt⟩ => ⟨hi, hend, ?_⟩
    simpa using Nat.lt_succ_of_lt hlt

theorem ite {c : Nfa} {p : Prop} {_ : Decidable p} (h : a.Extends s t n b)
    (h' : a.Extends s t n c) : a.Extends s t n (if p then b else c) := by
  split
  · exact h
  · exact h'

section

variable (hi : a.IsEnd s i) (hm : a.IsEnd t m) (hlt : m < n)
include hi hm hlt

theorem addEdge (h : a.Extends s t n b) (lo hi : Nat) : a.Extends s t n (b.addEdge i lo hi m) where
  grows := h.grows.trans (grows_addEdge _ _ _ _ _)
  size_le := by simpa using h.size_le
  empty j k hk := by
    rw [size_addEdge]
    exact h.empty j k (by simpa using hk)
  edge j e he := by
    rw [size_addEdge]
    rcases mem_edges_addEdge.mp he with he | ⟨⟨rfl, -⟩, rfl⟩
    · exact h.edge j e he
    · exact .inr ⟨‹_›, hm, Nat.lt_of_lt_of_le hlt h.size_le⟩

theorem addEmpty (h : a.Extends s t n b) : a.Extends s t n (b.addEmpty i m) where
  grows := h.grows.trans (grows_addEmpty _ _ _)
  size_le := by simpa using h.size_le
  empty j k hk := by
    rw [size_addEmpty]
    rcases mem_empty_addEmpty.mp hk with hk | ⟨⟨rfl, -⟩, rfl⟩
    · exact h.empty j k hk
    · exact .inr ⟨hi, hm, Nat.lt_of_lt_of_le hlt h.size_le⟩
  edge j e he := by
    rw [size_addEmpty]
    exact h.edge j e (by simpa using he)

theorem addPair (h : a.Extends s t n b) (highLo highHi lowLo lowHi : Nat) :
    a.Extends s t n (b.addPair i m highLo highHi lowLo lowHi) := by
  have hle : n ≤ b.size + 1 := Nat.le_succ_of_le h.size_le
  have hmiddle : a.Extends s t (b.size + 1) (b.addState.2.addEdge i highLo highHi b.size) :=
    addEdge hi (h.isEnd_size t) (Nat.lt_succ_self _) h.addState _ _
  exact (addEdge (h.isEnd_size s) hm (Nat.lt_of_lt_of_le hlt hle) hmiddle _ _).mono hle

theorem addBasicRange (h : a.Extends s t n b) (lo hi : Nat) :
    a.Extends s t n (b.addBasicRange i m lo hi) := by
  have hlow : a.Extends s t n (if lo < 0xd800 then b.addEdge i lo (min hi 0xd800) m else b) :=
    .ite (h.addEdge ‹_› hm hlt _ _) h
  exact .ite (hlow.addEdge ‹_› hm hlt _ _) hlow

theorem addAstralRange (h : a.Extends s t n b) (lo hi : Nat) :
    a.Extends s t n (b.addAstralRange i m lo hi) := by
  have hpair {b : Nfa} {p : Prop} {_ : Decidable p} (h : a.Extends s t n b)
      (highLo highHi lowLo lowHi : Nat) :
      a.Extends s t n (if p then b.addPair i m highLo highHi lowLo lowHi else b) :=
    .ite (h.addPair ‹_› hm hlt _ _ _ _) h
  exact .ite (h.addPair ‹_› hm hlt _ _ _ _) (hpair (hpair (hpair h _ _ _ _) _ _ _ _) _ _ _ _)

theorem addRange (h : a.Extends s t n b) (lo hi : Nat) :
    a.Extends s t n (b.addRange i m lo hi) := by
  have hbasic : a.Extends s t n (if lo < 0x10000 then b.addBasicRange i m lo hi else b) :=
    .ite (h.addBasicRange ‹_› hm hlt _ _) h
  exact .ite hbasic (hbasic.addAstralRange ‹_› hm hlt _ _)

theorem addAny (h : a.Extends s t n b) : a.Extends s t n (b.addAny i m) := by
  have hle : n ≤ b.size + 1 := Nat.le_succ_of_le h.size_le
  have hlt' := Nat.lt_of_lt_of_le hlt hle
  have hunits := ((h.addState.addEdge hi hm hlt' 0 0xdc00).addEdge hi hm hlt' 0xdc00 0x10000)
  have hmiddle := hunits.addEdge hi (h.isEnd_size t) (Nat.lt_succ_self _) 0xd800 0xdc00
  exact (hmiddle.addEdge (h.isEnd_size s) hm hlt' 0xdc00 0xe000).mono hle

end

end Extends

/-- A part joins its ends with what can be read between them in the end. -/
theorem Extends.joins (h : a.Extends s t n b) (hs : s < a.size) (ht : t < a.size) :
    a.Joins s t (b.ways s t) b where
  grows := h.grows
  reads _ hpath := hpath
  admits L hL hle := by
    -- From a new state on, what leads to the end is left to read.
    let L' (q : Nat) : Language Nat := if q < a.size then L q else b.ways q t * L t
    have hold (q : Nat) (hq : q < a.size) : L' q = L q := if_pos hq
    have hsource {i : Nat} (hi : a.IsEnd s i) : b.ways i t * L t ≤ L' i := by
      rcases hi with rfl | hi
      · rwa [hold i hs]
      · exact (if_neg (Nat.not_lt.mpr hi)).ge
    have htarget {m : Nat} (hm : a.IsEnd t m) : L' m ≤ b.ways m t * L t := by
      rcases hm with rfl | hm
      · rw [hold m ht]
        simpa using mul_le_mul_left (one_le_ways_self b m) (L m)
      · exact (if_neg (Nat.not_lt.mpr hm)).le
    refine ⟨L', hold, ⟨fun i m hm => ?_, fun i e he => ?_⟩⟩
    · rcases h.empty i m hm with hm' | ⟨hi, hend, hlt⟩
      · obtain ⟨hlt, hread⟩ := hL.empty i m hm'
        rw [hold m hlt, hold i (lt_size_of_mem_empty hm')]
        exact ⟨Nat.lt_of_lt_of_le hlt h.grows.size_le, hread⟩
      · have hstep : b.ways m t ≤ b.ways i t := fun _ hpath => .empty hm hpath
        exact ⟨hlt, (htarget hend).trans ((mul_le_mul_left hstep _).trans (hsource hi))⟩
    · rcases h.edge i e he with he' | ⟨hi, hend, hlt⟩
      · obtain ⟨hlt, hread⟩ := hL.edge i e he'
        rw [hold _ hlt, hold i (lt_size_of_mem_edges he')]
        exact ⟨Nat.lt_of_lt_of_le hlt h.grows.size_le, hread⟩
      · refine ⟨hlt, fun u hlo hhi word hword => hsource hi ?_⟩
        obtain ⟨first, hfirst, later, hlater, rfl⟩ := Language.mem_mul.mp (htarget hend hword)
        have hpath : u :: first ∈ b.ways i t := .edge he hlo hhi hfirst
        exact Language.append_mem_mul hpath hlater

end Nfa

namespace TokenBuild

open Nfa (IsEnd Extends)

/-! ## §2 Actions -/

section

variable {α β : Type} {I : Nfa → Prop}

/-- An action that keeps what holds of the automaton. -/
def Preserves (I : Nfa → Prop) (m : Action α) : Prop :=
  ∀ ⦃p x p'⦄, m p = .ok (x, p') → I p.automaton → I p'.automaton

namespace Preserves

theorem pure (x : α) : Preserves I (Pure.pure x : Action α) := by
  rintro _ _ _ ⟨⟩ h
  exact h

theorem bind {m : Action α} {f : α → Action β} (hm : Preserves I m)
    (hf : ∀ x, Preserves I (f x)) : Preserves I (m >>= f) := by
  intro p y p' hrun h
  obtain ⟨x, p₁, h₁, h₂⟩ := exists_ok_of_stateT_bind hrun
  exact hf x h₂ (hm h₁ h)

theorem fail (fault : GrammarFault) (start : Nat) :
    Preserves I (TokenBuild.fail fault start : Action α) := by
  rintro _ _ _ ⟨⟩

theorem fail_bind (fault : GrammarFault) (start : Nat) (f : α → Action β) :
    Preserves I (TokenBuild.fail fault start >>= f) := by
  rintro _ _ _ ⟨⟩

theorem change {f : Nfa → Nfa} (hf : ∀ a, I a → I (f a)) :
    Preserves I (TokenBuild.change f) := by
  intro p _ _ hrun h
  rw [change_ok hrun]
  exact hf _ h

/-- It is remembered that a rule is used. -/
theorem use (name : String) :
    Preserves I (modify fun p => { p with used := name :: p.used } : Action PUnit) := by
  rintro _ _ _ ⟨⟩ h
  exact h

theorem forM {l : List α} {f : α → Action PUnit} (hf : ∀ x ∈ l, Preserves I (f x)) :
    Preserves I (l.forM f) := by
  induction l with
  | nil => exact .pure _
  | cons x l ih =>
    obtain ⟨hx, hl⟩ := List.forall_mem_cons.mp hf
    exact hx.bind fun _ => ih hl

end Preserves

end

/-- An action that goes on with a part of `a` between `s` and `t`, if there are `n` states. -/
abbrev GoesOn {α : Type} (a : Nfa) (s t n : Nat) (m : Action α) : Prop :=
  Preserves (a.Extends s t n) m

namespace GoesOn

variable {α β : Type} {a : Nfa} {s t i m n : Nat}

theorem addEmpty (hi : a.IsEnd s i) (hm : a.IsEnd t m) (hlt : m < n) :
    GoesOn a s t n (TokenBuild.change fun b => b.addEmpty i m) :=
  .change fun _ h => h.addEmpty hi hm hlt

/-- From a new state on, there is one more state that can be an end. -/
theorem newState_bind {f : Nat → Action β}
    (hf : ∀ x, n ≤ x → (∀ i, a.IsEnd i x) → GoesOn a s t (x + 1) (f x)) :
    GoesOn a s t n (newState >>= f) := by
  intro p y p' hrun h
  obtain ⟨x, p₁, hnew, hrun⟩ := exists_ok_of_stateT_bind hrun
  obtain ⟨rfl, hp₁⟩ := newState_ok hnew
  have hle : n ≤ p.automaton.size + 1 := Nat.le_succ_of_le h.size_le
  exact (hf _ h.size_le h.isEnd_size hrun (hp₁ ▸ h.addState)).mono hle

theorem chain {build : α → Nat → Nat → Action Unit} {l : List α}
    (hbuild : ∀ x ∈ l, ∀ i m n', n ≤ n' → a.IsEnd s i → a.IsEnd t m → m < n' →
      GoesOn a s t n' (build x i m))
    (hi : a.IsEnd s i) (hm : a.IsEnd t m) (hlt : m < n) :
    GoesOn a s t n (TokenBuild.chain build l i m) := by
  induction l generalizing i n with
  | nil => exact .pure _
  | cons x l ih =>
    obtain ⟨hx, hl⟩ := List.forall_mem_cons.mp hbuild
    cases l with
    | nil => exact hx i m n (Nat.le_refl n) hi hm hlt
    | cons y l =>
      refine newState_bind fun next hle hnext => ?_
      refine (hx i next _ (by omega) hi (hnext t) (Nat.lt_succ_self next)).bind fun _ => ?_
      refine ih (fun z hz i m n' hle' => hl z hz i m n' (by omega)) (hnext s) (by omega)

end GoesOn

/-! ## §3 Building -/

variable {a : Nfa} {s t i m n : Nat}

theorem goesOn_addLiteral (hi : a.IsEnd s i) (hm : a.IsEnd t m) (hlt : m < n) (value : String) :
    GoesOn a s t n (addLiteral value i m) := by
  unfold addLiteral
  split
  · exact .addEmpty hi hm hlt
  · exact .chain (fun _ _ _ _ _ _ hi hm hlt => .change fun _ h => h.addEdge hi hm hlt _ _)
      hi hm hlt

theorem goesOn_addRanges (hi : a.IsEnd s i) (hm : a.IsEnd t m) (hlt : m < n)
    (ranges : List CodeRange) : GoesOn a s t n (addRanges ranges i m) :=
  .forM fun _ _ => .change fun _ h => h.addRange hi hm hlt _ _

/-- A reference leads back to where an open rule begins, or the rule is built from a new state
on. -/
theorem goesOn_addRule (hi : a.IsEnd s i) (hlt : m < n)
    {again : List OpenRule → List Binding → Expr → Nat → Nat → Action Unit}
    {building : List OpenRule} (hbuilding : ∀ r ∈ building, a.IsEnd t r.entry ∧ r.entry < n)
    (hagain : ∀ building scope e i n, (∀ r ∈ building, a.IsEnd t r.entry ∧ r.entry < n) →
      a.IsEnd s i → m < n → GoesOn a s t n (again building scope e i m))
    (scope : List Binding) (rule : RuleDecl) (start : Nat) (args : List Expr) :
    GoesOn a s t n (addRule again building scope rule start args i m) := by
  unfold addRule
  dsimp only
  split
  · exact .fail_bind _ _ _
  split
  next r hfound =>
    obtain ⟨hentry, hsize⟩ := hbuilding r (List.mem_of_find?_eq_some hfound)
    split
    · exact .addEmpty hi hentry hsize
    · exact .fail _ _
  next =>
    refine (Preserves.use _).bind fun _ => GoesOn.newState_bind fun entry hle hentry => ?_
    refine (GoesOn.addEmpty hi (hentry t) (Nat.lt_succ_self entry)).bind fun _ => ?_
    refine hagain _ _ _ _ _ (List.forall_mem_cons.mpr ⟨⟨hentry t, Nat.lt_succ_self entry⟩, ?_⟩)
      (hentry s) (by omega)
    exact fun r hr => (hbuilding r hr).imp_right fun h => by omega

/-- Building an expression goes on with a part. -/
theorem goesOn_addExpr (rules : List RuleDecl) (fuel : Nat) {building : List OpenRule}
    (hbuilding : ∀ r ∈ building, a.IsEnd t r.entry ∧ r.entry < n) (scope : List Binding)
    (e : Expr) (hi : a.IsEnd s i) (hm : a.IsEnd t m) (hlt : m < n) :
    GoesOn a s t n (addExpr rules fuel building scope e i m) := by
  -- With each new state that becomes an end, there are more states for what comes later.
  induction fuel generalizing building scope e i m n with
  | zero => exact .fail _ _
  | succ fuel ih =>
    have hlater {next : Nat} (hle : n ≤ next) :
        ∀ r ∈ building, a.IsEnd t r.entry ∧ r.entry < next + 1 :=
      fun r hr => (hbuilding r hr).imp_right fun h => by omega
    cases e with
    | name start name args =>
      rw [addExpr]
      split
      · split
        · exact ih hbuilding _ _ hi hm hlt
        · exact .fail _ _
      · split
        · exact goesOn_addRule hi hlt hbuilding
            (fun _ _ _ _ _ hbuilding hi hlt => ih hbuilding _ _ hi hm hlt) _ _ _ _
        · exact .fail _ _
    | charClass start cls =>
      rw [addExpr]
      split
      · exact .fail _ _
      · exact goesOn_addRanges hi hm hlt _
    | choice start alternatives =>
      rw [addExpr]
      exact .forM fun e _ => ih hbuilding scope e hi hm hlt
    | sequence start elements markers =>
      rw [addExpr]
      split
      · exact .fail _ _
      · split
        · exact .addEmpty hi hm hlt
        · refine .chain (fun e _ i m n' hle hi hm hlt => ih (fun r hr => ?_) scope e hi hm hlt)
            hi hm hlt
          exact (hbuilding r hr).imp_right fun h => by omega
    | repeated start body kind =>
      have hlt' {next : Nat} (hle : n ≤ next) : m < next + 1 := by omega
      cases kind with
      | star =>
        rw [addExpr]
        refine GoesOn.newState_bind fun loop hle hloop => ?_
        refine (GoesOn.addEmpty hi (hloop t) (Nat.lt_succ_self loop)).bind fun _ => ?_
        refine (ih (hlater hle) scope body (hloop s) (hloop t) (Nat.lt_succ_self loop)).bind
          fun _ => ?_
        exact GoesOn.addEmpty (hloop s) hm (hlt' hle)
      | plus =>
        rw [addExpr]
        refine GoesOn.newState_bind fun loop hle hloop => ?_
        refine (ih (hlater hle) scope body hi (hloop t) (Nat.lt_succ_self loop)).bind fun _ => ?_
        refine (ih (hlater hle) scope body (hloop s) (hloop t) (Nat.lt_succ_self loop)).bind
          fun _ => ?_
        exact GoesOn.addEmpty (hloop s) hm (hlt' hle)
      | optional =>
        rw [addExpr]
        exact (GoesOn.addEmpty hi hm hlt).bind fun _ => ih hbuilding scope body hi hm hlt
    | set start ranges inverted =>
      rw [addExpr]
      exact goesOn_addRanges hi hm hlt _
    | literal start value =>
      rw [addExpr]
      exact goesOn_addLiteral hi hm hlt _
    | any start =>
      rw [addExpr]
      exact .change fun _ h => h.addAny hi hm hlt
    | specialize start kind token content props =>
      rw [addExpr]
      exact .fail _ _
    | inlineRule start props body =>
      rw [addExpr]
      exact .fail _ _

/-- What is built for a reference is a part of the automaton. -/
theorem extends_reference {rules : List RuleDecl} {fuel : Nat} {rule : RuleDecl} {start : Nat}
    {args : List Expr} {p p' : Progress}
    (h : addRule (addExpr rules fuel) [] [] rule start args s t p = .ok ((), p'))
    (ht : t < p.automaton.size) : p.automaton.Extends s t p.automaton.size p'.automaton :=
  goesOn_addRule (.inl rfl) ht (List.forall_mem_nil _)
    (fun _ _ _ _ _ hbuilding hi hlt => goesOn_addExpr rules fuel hbuilding _ _ hi (.inl rfl) hlt)
    _ _ _ _ h (.refl _ s t)

/-- What is built for a literal is a part of the automaton. -/
theorem extends_literal {value : String} {p p' : Progress}
    (h : addLiteral value s t p = .ok ((), p')) (ht : t < p.automaton.size) :
    p.automaton.Extends s t p.automaton.size p'.automaton :=
  goesOn_addLiteral (.inl rfl) (.inl rfl) ht value h (.refl _ s t)

end TokenBuild

end GrammarCompiler
