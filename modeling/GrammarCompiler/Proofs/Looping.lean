/-
GrammarCompiler.Proofs.Looping — loops over an input, round by round.

A grammar text is read in loops: characters up to the end of a string, items up
to a closing bracket. Each is a recursion that takes one round and then either
goes on with what is left of the input or has its result. What every round does
is what the whole loop does, as long as rounds that go on leave less to read.

  §1 Answers — what a computation on an input ends with.
  §2 Loops   — rounds, progress, and the rule for whole loops.
-/
import GrammarCompiler.Declaration.Lexer

namespace GrammarCompiler

variable {ι σ α β : Type}

/-! ## §1 Answers -/

/-- An answer and what is left of the input are as asked for, or an error is as
allowed. -/
def Concludes (Q : α → ι → Prop) (E : SyntaxError → Prop) : Except SyntaxError (α × ι) → Prop
  | .ok (x, rest) => Q x rest
  | .error e => E e

section

variable {P Q : α → ι → Prop} {S : β → ι → Prop} {E E' : SyntaxError → Prop}
  {r : Except SyntaxError (α × ι)}

theorem Concludes.bind {f : α × ι → Except SyntaxError (β × ι)} (hr : Concludes P E r)
    (hf : ∀ x rest, P x rest → Concludes S E (f (x, rest))) : Concludes S E (r >>= f) := by
  cases r with
  | error e => exact hr
  | ok p => exact hf p.1 p.2 hr

theorem Concludes.mono (hr : Concludes P E r) (hQ : ∀ x rest, P x rest → Q x rest)
    (hE : ∀ e, E e → E' e) : Concludes Q E' r := by
  cases r with
  | error e => exact hE e hr
  | ok p => exact hQ p.1 p.2 hr

/-- A computation that starts like another one, and goes on as that one does. -/
theorem Concludes.bind_eq {m : StateT ι (Except SyntaxError) α}
    {f : α → StateT ι (Except SyntaxError) β} {input : ι} {r : Except SyntaxError (β × ι)}
    (h : Concludes (fun x rest => r = f x rest) (fun e => r = .error e) (m input)) :
    r = (m >>= f) input := by
  have hbind : (m >>= f) input = (m input >>= fun p => f p.1 p.2) := rfl
  rw [hbind]
  cases hm : m input with
  | error e =>
    rw [hm] at h
    exact h
  | ok p =>
    rw [hm] at h
    exact h

theorem Concludes.of_eq_ok {x : α} {rest : ι} (hr : Concludes Q E r) (h : r = .ok (x, rest)) :
    Q x rest := by
  rw [h] at hr
  exact hr

end

/-! ## §2 Loops -/

/-- What a round comes to: another round from a state on, whose result is then
finished up, or a result. -/
inductive Round (σ α : Type) where
  | again (next : σ) (finish : α → α)
  | leave (result : α)

namespace Round

/-- What is asked of a round, depending on how it ends. -/
def Is (again : σ → (α → α) → Prop) (leave : α → Prop) : Round σ α → Prop
  | .again next finish => again next finish
  | .leave result => leave result

/-- Does what is left to do after a round. -/
def resume {m : Type → Type} [Monad m] (run : σ → m α) : Round σ α → m α
  | .again next finish => finish <$> run next
  | .leave result => pure result

@[simp]
theorem resume_leave {m : Type → Type} [Monad m] (run : σ → m α) (x : α) :
    (leave x).resume run = pure x :=
  rfl

@[simp]
theorem resume_again {m : Type → Type} [Monad m] (run : σ → m α) (next : σ) (finish : α → α) :
    (again next finish).resume run = finish <$> run next :=
  rfl

end Round

/-- A loop over an input. It does one round, and what is left to do after it. -/
structure Loop (ι : Type) where
  State : Type
  Result : Type
  run : (fuel : Nat) → State → StateT ι (Except SyntaxError) Result
  round : (fuel : Nat) → State → StateT ι (Except SyntaxError) (Round State Result)
  run_succ : ∀ fuel s, run (fuel + 1) s = round fuel s >>= Round.resume (run fuel)

namespace Loop

/-- Every round of the loop leaves less of the input, or leaves the loop. -/
def Progresses (l : Loop ι) (size : ι → Nat) : Prop :=
  ∀ fuel s input next finish rest,
    l.round fuel s input = .ok (.again next finish, rest) → size rest < size input

/-- Fuel for more rounds than there is input makes no difference. -/
def Settles (l : Loop ι) (size : ι → Nat) : Prop :=
  ∀ fuel s input, size input < fuel → l.run fuel s input = l.run (size input + 1) s input

theorem Progresses.settles {l : Loop ι} {size : ι → Nat} (h : l.Progresses size)
    (hround : ∀ fuel, l.round fuel = l.round 0) : l.Settles size := by
  have hrun (fuel fuel' : Nat) (s : l.State) (input : ι) (hfuel : size input < fuel)
      (hfuel' : size input < fuel') : l.run fuel s input = l.run fuel' s input := by
    induction fuel generalizing fuel' s input with
    | zero => exact absurd hfuel (Nat.not_lt_zero _)
    | succ fuel ih =>
      obtain ⟨fuel', rfl⟩ := Nat.exists_eq_succ_of_ne_zero (Nat.ne_zero_of_lt hfuel')
      rw [l.run_succ, l.run_succ, hround fuel, hround fuel']
      change (l.round 0 s input >>= _) = (l.round 0 s input >>= _)
      rcases hr : l.round 0 s input with e | ⟨next | x, rest⟩
      · rfl
      · have hrest := h 0 s input _ _ rest hr
        have heq := ih fuel' ‹_› rest (by omega) (by omega)
        change (l.run fuel _ rest >>= _) = (l.run fuel' _ rest >>= _)
        rw [heq]
      · rfl
  exact fun fuel s input hfuel => hrun _ _ s input hfuel (Nat.lt_succ_self _)

/-- What a loop ends with follows from what its rounds do. `size` bounds the
rounds that are left, and `deep` tells whether a loop may run out of fuel. -/
theorem concludes_run (l : Loop ι) (deep : Prop) (size : l.State → ι → Nat) {I : l.State → ι → Prop}
    {Q : l.State → ι → l.Result → ι → Prop} {E : SyntaxError → Prop}
    (hzero : deep → ∀ s input, I s input → Concludes (Q s input) E (l.run 0 s input))
    (hround : ∀ fuel s input, deep ∨ size s input < fuel + 1 → I s input →
      Concludes (fun r rest => r.Is (fun next finish =>
        size next rest < size s input ∧ I next rest ∧
          ∀ x rest', Q next rest x rest' → Q s input (finish x) rest') (Q s input · rest)) E
        (l.round fuel s input))
    (fuel : Nat) {s : l.State} {input : ι} (hfuel : deep ∨ size s input < fuel) (hs : I s input) :
    Concludes (Q s input) E (l.run fuel s input) := by
  -- By induction on the fuel, for all states and inputs, as a round changes both.
  induction fuel generalizing s input with
  | zero => exact hzero (hfuel.resolve_right (Nat.not_lt_zero _)) s input hs
  | succ fuel ih =>
    rw [l.run_succ]
    refine (hround fuel s input hfuel hs).bind fun r rest hr => ?_
    cases r with
    | leave x => exact hr
    | again next finish =>
      obtain ⟨hsize, hnext, hfinish⟩ := hr
      exact (ih (hfuel.imp_right fun hfuel => by omega) hnext).bind hfinish

end Loop

end GrammarCompiler
