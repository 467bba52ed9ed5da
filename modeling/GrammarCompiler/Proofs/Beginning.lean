/-
GrammarCompiler.Proofs.Beginning — first sets are exact.

A sequence of symbols becomes another one when symbols are rewritten by rules, in
any order and any number of times. The first table tells which terminals can come
first in what a symbol becomes, and whether it can become nothing: all that can
happen, since no rule adds to the table any more, and nothing else, since every
round only adds what its rules allow.

  §1 Forms     — what sequences of symbols become.
  §2 Complete  — a table that no rule adds to knows how every form begins.
  §3 Sound     — what looking at rules adds to a table can happen.
  §4 Exactness — the table of a grammar, and what can come next.
-/
import GrammarCompiler.Proofs.Lookahead
import Mathlib.Logic.Function.Iterate
import Mathlib.Logic.Relation

namespace GrammarCompiler

/-! ## §1 Forms -/

/-- One symbol of a sequence is rewritten by one of its rules. Terminals stay. -/
inductive Grammar.Rewrites (g : Grammar) : List Term → List Term → Prop where
  | rule (before : List Term) {r : Rule} (after : List Term) (hr : r ∈ g.rules)
      (hn : g.isTerminal r.name = false) :
      Rewrites g (before ++ r.name :: after) (before ++ r.parts ++ after)

/-- What a sequence of symbols becomes when symbols are rewritten: the sentential
forms that are derived from it. -/
def Grammar.Becomes (g : Grammar) : List Term → List Term → Prop :=
  Relation.ReflTransGen g.Rewrites

/-- A terminal can come first in what a sequence of symbols becomes. -/
def Grammar.Begins (g : Grammar) (parts : List Term) (t : Term) : Prop :=
  g.isTerminal t = true ∧ ∃ rest, g.Becomes parts (t :: rest)

namespace Grammar

variable {g : Grammar} {parts parts' form form' rest : List Term} {t : Term}

theorem Rewrites.append (h : g.Rewrites parts form) (before after : List Term) :
    g.Rewrites (before ++ parts ++ after) (before ++ form ++ after) := by
  cases h with
  | rule before' after' hr hn =>
    have h := Rewrites.rule (before ++ before') (after' ++ after) hr hn
    simpa only [List.append_assoc, List.cons_append] using h

/-- A part of a sequence can be rewritten by itself. -/
theorem Becomes.within (h : g.Becomes parts form) (before after : List Term) :
    g.Becomes (before ++ parts ++ after) (before ++ form ++ after) :=
  Relation.ReflTransGen.lift (fun parts => before ++ parts ++ after)
    (fun _ _ h => Rewrites.append h before after) _ _ h

theorem Becomes.append (h : g.Becomes parts form) (h' : g.Becomes parts' form') :
    g.Becomes (parts ++ parts') (form ++ form') := by
  have hfirst : g.Becomes (parts ++ parts') (form ++ parts') := by
    simpa using h.within [] parts'
  have hsecond : g.Becomes (form ++ parts') (form ++ form') := by
    simpa using h'.within form []
  exact hfirst.trans hsecond

/-- A symbol becomes what the parts of one of its rules become. -/
theorem Becomes.of_rule {r : Rule} (hr : r ∈ g.rules) (hn : g.isTerminal r.name = false)
    (h : g.Becomes r.parts form) : g.Becomes [r.name] form := by
  have hrule : g.Rewrites [r.name] r.parts := by
    simpa using Rewrites.rule [] [] hr hn
  exact .head hrule h

theorem Begins.append (h : g.Begins parts t) (parts' : List Term) :
    g.Begins (parts ++ parts') t := by
  obtain ⟨ht, rest, h⟩ := h
  exact ⟨ht, rest ++ parts', h.append .refl⟩

theorem Begins.behind (h : g.Becomes parts []) (h' : g.Begins parts' t) :
    g.Begins (parts ++ parts') t := by
  obtain ⟨ht, rest, h'⟩ := h'
  exact ⟨ht, rest, h.append h'⟩

theorem Begins.of_rule {r : Rule} (hr : r ∈ g.rules) (hn : g.isTerminal r.name = false)
    (h : g.Begins r.parts t) : g.Begins [r.name] t := by
  obtain ⟨ht, rest, h⟩ := h
  exact ⟨ht, rest, h.of_rule hr hn⟩

end Grammar

namespace FirstTable

variable {g : Grammar} {table : FirstTable} {parts parts' form : List Term} {t : Term}

/-! ## §2 Complete -/

theorem vanishes_append : vanishes g table (parts ++ parts') =
    (vanishes g table parts && vanishes g table parts') :=
  List.all_append

/-- What a sequence of parts can begin with when something follows it: what it can
begin with by itself, and what follows it if all parts can stand for nothing. -/
theorem contains_beginnings_iff {after : TermSet} :
    (beginnings g table after parts).contains t = true ↔
      (beginnings g table .empty parts).contains t = true ∨
        vanishes g table parts = true ∧ after.contains t = true := by
  refine ⟨fun h => ?_, fun h => h.elim contains_beginnings_of_empty fun h =>
    contains_beginnings_of_vanishes h.1 h.2⟩
  induction parts with
  | nil => exact .inr ⟨rfl, h⟩
  | cons part parts ih =>
    simp only [beginnings, vanishes, List.all_cons] at h ⊢
    cases ht : g.isTerminal part with
    | true => exact .inl (by simpa [ht] using h)
    | false =>
      cases hn : (table.first part).nullable with
      | false => exact .inl (by simpa [ht, hn] using h)
      | true =>
        simp only [ht, hn, Bool.false_eq_true, if_false, if_true, TermSet.contains_union,
          Bool.or_eq_true, Bool.not_false, Bool.and_self, Bool.true_and] at h ⊢
        rcases h with h | h
        · exact .inl (.inl h)
        · exact (ih h).imp_left .inr

theorem contains_beginnings_append :
    (beginnings g table .empty (parts ++ parts')).contains t = true ↔
      (beginnings g table .empty parts).contains t = true ∨
        vanishes g table parts = true ∧ (beginnings g table .empty parts').contains t = true := by
  have happend : beginnings g table .empty (parts ++ parts') =
      beginnings g table (beginnings g table .empty parts') parts := by
    induction parts with
    | nil => rfl
    | cons part parts ih => simp only [List.cons_append, beginnings, ih]
  rw [happend, contains_beginnings_iff]

theorem vanishes_single (hn : g.isTerminal t = false) :
    vanishes g table [t] = (table.first t).nullable := by
  simp [vanishes, hn]

theorem beginnings_single (hn : g.isTerminal t = false) :
    (beginnings g table .empty [t]) = (table.first t).terminals := by
  simp [beginnings, hn, TermSet.union, TermSet.empty]

/-- Rewriting a symbol adds nothing to what a closed table knows of a sequence. -/
theorem Closed.of_rewrites (hc : Closed g table) (h : g.Rewrites parts parts') :
    (vanishes g table parts' = true → vanishes g table parts = true) ∧
      ∀ t, (beginnings g table .empty parts').contains t = true →
        (beginnings g table .empty parts).contains t = true := by
  cases h with
  | @rule before r after hr hn =>
    have hnull : vanishes g table r.parts = true → vanishes g table [r.name] = true := fun h =>
      (vanishes_single hn).trans (hc.nullable r hr hn h)
    rw [← List.singleton_append, ← List.append_assoc]
    refine ⟨fun h => ?_, fun t h => ?_⟩
    · simp only [vanishes_append, Bool.and_eq_true] at h ⊢
      exact h.imp_left fun h => h.imp_right hnull
    · have hfirst : (beginnings g table .empty r.parts).contains t = true →
          (beginnings g table .empty [r.name]).contains t = true := fun h =>
        beginnings_single hn ▸ hc.terminals r hr hn t h
      simp only [contains_beginnings_append, vanishes_append, Bool.and_eq_true] at h ⊢
      exact h.imp (fun h => h.imp_right fun h => h.imp_right hfirst) fun h =>
        h.imp_left fun h => h.imp_right hnull

/-- A closed table knows which sequences become nothing. -/
theorem Closed.vanishes_of_becomes (hc : Closed g table) (h : g.Becomes parts []) :
    vanishes g table parts = true := by
  induction h using Relation.ReflTransGen.head_induction_on with
  | refl => rfl
  | head hstep _ ih => exact (hc.of_rewrites hstep).1 ih

/-- A closed table knows how sequences can begin. -/
theorem Closed.contains_of_begins (hc : Closed g table) (h : g.Begins parts t) :
    (beginnings g table .empty parts).contains t = true := by
  obtain ⟨ht, rest, h⟩ := h
  induction h using Relation.ReflTransGen.head_induction_on with
  | refl => simp [beginnings, ht, TermSet.contains_insert]
  | head hstep _ ih => exact (hc.of_rewrites hstep).2 t ih

/-! ## §3 Sound -/

/-- A table that only tells what can happen. -/
structure Sound (g : Grammar) (table : FirstTable) : Prop where
  nullable : ∀ t, g.isTerminal t = false → (table.first t).nullable = true → g.Becomes [t] []
  terminals : ∀ t, g.isTerminal t = false → ∀ u, (table.first t).terminals.contains u = true →
    g.Begins [t] u

theorem Sound.becomes_nil (hs : Sound g table) (h : vanishes g table parts = true) :
    g.Becomes parts [] := by
  induction parts with
  | nil => exact .refl
  | cons part parts ih =>
    simp only [vanishes, List.all_cons, Bool.and_eq_true, Bool.not_eq_true'] at h
    exact (hs.nullable part h.1.1 h.1.2).append (ih h.2)

theorem Sound.begins (hs : Sound g table)
    (h : (beginnings g table .empty parts).contains t = true) : g.Begins parts t := by
  induction parts with
  | nil => simp [beginnings, TermSet.contains_empty] at h
  | cons part parts ih =>
    rw [← List.singleton_append, contains_beginnings_append] at h
    cases hn : g.isTerminal part with
    | true =>
      simp only [vanishes, beginnings, hn, TermSet.contains_insert, TermSet.contains_empty,
        List.all_cons, if_true, Bool.false_or, decide_eq_true_eq, Bool.not_true, Bool.false_and,
        Bool.false_eq_true, false_and, or_false] at h
      exact ⟨h ▸ hn, parts, h ▸ .refl⟩
    | false =>
      rw [beginnings_single hn, vanishes_single hn] at h
      rcases h with h | ⟨hnull, h⟩
      · exact (hs.terminals part hn t h).append parts
      · exact .behind (hs.nullable part hn hnull) (ih h)

/-- Looking at a rule adds what the parts of the rule become. -/
theorem Sound.look (hs : Sound g table) {r : Rule} (hr : r ∈ g.rules) :
    Sound g (look g table r) where
  nullable t hn h := by
    rw [first_look] at h
    split at h
    next heq =>
      obtain ⟨rfl, -⟩ := heq
      rw [scan_eq, Bool.or_eq_true] at h
      rcases h with h | h
      · exact hs.nullable _ hn h
      · exact (hs.becomes_nil h).of_rule hr hn
    next => exact hs.nullable t hn h
  terminals t hn u h := by
    rw [first_look] at h
    split at h
    next heq =>
      obtain ⟨rfl, -⟩ := heq
      rw [scan_eq, TermSet.contains_union, Bool.or_eq_true] at h
      rcases h with h | h
      · exact hs.terminals _ hn u h
      · exact (hs.begins h).of_rule hr hn
    next => exact hs.terminals t hn u h

theorem Sound.round (hs : Sound g table) : Sound g (round g table) :=
  List.foldlRecOn g.rules (FirstTable.look g) hs fun _ hs _ hr => hs.look hr

theorem sound_start (g : Grammar) : Sound g (Array.replicate g.terms.size {}) where
  nullable t _ h := by
    rw [first_replicate] at h
    cases h
  terminals t _ u h := by
    rw [first_replicate, TermSet.contains_empty] at h
    cases h

/-! ## §4 Exactness -/

/-- Rounds until one changes nothing are a number of rounds. Each of them adds
something that was not known. -/
theorem rounds_eq_iterate (hw : Within g table) (fuel : Nat) :
    ∃ n, rounds g fuel table = (round g)^[n] table ∧
      known g table + n ≤ known g (rounds g fuel table) := by
  induction fuel generalizing table with
  | zero => exact ⟨0, rfl, Nat.le_refl _⟩
  | succ fuel ih =>
    simp only [rounds]
    split
    next => exact ⟨0, rfl, Nat.le_refl _⟩
    next hne =>
      obtain ⟨n, heq, hle⟩ := ih hw.round
      have hlt := known_lt_of_grows hw.round (grows_foldl_look g g.rules table) hne
      exact ⟨n + 1, heq, by omega⟩

theorem sound_ofGrammar (g : Grammar) : Sound g (ofGrammar g) := by
  obtain ⟨n, heq, -⟩ := rounds_eq_iterate (within_start g) (capacity g + 1)
  rw [ofGrammar, heq]
  exact Function.Iterate.rec (Sound g) (sound_start g) (fun _ hs => hs.round) n

/-- What can come behind a part of a rule: what can come first in what the parts
behind it become, and what can come behind the rule if they can become nothing. -/
theorem contains_termsAhead_ofGrammar (g : Grammar) (r : Rule) (position : Nat) (after : TermSet)
    (t : Term) : ((ofGrammar g).termsAhead g r position after).contains t = true ↔
      g.Begins (r.parts.drop (position + 1)) t ∨
        g.Becomes (r.parts.drop (position + 1)) [] ∧ after.contains t = true := by
  have hs := sound_ofGrammar g
  have hc := closed_ofGrammar g
  rw [termsAhead, contains_beginnings_iff]
  refine or_congr ⟨hs.begins, hc.contains_of_begins⟩ (and_congr_left fun _ => ?_)
  exact ⟨hs.becomes_nil, hc.vanishes_of_becomes⟩

/-- The first table is found in a bounded number of rounds, the last of which would
change nothing. A terminal is in the first set of a symbol exactly if it can come
first in what the symbol becomes, and the symbol can stand for nothing exactly if it
becomes nothing. So what can come behind a part of a rule is exact, too. -/
theorem ofGrammar_exact (g : Grammar) :
    (∃ n ≤ capacity g, ofGrammar g = (round g)^[n] (Array.replicate g.terms.size {})) ∧
    round g (ofGrammar g) = ofGrammar g ∧
    (∀ symbol, g.isTerminal symbol = false →
      (∀ t, ((ofGrammar g).first symbol).terminals.contains t = true ↔ g.Begins [symbol] t) ∧
        (((ofGrammar g).first symbol).nullable = true ↔ g.Becomes [symbol] [])) ∧
    ∀ (r : Rule) (position : Nat) (after : TermSet) (t : Term),
      ((ofGrammar g).termsAhead g r position after).contains t = true ↔
        g.Begins (r.parts.drop (position + 1)) t ∨
          g.Becomes (r.parts.drop (position + 1)) [] ∧ after.contains t = true := by
  have hs := sound_ofGrammar g
  have hc := closed_ofGrammar g
  refine ⟨?_, round_ofGrammar g, fun symbol hn => ⟨fun t => ⟨hs.terminals symbol hn t, fun h => ?_⟩,
    hs.nullable symbol hn, fun h => ?_⟩, contains_termsAhead_ofGrammar g⟩
  · obtain ⟨n, heq, hle⟩ := rounds_eq_iterate (within_start g) (capacity g + 1)
    have hknown := known_le_capacity g (ofGrammar g)
    rw [ofGrammar] at hknown ⊢
    exact ⟨n, by omega, heq⟩
  · exact beginnings_single hn ▸ hc.contains_of_begins h
  · exact (vanishes_single hn).symm.trans (hc.vanishes_of_becomes h)

end FirstTable

end GrammarCompiler
