/-
GrammarCompiler.Proofs.Laying — what building an expression between two states adds.

`Lays` says step by step how an automaton grows when an expression is built
into it. A rule that is being built is open: a reference to it leads back to
where it begins, which is only done where it ends in the same state.

What is built reads exactly the words of the expression. That all of them are
read is shown along `Spells`, since an open rule is read by less than the whole
rule. That no others are read is shown by labels along `Lays`.

  §1 Laying       — the relation, and that automata only grow.
  §2 Completeness — every word of an expression is read.
  §3 Soundness    — labels can be continued to what is built.
  §4 Leaves       — expressions that are built without others.
-/
import GrammarCompiler.Proofs.Characters
import GrammarCompiler.Proofs.Parsing
import GrammarCompiler.Tokenizer.Language

namespace GrammarCompiler

namespace TokenBuild

open Nfa Text

/-! ## §1 Laying -/

/-- Expressions that are built without others. -/
def isLeaf : Expr → Bool
  | .literal _ _ | .set _ _ _ | .any _ | .charClass _ _ => true
  | _ => false

/-- The words of an expression. -/
def spelled (rules : List RuleDecl) (e : Expr) : Language Nat :=
  {word | Spells rules e word}

/-- `Lays rules building e s t a b`: building the expression `e` from `s` to `t`,
while the rules of `building` are open, makes `b` of the automaton `a`. -/
inductive Lays (rules : List RuleDecl) :
    List OpenRule → Expr → (source target : Nat) → Nfa → Nfa → Prop
  | leaf {building : List OpenRule} {e : Expr} {s t : Nat} {a b : Nfa} (he : isLeaf e = true)
      (h : a.Joins s t (spelled rules e) b) : Lays rules building e s t a b
  | noChoice {building : List OpenRule} {start s t : Nat} {a : Nfa} :
      Lays rules building (.choice start []) s t a a
  | choice {building : List OpenRule} {start s t : Nat} {e : Expr} {es : List Expr} {a b c : Nfa}
      (first : Lays rules building e s t a b)
      (others : Lays rules building (.choice start es) s t b c) :
      Lays rules building (.choice start (e :: es)) s t a c
  | nothing {building : List OpenRule} {start s t : Nat} {markers : List (List Marker)}
      {a : Nfa} : Lays rules building (.sequence start [] markers) s t a (a.addEmpty s t)
  | last {building : List OpenRule} {start s t : Nat} {e : Expr} {markers : List (List Marker)}
      {a b : Nfa} (h : Lays rules building e s t a b) :
      Lays rules building (.sequence start [e] markers) s t a b
  | cons {building : List OpenRule} {start s t : Nat} {e e' : Expr} {es : List Expr}
      {markers : List (List Marker)} {a b c : Nfa}
      (first : Lays rules building e s a.size a.addState.2 b)
      (later : Lays rules building (.sequence start (e' :: es) markers) a.size t b c) :
      Lays rules building (.sequence start (e :: e' :: es) markers) s t a c
  | star {building : List OpenRule} {start s t : Nat} {body : Expr} {a b : Nfa}
      (h : Lays rules building body a.size a.size (a.addState.2.addEmpty s a.size) b) :
      Lays rules building (.repeated start body .star) s t a (b.addEmpty a.size t)
  | plus {building : List OpenRule} {start s t : Nat} {body : Expr} {a b c : Nfa}
      (first : Lays rules building body s a.size a.addState.2 b)
      (later : Lays rules building body a.size a.size b c) :
      Lays rules building (.repeated start body .plus) s t a (c.addEmpty a.size t)
  | optional {building : List OpenRule} {start s t : Nat} {body : Expr} {a b : Nfa}
      (h : Lays rules building body s t (a.addEmpty s t) b) :
      Lays rules building (.repeated start body .optional) s t a b
  | back {building : List OpenRule} {start s : Nat} {a : Nfa} {r : OpenRule}
      (hr : r ∈ building) :
      Lays rules building (.name start r.name r.args) s r.exit a (a.addEmpty s r.entry)
  | enter {building : List OpenRule} {start s t : Nat} {name : String} {args : List Expr}
      {rule : RuleDecl} {body : Expr} {a b : Nfa}
      (hr : rules.find? (fun r => r.id.name == name) = some rule)
      (hb : rule.bodyWith args = .ok body)
      (h : Lays rules (⟨name, args, a.size, t⟩ :: building) body a.size t
        (a.addState.2.addEmpty s a.size) b) :
      Lays rules building (.name start name args) s t a b

variable {rules : List RuleDecl} {building : List OpenRule} {e : Expr} {s t : Nat} {a b c : Nfa}
  {word : List Nat}

theorem Lays.grows (h : Lays rules building e s t a b) : a.Grows b := by
  induction h with
  | leaf _ h => exact h.grows
  | noChoice => exact .refl _
  | choice _ _ ih ih' => exact ih.trans ih'
  | nothing => exact grows_addEmpty _ _ _
  | last _ ih => exact ih
  | cons _ _ ih ih' => exact (grows_addState _).trans (ih.trans ih')
  | star _ ih =>
    exact (grows_addState _).trans
      ((grows_addEmpty _ _ _).trans (ih.trans (grows_addEmpty _ _ _)))
  | plus _ _ ih ih' =>
    exact (grows_addState _).trans (ih.trans (ih'.trans (grows_addEmpty _ _ _)))
  | optional _ ih => exact (grows_addEmpty _ _ _).trans ih
  | back => exact grows_addEmpty _ _ _
  | enter _ _ _ ih => exact (grows_addState _).trans ((grows_addEmpty _ _ _).trans ih)

theorem Lays.lt_size (h : Lays rules building e s t a b) {i : Nat} (hi : i < a.size) :
    i < b.size :=
  Nat.lt_of_lt_of_le hi h.grows.size_le

/-! ## §2 Completeness -/

/-- The open rules are built in an automaton, each between its ends. -/
inductive Served (rules : List RuleDecl) (c : Nfa) : List OpenRule → Prop
  | nil : Served rules c []
  | cons {building : List OpenRule} {r : OpenRule} {rule : RuleDecl} {body : Expr} {a b : Nfa}
      (hr : rules.find? (fun x => x.id.name == r.name) = some rule)
      (hb : rule.bodyWith r.args = .ok body)
      (h : Lays rules (r :: building) body r.entry r.exit a b) (hentry : r.entry < a.size)
      (hexit : r.exit < a.size) (hgrows : b.Grows c) (others : Served rules c building) :
      Served rules c (r :: building)

theorem Served.exists_of_mem (h : Served rules c building) {r : OpenRule} (hr : r ∈ building) :
    ∃ building', Served rules c (r :: building') := by
  induction h with
  | nil => cases hr
  | cons hrule hbody hlays hentry hexit hgrows others ih =>
    rcases List.mem_cons.mp hr with rfl | hr
    · exact ⟨_, .cons hrule hbody hlays hentry hexit hgrows others⟩
    · exact ih hr

/-- A word is read wherever an expression is built. -/
def IsReadBy (rules : List RuleDecl) (e : Expr) (word : List Nat) : Prop :=
  ∀ ⦃building : List OpenRule⦄ ⦃s t : Nat⦄ ⦃a b c : Nfa⦄, Lays rules building e s t a b →
    s < a.size → t < a.size → b.Grows c → Served rules c building → c.Path s word t

/-- A word is read wherever an expression is built from a state to itself. -/
def IsReadRound (rules : List RuleDecl) (e : Expr) (word : List Nat) : Prop :=
  ∀ ⦃building : List OpenRule⦄ ⦃s : Nat⦄ ⦃a b c : Nfa⦄, Lays rules building e s s a b →
    s < a.size → b.Grows c → Served rules c building → c.Path s word s

theorem IsReadBy.isReadRound (h : IsReadBy rules e word) : IsReadRound rules e word :=
  fun _ _ _ _ _ hlays hs => h hlays hs hs

theorem isReadBy_of_isLeaf (he : isLeaf e = true) (hword : Spells rules e word) :
    IsReadBy rules e word := by
  intro building s t a b c hlays hs ht hgrows _
  cases hlays with
  | leaf _ h => exact (h.reads word hword).mono hgrows
  | _ => cases he

/-- The parts of a choice are built between its ends. -/
theorem Lays.exists_of_mem_choice {start : Nat} {alternatives : List Expr}
    (h : Lays rules building (.choice start alternatives) s t a b) (he : e ∈ alternatives) :
    ∃ a' b', Lays rules building e s t a' b' ∧ a.size ≤ a'.size ∧ b'.Grows b := by
  induction alternatives generalizing a with
  | nil => cases he
  | cons first others ih =>
    cases h with
    | leaf h => cases h
    | choice hfirst hothers =>
      rcases List.mem_cons.mp he with rfl | he
      · exact ⟨_, _, hfirst, Nat.le_refl _, hothers.grows⟩
      · obtain ⟨a', b', hlays, hle, hgrows⟩ := ih hothers he
        exact ⟨a', b', hlays, Nat.le_trans hfirst.grows.size_le hle, hgrows⟩

section Repeats

variable {start : Nat} {body : Expr} {rest : List Nat}

theorem isReadBy_star (h : IsReadRound rules body word) :
    IsReadBy rules (.repeated start body .star) word := by
  intro building s t a b c hlays hs ht hgrows hserved
  cases hlays with
  | leaf he => cases he
  | @star _ _ _ _ _ _ b hbody =>
    have hsize : (a.addState.2.addEmpty s a.size).size = a.size + 1 := by simp
    have hgrows' := (grows_addEmpty b a.size t).trans hgrows
    have hin : c.Path s [] a.size :=
      (path_addEmpty (by simp; omega)).mono (hbody.grows.trans hgrows')
    have hout : c.Path a.size [] t := (path_addEmpty (hbody.lt_size (by omega))).mono hgrows
    have hround := h hbody (by omega) hgrows' hserved
    simpa using hin.append (hround.append hout)

theorem isReadBy_plus (h : IsReadBy rules body word) (h' : IsReadRound rules body rest) :
    IsReadBy rules (.repeated start body .plus) (word ++ rest) := by
  intro building s t a b c hlays hs ht hgrows hserved
  cases hlays with
  | leaf he => cases he
  | @plus _ _ _ _ _ _ b d hfirst hlater =>
    have hsize : a.addState.2.size = a.size + 1 := size_addState a
    have hloop := hfirst.lt_size (i := a.size) (by omega)
    have hgrows' := (grows_addEmpty d a.size t).trans hgrows
    have hin := h hfirst (by omega) (by omega) (hlater.grows.trans hgrows') hserved
    have hround := h' hlater hloop hgrows' hserved
    have hout : c.Path a.size [] t := (path_addEmpty (hlater.lt_size hloop)).mono hgrows
    simpa using hin.append (hround.append hout)

theorem isReadBy_optional (h : word = [] ∨ IsReadBy rules body word) :
    IsReadBy rules (.repeated start body .optional) word := by
  intro building s t a b c hlays hs ht hgrows hserved
  cases hlays with
  | leaf he => cases he
  | optional hbody =>
    rcases h with rfl | h
    · exact (path_addEmpty hs).mono (hbody.grows.trans hgrows)
    · exact h hbody (by simpa using hs) (by simpa using ht) hgrows hserved

end Repeats

/-- What the body of a rule reads is read by references to it, whether they lead back or the rule
is built for them. -/
theorem isReadBy_reference {start : Nat} {name : String} {args : List Expr} {rule : RuleDecl}
    {body : Expr} (hr : rules.find? (fun r => r.id.name == name) = some rule)
    (hb : rule.bodyWith args = .ok body) (h : IsReadBy rules body word) :
    IsReadBy rules (.name start name args) word := by
  intro building s t a b c hlays hs ht hgrows hserved
  cases hlays with
  | leaf he => cases he
  | back hopen =>
    obtain ⟨_, hserved⟩ := hserved.exists_of_mem hopen
    cases hserved with
    | @cons _ _ rule' _ _ _ hr' hb' hlays hentry hexit hgrows' others =>
      obtain rfl : rule' = rule := Option.some.inj (hr'.symm.trans hr)
      obtain rfl := Except.ok.inj (hb'.symm.trans hb)
      have hpath := h hlays hentry hexit hgrows' (.cons hr' hb' hlays hentry hexit hgrows' others)
      exact ((path_addEmpty hs).mono hgrows).append hpath
  | @enter _ _ _ _ _ _ rule' _ _ _ hr' hb' hlays =>
    obtain rfl : rule' = rule := Option.some.inj (hr'.symm.trans hr)
    obtain rfl := Except.ok.inj (hb'.symm.trans hb)
    have hsize : (a.addState.2.addEmpty s a.size).size = a.size + 1 := by simp
    have hin : c.Path s [] a.size :=
      (path_addEmpty (by simp; omega)).mono (hlays.grows.trans hgrows)
    have hpath := h hlays (by omega) (by omega) hgrows
      (.cons hr' hb' hlays (by simp) (by simp; omega) hgrows hserved)
    exact hin.append hpath

/-- Every word of an expression is read wherever the expression is built, and
words of a repeat are also read round where its body is built from a state to
itself. -/
theorem isReadBy_of_spells (hword : Spells rules e word) :
    IsReadBy rules e word ∧ ∀ start body kind, e = .repeated start body kind →
      kind ≠ .optional → IsReadRound rules body word := by
  induction hword with
  | literal start value =>
    exact ⟨isReadBy_of_isLeaf rfl (.literal start value), nofun⟩
  | charClass start h => exact ⟨isReadBy_of_isLeaf rfl (.charClass start h), nofun⟩
  | set start h => exact ⟨isReadBy_of_isLeaf rfl (.set start h), nofun⟩
  | anyUnit start h => exact ⟨isReadBy_of_isLeaf rfl (.anyUnit start h), nofun⟩
  | anyPair start hh hl => exact ⟨isReadBy_of_isLeaf rfl (.anyPair start hh hl), nofun⟩
  | choice start he _ ih =>
    refine ⟨fun building s t a b c hlays hs ht hgrows hserved => ?_, nofun⟩
    obtain ⟨a', b', hpart, hle, hgrows'⟩ := hlays.exists_of_mem_choice he
    exact ih.1 hpart (by omega) (by omega) (hgrows'.trans hgrows) hserved
  | nil start markers =>
    refine ⟨fun building s t a b c hlays hs ht hgrows hserved => ?_, nofun⟩
    cases hlays with
    | leaf h => cases h
    | nothing => exact (path_addEmpty hs).mono hgrows
  | @cons start markers e elements word rest _ later ih ih' =>
    refine ⟨fun building s t a b c hlays hs ht hgrows hserved => ?_, nofun⟩
    cases hlays with
    | leaf h => cases h
    | last h =>
      obtain rfl : rest = [] := by cases later; rfl
      rw [List.append_nil]
      exact ih.1 h hs ht hgrows hserved
    | cons hfirst hlater =>
      have hsize : a.addState.2.size = a.size + 1 := size_addState a
      have hhead := ih.1 hfirst (by omega) (by omega) (hlater.grows.trans hgrows) hserved
      exact hhead.append (ih'.1 hlater (hfirst.lt_size (by omega)) (hfirst.lt_size (by omega))
        hgrows hserved)
  | @never start body kind h =>
    have hround : IsReadRound rules body [] := fun _ s _ _ _ _ _ _ _ => .done s
    refine ⟨?_, fun _ _ _ heq _ => ?_⟩
    · cases kind with
      | optional => exact isReadBy_optional (.inl rfl)
      | star => exact isReadBy_star hround
      | plus => exact absurd rfl h
    · cases heq
      exact hround
  | @once start body kind word _ ih =>
    refine ⟨?_, fun _ _ _ heq _ => ?_⟩
    · cases kind with
      | optional => exact isReadBy_optional (.inr ih.1)
      | star => exact isReadBy_star ih.1.isReadRound
      | plus =>
        have hread : IsReadBy rules (.repeated start body .plus) (word ++ []) :=
          isReadBy_plus ih.1 fun _ s _ _ _ _ _ _ _ => .done s
        rwa [List.append_nil] at hread
    · cases heq
      exact ih.1.isReadRound
  | @again start body kind word rest hk _ _ ih ih' =>
    have hrest : IsReadRound rules body rest := ih'.2 _ _ _ rfl hk
    have hround : IsReadRound rules body (word ++ rest) := fun _ _ _ _ _ hlays hs hgrows hserved =>
      (ih.1.isReadRound hlays hs hgrows hserved).append (hrest hlays hs hgrows hserved)
    refine ⟨?_, fun _ _ _ heq _ => ?_⟩
    · cases kind with
      | optional => exact absurd rfl hk
      | star => exact isReadBy_star hround
      | plus => exact isReadBy_plus ih.1 hrest
    · cases heq
      exact hround
  | reference start hr hb _ ih => exact ⟨isReadBy_reference hr hb ih.1, nofun⟩

/-! ## §3 Soundness -/

/-- Labels that fit what is being built: from the beginning of an open rule, only
words of the rule and what its end is labelled with can be read. -/
structure Fits (rules : List RuleDecl) (building : List OpenRule) (a : Nfa)
    (L : Nat → Language Nat) : Prop where
  admits : a.Admits L
  lt_size : ∀ r ∈ building, r.entry < a.size ∧ r.exit < a.size
  entry_le : ∀ r ∈ building, L r.entry ≤ spelled rules (.name 0 r.name r.args) * L r.exit

variable {L L' : Nat → Language Nat}

theorem Fits.continue (h : Fits rules building a L) (hle : a.size ≤ b.size)
    (heq : ∀ q < a.size, L' q = L q) (hadmits : b.Admits L') : Fits rules building b L' := by
  refine ⟨hadmits, fun r hr => ?_, fun r hr => ?_⟩
  · have := h.lt_size r hr
    omega
  · obtain ⟨hentry, hexit⟩ := h.lt_size r hr
    rw [heq _ hentry, heq _ hexit]
    exact h.entry_le r hr

/-- The labels of an automaton can be continued to a larger one. -/
def Continues (rules : List RuleDecl) (building : List OpenRule) (a b : Nfa)
    (L : Nat → Language Nat) : Prop :=
  ∃ L', (∀ q < a.size, L' q = L q) ∧ Fits rules building b L'

theorem Continues.of_size_le {a' : Nfa} (h : Continues rules building a' b L)
    (hle : a.size ≤ a'.size) : Continues rules building a b L :=
  let ⟨L', heq, hfits⟩ := h
  ⟨L', fun q hq => heq q (Nat.lt_of_lt_of_le hq hle), hfits⟩

/-- Labels are continued to one part after another. -/
theorem Continues.trans (h : Continues rules building a b L) (hle : a.size ≤ b.size)
    (h' : ∀ L', (∀ q < a.size, L' q = L q) → Fits rules building b L' →
      Continues rules building b c L') : Continues rules building a c L := by
  obtain ⟨L₁, heq₁, hfits₁⟩ := h
  obtain ⟨L₂, heq₂, hfits₂⟩ := h' L₁ heq₁ hfits₁
  exact ⟨L₂, fun q hq => (heq₂ q (Nat.lt_of_lt_of_le hq hle)).trans (heq₁ q hq), hfits₂⟩

theorem spelled_name_le (start : Nat) (name : String) (args : List Expr) :
    spelled rules (.name 0 name args) = spelled rules (.name start name args) := by
  ext word
  constructor <;> rintro ⟨⟩
  all_goals exact .reference _ ‹_› ‹_› ‹_›

theorem spelled_choice (start : Nat) (e : Expr) (es : List Expr) :
    spelled rules e + spelled rules (.choice start es) ≤ spelled rules (.choice start (e :: es)) := by
  rintro word (h | h)
  · exact .choice start List.mem_cons_self h
  · cases h with
    | choice _ he h => exact .choice start (List.mem_cons_of_mem _ he) h

theorem spelled_sequence_nil (start : Nat) (markers : List (List Marker)) :
    1 ≤ spelled rules (.sequence start [] markers) := by
  rintro word rfl
  exact .nil start markers

theorem spelled_sequence_cons (start : Nat) (markers : List (List Marker)) (e : Expr)
    (es : List Expr) : spelled rules e * spelled rules (.sequence start es markers) ≤
      spelled rules (.sequence start (e :: es) markers) := by
  intro word hword
  obtain ⟨first, hfirst, later, hlater, rfl⟩ := Language.mem_mul.mp hword
  exact .cons start markers hfirst hlater

theorem one_le_spelled_repeated (start : Nat) (body : Expr) (kind : RepeatKind)
    (hk : kind ≠ .plus) : 1 ≤ spelled rules (.repeated start body kind) := by
  rintro word rfl
  exact .never start body hk

theorem le_spelled_star_mul (start : Nat) (body : Expr) (K : Language Nat) :
    K ≤ spelled rules (.repeated start body .star) * K := by
  simpa using mul_le_mul' (@one_le_spelled_repeated rules start body .star nofun) (le_refl K)

theorem spelled_le_repeated (start : Nat) (body : Expr) (kind : RepeatKind) :
    spelled rules body ≤ spelled rules (.repeated start body kind) :=
  fun _ h => .once start kind h

/-- After the first round of a repeat come all the others. -/
theorem spells_append_star {start : Nat} {body : Expr} {kind : RepeatKind} {first later : List Nat}
    (hk : kind ≠ .optional) (hfirst : Spells rules body first)
    (hlater : Spells rules (.repeated start body .star) later) :
    Spells rules (.repeated start body kind) (first ++ later) := by
  generalize hrepeat : Expr.repeated start body .star = e at hlater
  induction hlater generalizing first with
  | never start' body' h =>
    cases hrepeat
    rw [List.append_nil]
    exact .once start kind hfirst
  | once start' kind' h _ =>
    cases hrepeat
    exact .again start hk hfirst (.once start kind h)
  | again start' hk' hmiddle _ _ ih =>
    cases hrepeat
    exact .again start hk hfirst (ih hmiddle rfl)
  | _ => cases hrepeat

theorem spelled_mul_star (start : Nat) (body : Expr) {kind : RepeatKind} (hk : kind ≠ .optional) :
    spelled rules body * spelled rules (.repeated start body .star) ≤
      spelled rules (.repeated start body kind) := by
  intro word hword
  obtain ⟨first, hfirst, later, hlater, rfl⟩ := Language.mem_mul.mp hword
  exact spells_append_star hk hfirst hlater

theorem spelled_body_le {name : String} {args : List Expr} {rule : RuleDecl} {body : Expr}
    (hr : rules.find? (fun r => r.id.name == name) = some rule)
    (hb : rule.bodyWith args = .ok body) :
    spelled rules body ≤ spelled rules (.name 0 name args) :=
  fun _ h => .reference 0 hr hb h

theorem Fits.addEmpty (h : Fits rules building a L) (ht : t < a.size) (hle : L t ≤ L s) :
    Fits rules building (a.addEmpty s t) L :=
  h.continue (by simp) (fun _ _ => rfl) (h.admits.addEmpty ht hle)

theorem Fits.continues_addEmpty (h : Fits rules building a L) (ht : t < a.size) (hle : L t ≤ L s) :
    Continues rules building a (a.addEmpty s t) L :=
  ⟨L, fun _ _ => rfl, h.addEmpty ht hle⟩

/-- A new state can have any label. -/
theorem Fits.continues_addState (h : Fits rules building a L) (K : Language Nat)
    (h' : ∀ L', (∀ q < a.size, L' q = L q) → L' a.size = K →
      Fits rules building a.addState.2 L' → Continues rules building a.addState.2 b L') :
    Continues rules building a b L := by
  have heq (q : Nat) (hq : q < a.size) : Function.update L a.size K q = L q :=
    Function.update_of_ne (Nat.ne_of_lt hq) _ _
  obtain ⟨L', heq', hfits⟩ := h' _ heq (Function.update_self a.size K L)
    (h.continue (by simp) heq (h.admits.addState K))
  exact ⟨L', fun q hq => (heq' q (by simp; omega)).trans (heq q hq), hfits⟩

/-- If the label of the beginning has all words of an expression that are
followed by a word of the end's label, the labels can be continued to what is
built. -/
theorem Lays.continues (h : Lays rules building e s t a b) (hs : s < a.size) (ht : t < a.size)
    (hfits : Fits rules building a L) (hle : spelled rules e * L t ≤ L s) :
    Continues rules building a b L := by
  induction h generalizing L with
  | leaf _ h =>
    obtain ⟨L', heq, hadmits⟩ := h.admits L hfits.admits hle
    exact ⟨L', heq, hfits.continue h.grows.size_le heq hadmits⟩
  | noChoice => exact ⟨L, fun _ _ => rfl, hfits⟩
  | @choice building start s t e es a b c hfirst hothers ih ih' =>
    have hboth := (mul_le_mul' (spelled_choice start e es) le_rfl).trans hle
    rw [add_mul, add_le_iff] at hboth
    refine (ih hs ht hfits hboth.1).trans hfirst.grows.size_le fun L₁ heq₁ hfits₁ => ?_
    refine ih' (hfirst.lt_size hs) (hfirst.lt_size ht) hfits₁ ?_
    rw [heq₁ s hs, heq₁ t ht]
    exact hboth.2
  | @nothing building start s t markers a =>
    refine hfits.continues_addEmpty ht ?_
    simpa using (mul_le_mul' (spelled_sequence_nil start markers) le_rfl).trans hle
  | @last building start s t e markers a b h ih =>
    have hlast : spelled rules e ≤ spelled rules (.sequence start [e] markers) := by
      simpa using (mul_le_mul' le_rfl (spelled_sequence_nil start markers)).trans
        (@spelled_sequence_cons rules start markers e [])
    exact ih hs ht hfits ((mul_le_mul' hlast le_rfl).trans hle)
  | @cons building start s t e e' es markers a b c hfirst hlater ih ih' =>
    have hboth := (mul_le_mul' (spelled_sequence_cons start markers e (e' :: es)) le_rfl).trans hle
    rw [mul_assoc] at hboth
    have hsize : a.addState.2.size = a.size + 1 := size_addState a
    -- From the new state on, the other elements are left to read.
    refine hfits.continues_addState (spelled rules (.sequence start (e' :: es) markers) * L t)
      fun L₀ heq₀ hmiddle hfits₀ => ?_
    refine (ih (by omega) (by omega) hfits₀ (by rwa [hmiddle, heq₀ s hs])).trans
      hfirst.grows.size_le fun L₁ heq₁ hfits₁ => ?_
    refine ih' (hfirst.lt_size (by omega)) (hfirst.lt_size (by omega)) hfits₁ ?_
    rw [heq₁ t (by omega), heq₁ a.size (by omega), heq₀ t ht, hmiddle]
  | @star building start s t body a b h ih =>
    have hsize : (a.addState.2.addEmpty s a.size).size = a.size + 1 := by simp
    -- From the new state on, the whole repeat is left to read.
    refine hfits.continues_addState (spelled rules (.repeated start body .star) * L t)
      fun L₀ heq₀ hloop hfits₀ => ?_
    refine Continues.of_size_le ?_ (grows_addEmpty _ s a.size).size_le
    refine (ih (by omega) (by omega) (hfits₀.addEmpty (by simp) (by rwa [hloop, heq₀ s hs]))
      ?_).trans h.grows.size_le fun L₁ heq₁ hfits₁ => ?_
    · rw [hloop, ← mul_assoc]
      exact mul_le_mul' (spelled_mul_star start body nofun) le_rfl
    refine hfits₁.continues_addEmpty (h.lt_size (by omega)) ?_
    rw [heq₁ t (by omega), heq₀ t ht, heq₁ _ (by omega), hloop]
    exact le_spelled_star_mul start body (L t)
  | @plus building start s t body a b c hfirst hlater ih ih' =>
    have hsize : a.addState.2.size = a.size + 1 := size_addState a
    have hround (kind : RepeatKind) (hk : kind ≠ .optional) :
        spelled rules body * (spelled rules (.repeated start body .star) * L t) ≤
          spelled rules (.repeated start body kind) * L t := by
      rw [← mul_assoc]
      exact mul_le_mul' (spelled_mul_star start body hk) le_rfl
    -- From the new state on, any number of rounds is left to read.
    refine hfits.continues_addState (spelled rules (.repeated start body .star) * L t)
      fun L₀ heq₀ hloop hfits₀ => ?_
    refine (ih (by omega) (by omega) hfits₀ ?_).trans hfirst.grows.size_le
      fun L₁ heq₁ hfits₁ => ?_
    · rw [hloop, heq₀ s hs]
      exact (hround .plus nofun).trans hle
    have hsize' : a.size < b.size := hfirst.lt_size (by omega)
    refine (ih' hsize' hsize' hfits₁ ?_).trans hlater.grows.size_le fun L₂ heq₂ hfits₂ => ?_
    · rw [heq₁ _ (by omega), hloop]
      exact hround .star nofun
    refine hfits₂.continues_addEmpty (hlater.lt_size (by omega)) ?_
    rw [heq₂ t (by omega), heq₁ t (by omega), heq₀ t ht, heq₂ _ hsize', heq₁ _ (by omega), hloop]
    exact le_spelled_star_mul start body (L t)
  | @optional building start s t body a b h ih =>
    have hskip : L t ≤ L s := by
      simpa using (mul_le_mul' (one_le_spelled_repeated start body .optional nofun) le_rfl).trans hle
    refine Continues.of_size_le ?_ (grows_addEmpty a s t).size_le
    exact ih (by simpa using hs) (by simpa using ht) (hfits.addEmpty ht hskip)
      ((mul_le_mul' (spelled_le_repeated start body .optional) le_rfl).trans hle)
  | @back building start s a r hr =>
    refine hfits.continues_addEmpty (hfits.lt_size r hr).1 ?_
    refine (hfits.entry_le r hr).trans ?_
    rwa [spelled_name_le start]
  | @enter building start s t name args rule body a b hr hb h ih =>
    rw [← spelled_name_le start] at hle
    have hsize : (a.addState.2.addEmpty s a.size).size = a.size + 1 := by simp
    -- From the beginning of the rule on, its words are left to read.
    refine hfits.continues_addState (spelled rules (.name 0 name args) * L t)
      fun L₀ heq₀ hentry hfits₀ => ?_
    have hfits₁ := hfits₀.addEmpty (s := s) (t := a.size) (by simp) (by rwa [hentry, heq₀ s hs])
    have hopen : Fits rules (⟨name, args, a.size, t⟩ :: building)
        (a.addState.2.addEmpty s a.size) L₀ := by
      refine ⟨hfits₁.admits, List.forall_mem_cons.mpr ⟨?_, hfits₁.lt_size⟩,
        List.forall_mem_cons.mpr ⟨?_, hfits₁.entry_le⟩⟩
      · exact ⟨by simp, by simp; omega⟩
      · rw [hentry, heq₀ t ht]
    refine Continues.of_size_le ?_ (grows_addEmpty _ s a.size).size_le
    obtain ⟨L₁, heq₁, hfits₂⟩ := ih (by omega) (by omega) hopen (by
      rw [hentry, heq₀ t ht]
      exact mul_le_mul' (spelled_body_le hr hb) le_rfl)
    refine ⟨L₁, heq₁, hfits₂.admits, ?_, ?_⟩
    · exact fun r hr => hfits₂.lt_size r (List.mem_cons_of_mem _ hr)
    · exact fun r hr => hfits₂.entry_le r (List.mem_cons_of_mem _ hr)

/-- What is built while no rule is open reads exactly the words of the expression. -/
theorem Lays.joins (h : Lays rules [] e s t a b) (hs : s < a.size) (ht : t < a.size) :
    a.Joins s t (spelled rules e) b where
  grows := h.grows
  reads _ hword := (isReadBy_of_spells hword).1 h hs ht (.refl b) .nil
  admits L hadmits hle := by
    obtain ⟨L', heq, hfits⟩ := h.continues hs ht ⟨hadmits, nofun, nofun⟩ hle
    exact ⟨L', heq, hfits.admits⟩

/-! ## §4 Leaves -/

theorem spelled_literal (start : Nat) (value : String) :
    spelled rules (.literal start value) = {units value.toList} := by
  ext word
  constructor
  · rintro ⟨⟩
    rfl
  · rintro rfl
    exact .literal start value

theorem spelled_charClass (start : Nat) (cls : CharClass) :
    spelled rules (.charClass start cls) = setWords cls.ranges := by
  ext word
  constructor
  · rintro ⟨⟩
    exact ⟨_, ‹_›, rfl⟩
  · rintro ⟨c, hc, rfl⟩
    exact .charClass start hc

/-- An inverted set has the characters of the complement. -/
theorem spelled_set (start : Nat) {ranges : List CodeRange} (inverted : Bool)
    (h : CharSet.IsCanonical ranges) : spelled rules (.set start ranges inverted) =
      setWords (if inverted then CharSet.complement ranges else ranges) := by
  have hchar (c : Char) : CharSet.contains ranges c.toNat = !inverted ↔
      CharSet.contains (if inverted then CharSet.complement ranges else ranges) c.toNat = true := by
    cases inverted with
    | false => simp
    | true => simp [CharSet.contains_complement h (Lexer.toNat_lt c)]
  ext word
  constructor
  · rintro ⟨⟩
    exact ⟨_, (hchar _).mp ‹_›, rfl⟩
  · rintro ⟨c, hc, rfl⟩
    exact .set start ((hchar c).mpr hc)

theorem spelled_any (start : Nat) : spelled rules (.any start) =
    unitWords 0 0x10000 + unitWords 0xd800 0xdc00 * unitWords 0xdc00 0xe000 := by
  ext word
  constructor
  · intro h
    cases (show Spells rules (.any start) word from h) with
    | anyUnit _ hunit => exact .inl ⟨_, Nat.zero_le _, hunit, rfl⟩
    | anyPair _ hhigh hlow =>
      exact .inr (mem_unitWords_mul.mpr
        ⟨_, _, isHighSurrogate_iff.mp hhigh, isLowSurrogate_iff.mp hlow, rfl⟩)
  · rintro (⟨u, -, hu, rfl⟩ | h)
    · exact .anyUnit start hu
    · obtain ⟨high, low, hhigh, hlow, rfl⟩ := mem_unitWords_mul.mp h
      exact .anyPair start (isHighSurrogate_iff.mpr hhigh) (isLowSurrogate_iff.mpr hlow)

variable {p p' : Progress}

theorem addRanges_eq {ranges : List CodeRange} (h : addRanges ranges s t p = .ok ((), p')) :
    p'.automaton = ranges.foldl (fun a r => a.addRange s t r.lo r.hi) p.automaton := by
  induction ranges generalizing p with
  | nil =>
    cases h
    rfl
  | cons r ranges ih =>
    obtain ⟨_, p₁, hfirst, h⟩ := exists_ok_of_stateT_bind h
    cases hfirst
    exact ih h

theorem lays_addRanges {ranges : List CodeRange} (he : isLeaf e = true)
    (hspelled : spelled rules e = setWords ranges) (hranges : ∀ r ∈ ranges, CharSet.IsProper r)
    (h : addRanges ranges s t p = .ok ((), p')) (hs : s < p.automaton.size)
    (ht : t < p.automaton.size) : Lays rules building e s t p.automaton p'.automaton := by
  rw [addRanges_eq h]
  exact .leaf he (hspelled ▸ joins_addRanges hranges hs ht)

theorem isProper_charClass (cls : CharClass) : ∀ r ∈ cls.ranges, CharSet.IsProper r := by
  cases cls <;> simp [CharClass.ranges, CharSet.IsProper, CharSet.codePoints]

theorem newState_ok {x : Nat} (h : newState p = .ok (x, p')) :
    x = p.automaton.size ∧ p'.automaton = p.automaton.addState.2 := by
  cases h
  exact ⟨rfl, rfl⟩

theorem change_ok {f : Nfa → Nfa} {x : Unit} (h : change f p = .ok (x, p')) :
    p'.automaton = f p.automaton := by
  cases h
  rfl

/-- Building an expression that is built without others lays it. -/
theorem lays_leaf {fuel : Nat} {opened : List OpenRule} {scope : List Binding}
    (he : isLeaf e = true) (hsets : e.IsCanonical)
    (h : addExpr rules (fuel + 1) opened scope e s t p = .ok ((), p')) (hs : s < p.automaton.size)
    (ht : t < p.automaton.size) : Lays rules building e s t p.automaton p'.automaton := by
  cases hsets with
  | literal start value =>
    rw [addExpr] at h
    exact .leaf rfl ((joins_addLiteral h hs ht).congr (spelled_literal start value).symm)
  | set start inverted hcanonical =>
    rw [addExpr] at h
    refine lays_addRanges rfl (spelled_set start inverted hcanonical) ?_ h hs ht
    cases inverted with
    | false => exact hcanonical.proper
    | true => exact (CharSet.isCanonical_complement hcanonical).proper
  | any start =>
    rw [addExpr] at h
    rw [change_ok h]
    exact .leaf rfl ((joins_addAny hs ht).congr (spelled_any start).symm)
  | charClass start cls =>
    rw [addExpr] at h
    split at h
    next => cases h
    next =>
      exact lays_addRanges rfl (spelled_charClass start cls) (isProper_charClass cls) h hs ht
  | _ => cases he

end TokenBuild

end GrammarCompiler
