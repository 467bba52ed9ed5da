/-
GrammarCompiler.Proofs.Rereading — printed expressions read again.

What an expression prints as is read as the same expression again, if that is normal.
An expression that has more levels than its text shows prints like one that is.

  §1 Readers     — what a reader answers in front of given tokens.
  §2 Tokens      — what the tokens of an expression start with.
  §3 Parts       — markers, properties, and expressions without a repeat sign behind them.
  §4 Expressions — sequences, choices, and expressions nested in each other.
  §5 Rules       — a text that is printed as the body of a rule.
-/
import GrammarCompiler.Proofs.Meaning
import GrammarCompiler.Proofs.Spelling
import Mathlib

namespace GrammarCompiler

open Text

/-! ## §1 Readers -/

theorem Tokens.Are.length_eq {tokens : Tokens} {ts : List Token} (h : tokens.Are ts) :
    tokens.length = ts.length := by
  induction h with
  | done => rfl
  | cons start token _ ih => simp [Tokens.length, ih]

namespace Reader

variable {α β : Type} {P Q : α → Prop} {S : β → Prop} {ts ts' ts'' : List Token}

/-- In front of `ts`, a reader stops in front of `ts'`, and its answer has a property. -/
def Reads (m : Reader α) (ts ts' : List Token) (Q : α → Prop) : Prop :=
  ∀ tokens, tokens.Are ts → ∃ x rest, m tokens = .ok (x, rest) ∧ rest.Are ts' ∧ Q x

/-- In front of `ts`, a reader stops in front of `ts'` with an answer. -/
abbrev Answers (m : Reader α) (ts ts' : List Token) (x : α) : Prop :=
  Reads m ts ts' (· = x)

theorem Reads.bind {m : Reader α} {f : α → Reader β} (hm : Reads m ts ts' P)
    (hf : ∀ x, P x → Reads (f x) ts' ts'' S) : Reads (m >>= f) ts ts'' S := by
  intro tokens htokens
  obtain ⟨x, rest, hx, hrest, hP⟩ := hm tokens htokens
  obtain ⟨y, rest', hy, hrest', hS⟩ := hf x hP rest hrest
  refine ⟨y, rest', ?_, hrest', hS⟩
  have hbind : (m >>= f) tokens = (m tokens >>= fun r => f r.1 r.2) := rfl
  rw [hbind, hx]
  exact hy

/-- A reader whose answer is known. -/
theorem Reads.then {m : Reader α} {x : α} {f : α → Reader β} (hm : Answers m ts ts' x)
    (hf : Reads (f x) ts' ts'' S) : Reads (m >>= f) ts ts'' S :=
  hm.bind fun _ hx => hx ▸ hf

theorem reads_pure {x : α} (h : Q x) : Reads (pure x) ts ts Q :=
  fun tokens htokens => ⟨x, tokens, rfl, htokens, h⟩

theorem Reads.mono {m : Reader α} (h : Reads m ts ts' P) (himp : ∀ x, P x → Q x) :
    Reads m ts ts' Q := by
  intro tokens htokens
  obtain ⟨x, rest, hx, hrest, hP⟩ := h tokens htokens
  exact ⟨x, rest, hx, hrest, himp x hP⟩

theorem reads_get : Reads get ts ts fun tokens => tokens.Are ts :=
  fun tokens htokens => ⟨tokens, tokens, rfl, htokens, htokens⟩

theorem reads_offset : Reads offset ts ts fun _ => True := by
  rintro tokens htokens
  cases htokens with
  | done start => exact ⟨start, _, rfl, .done start, trivial⟩
  | cons start token h => exact ⟨start, _, rfl, .cons start token h, trivial⟩

theorem answers_peek : Answers peek ts ts ts.head? := by
  rintro tokens htokens
  cases htokens with
  | done start => exact ⟨none, _, rfl, .done start, rfl⟩
  | cons start token h => exact ⟨some token, _, rfl, .cons start token h, rfl⟩

theorem answers_continueAt {tokens : Tokens} (h : tokens.Are ts) :
    Answers (continueAt tokens) ts' ts () := by
  have hset (state : Tokens) : continueAt tokens state = .ok ((), tokens) := by
    cases h <;> rfl
  exact fun state _ => ⟨(), tokens, hset state, h, rfl⟩

theorem answers_advance (token : Token) : Answers advance (token :: ts) ts () := by
  rintro tokens (_ | ⟨start, _, h⟩)
  exact answers_continueAt h _ (.cons start token h)

theorem answers_nextIs (token : Token) :
    Answers (nextIs token) ts ts (ts.head? == some token) :=
  answers_peek.then (reads_pure rfl)

theorem answers_eat (token : Token) : Answers (eat token) (token :: ts) ts true := by
  refine (answers_nextIs token).then ?_
  rw [List.head?_cons, beq_self_eq_true]
  exact (answers_advance token).then (reads_pure rfl)

theorem answers_eat_of_ne {token : Token} (h : ts.head? ≠ some token) :
    Answers (eat token) ts ts false := by
  refine (answers_nextIs token).then ?_
  rw [beq_eq_false_iff_ne.mpr h]
  exact reads_pure rfl

theorem answers_expect (token : Token) : Answers (expect token) (token :: ts) ts () :=
  (answers_eat token).then (reads_pure rfl)

theorem reads_ident (id : String) : Reads ident (.name id :: ts) ts fun x => x.name = id := by
  rintro tokens (_ | ⟨start, _, h⟩)
  have hread : Reads (do continueAt _; return (⟨start, id⟩ : Ident)) (.name id :: ts) ts
      fun x => x.name = id :=
    (answers_continueAt h).then (reads_pure rfl)
  exact hread _ (.cons start (.name id) h)

theorem answers_props (h : ts.head? ≠ some (.punct '[')) : Answers props ts ts [] :=
  (answers_eat_of_ne h).then (reads_pure rfl)

theorem answers_args {expr : Reader Expr} (h : ts.head? ≠ some (.punct '<')) :
    Answers (args expr) ts ts [] :=
  (answers_eat_of_ne h).then (reads_pure rfl)

theorem answers_params (h : ts.head? ≠ some (.punct '<')) : Answers params ts ts [] :=
  (answers_eat_of_ne h).then (reads_pure rfl)

/-! ## §2 Tokens -/

/-- Tokens come, and if the first one is a sign, it is one of some signs. -/
def Opens (signs : List Char) (ts : List Token) : Prop :=
  ∃ t rest, ts = t :: rest ∧ ∀ c, t = .punct c → c ∈ signs

/-- If a sign comes, it is none of some signs. -/
def Avoids (signs : List Char) (ts : List Token) : Prop :=
  ∀ c, ts.head? = some (.punct c) → c ∉ signs

/-- What comes ends an expression, or there is nothing. -/
def Closes (ts : List Token) : Prop :=
  endsSequence ts.head? = true ∧ ts.head? ≠ some (.punct '|')

/-- The signs that an expression can start with. -/
def openings : List Char :=
  ['(', '~', '!']

/-- The brackets that can follow a name. -/
def brackets : List Char :=
  ['[', '{', '<']

/-- The signs that continue an expression: repeat signs, and brackets that follow a name. -/
def continuations : List Char :=
  '*' :: '+' :: '?' :: brackets

theorem Opens.append {signs : List Char} (h : Opens signs ts) (ts' : List Token) :
    Opens signs (ts ++ ts') := by
  obtain ⟨t, rest, rfl, ht⟩ := h
  exact ⟨t, rest ++ ts', rfl, ht⟩

theorem Opens.mono {signs signs' : List Char} (h : Opens signs ts) (hsub : signs ⊆ signs') :
    Opens signs' ts := by
  obtain ⟨t, rest, hts, ht⟩ := h
  exact ⟨t, rest, hts, fun c hc => hsub (ht c hc)⟩

theorem Opens.head?_ne {signs : List Char} (h : Opens signs ts) {c : Char} (hc : c ∉ signs) :
    ts.head? ≠ some (.punct c) := by
  obtain ⟨t, rest, rfl, ht⟩ := h
  exact fun heq => hc (ht c (Option.some.inj heq))

theorem mem_of_endsSequence {c : Char} (h : endsSequence (some (.punct c)) = true) :
    c ∈ ['}', ')', '|', ']', ',', '>'] :=
  List.contains_iff_mem.mp h

theorem Opens.endsSequence_eq (h : Opens openings ts) : endsSequence ts.head? = false := by
  obtain ⟨t, rest, rfl, ht⟩ := h
  rw [List.head?_cons, ← Bool.not_eq_true]
  intro hends
  cases t with
  | punct c =>
    have hclosing : openings.Forall (· ∉ ['}', ')', '|', ']', ',', '>']) := by decide
    exact List.forall_iff_forall_mem.mp hclosing c (ht c rfl) (mem_of_endsSequence hends)
  | _ => cases hends

theorem Avoids.mono {signs signs' : List Char} (h : Avoids signs ts) (hsub : signs' ⊆ signs) :
    Avoids signs' ts :=
  fun c hc hmem => h c hc (hsub hmem)

theorem Avoids.head?_ne {signs : List Char} (h : Avoids signs ts) {c : Char} (hc : c ∈ signs) :
    ts.head? ≠ some (.punct c) :=
  fun heq => h c heq hc

theorem Opens.avoids (h : Opens openings ts) : Avoids continuations ts := by
  obtain ⟨t, rest, rfl, ht⟩ := h
  intro c hc
  have hopening : openings.Forall (· ∉ continuations) := by decide
  exact List.forall_iff_forall_mem.mp hopening c (ht c (Option.some.inj hc))

/-- What ends a sequence neither continues an expression nor is a marker. -/
theorem avoids_of_endsSequence (h : endsSequence ts.head? = true) :
    Avoids ('~' :: '!' :: continuations) ts := by
  intro c hc
  rw [hc] at h
  have hclosing : ['}', ')', '|', ']', ',', '>'].Forall (· ∉ '~' :: '!' :: continuations) := by
    decide
  exact List.forall_iff_forall_mem.mp hclosing c (mem_of_endsSequence h)

theorem closes_punct {c : Char} (h : c ∈ ['}', ')', ']', ',', '>']) (ts : List Token) :
    Closes (.punct c :: ts) := by
  have hclosing : ['}', ')', ']', ',', '>'].Forall fun c =>
      endsSequence (some (.punct c)) = true ∧ c ≠ '|' := by
    decide
  obtain ⟨hends, hbar⟩ := List.forall_iff_forall_mem.mp hclosing c h
  exact ⟨hends, fun heq => hbar (Token.punct.inj (Option.some.inj heq))⟩

theorem opens_cons {t : Token} (h : ∀ c, t ≠ .punct c) {signs : List Char} (rest : List Token) :
    Opens signs (t :: rest) :=
  ⟨t, rest, rfl, fun c hc => absurd hc (h c)⟩

theorem opens_inParens (ts : List Token) : Opens ['('] (inParens ts) :=
  ⟨_, _, rfl, fun c hc => by cases hc; decide⟩

theorem opens_marker (m : Marker) : Opens openings m.tokens := by
  rw [Marker.tokens]
  cases m.kind <;> exact ⟨_, _, rfl, fun c hc => by cases hc; decide⟩

theorem opens_empty {start : Nat} {elements : List Expr} {markers : List (List Marker)}
    (h : (Expr.sequence start elements markers).isEmpty = true) :
    Opens ['('] (Expr.sequence start elements markers).tokens := by
  rw [Expr.isEmpty] at h
  rw [Expr.tokens, if_pos h]
  exact opens_inParens _

/-- Expressions that are neither choices nor sequences start with a parenthesis, if with a sign. -/
theorem opens_of_tight {m : Expr} (hm : m.IsNormal) (h : 3 ≤ m.tightness) :
    Opens ['('] m.tokens := by
  induction hm with
  | name =>
    rw [Expr.tokens]
    split <;> exact opens_cons (by simp) _
  | repeated start kind _ ih =>
    rw [Expr.tokens]
    split
    next => exact (opens_inParens _).append _
    next htight => exact (ih (by omega)).append _
  | choice => simp [Expr.tightness] at h
  | sequence => simp [Expr.tightness] at h
  | empty => exact opens_empty rfl
  | _ => exact opens_cons (by simp) _

/-- What is an element of a sequence starts like that. -/
theorem opens_element {e : Expr} (he : e.IsNormal) (h : e.isSequence = true → e.isEmpty = true) :
    Opens ['('] (Expr.pieceTokens (.inr e)) := by
  rw [Expr.pieceTokens]
  split
  next => exact opens_inParens _
  next htight =>
    cases e with
    | sequence => exact opens_empty (h rfl)
    | choice => simp [Expr.tightness] at htight
    | _ => exact opens_of_tight he (by simp [Expr.tightness])

theorem opens_of_isNormal {m : Expr} (h : m.IsNormal) : Opens openings m.tokens := by
  induction h with
  | @choice start alternatives hlength _ _ ih =>
    obtain ⟨e, es, rfl⟩ := List.exists_cons_of_length_pos (Nat.lt_of_lt_of_le Nat.two_pos hlength)
    rw [Expr.tokens, Expr.tokensAll_eq, List.map_cons, intercalate_cons]
    exact (ih e List.mem_cons_self).append _
  | @sequence start elements markers hlength hmany _ h hdirect ih =>
    rw [Expr.tokens]
    split
    next => exact (opens_inParens _).mono (by decide)
    next =>
      rw [Expr.elementTokens_eq]
      have hne : Expr.pieces elements markers ≠ [] := by
        intro hnil
        have hnone := Expr.ofPieces_pieces hlength
        rw [hnil] at hnone
        cases hnone
        rcases hmany with hmany | hmany
        · cases hmany
        · exact hmany rfl
      have hall : ∀ p ∈ Expr.pieces elements markers, Opens openings (Expr.pieceTokens p) :=
        Expr.forall_mem_pieces hlength (fun _ _ m _ => opens_marker m)
          fun e he => (opens_element (h e he) (hdirect e he)).mono (by decide)
      obtain ⟨p, ps, hps⟩ := List.exists_cons_of_ne_nil hne
      rw [hps] at hall ⊢
      exact (hall p List.mem_cons_self).append _
  | empty => exact (opens_empty rfl).mono (by decide)
  | _ =>
    exact (opens_of_tight (by constructor <;> assumption) (by simp [Expr.tightness])).mono
      (by decide)

/-! ## §3 Parts -/

/-- The markers of a gap, in front of what is no marker. -/
theorem reads_gap (gap : List Marker) {fuel : Nat} (hfuel : gap.length < fuel)
    (hend : ∀ c ∈ ['~', '!'], ts.head? ≠ some (.punct c)) :
    Reads (Reader.gap fuel) (gap.flatMap Marker.tokens ++ ts) ts
      fun gap' => gap'.map Marker.bare = gap.map Marker.bare := by
  induction gap generalizing fuel with
  | nil =>
    cases fuel with
    | zero => cases hfuel
    | succ fuel =>
      rw [Reader.gap]
      refine reads_offset.bind fun start _ => answers_peek.then ?_
      split
      next heq => exact absurd heq (hend '~' (by decide))
      next heq => exact absurd heq (hend '!' (by decide))
      next => exact reads_pure rfl
  | cons m gap ih =>
    cases fuel with
    | zero => cases hfuel
    | succ fuel =>
      rw [List.flatMap_cons, List.append_assoc, Reader.gap]
      have hmore (start : Nat) : Reads (do
          let id ← ident
          return ⟨start, m.kind, id⟩ :: (← Reader.gap fuel))
          (.name m.id.name :: (gap.flatMap Marker.tokens ++ ts)) ts
          fun gap' => gap'.map Marker.bare = (m :: gap).map Marker.bare := by
        refine (reads_ident _).bind fun id hid => (ih (Nat.lt_of_succ_lt_succ hfuel)).bind
          fun gap' hgap' => reads_pure ?_
        rw [List.map_cons, List.map_cons, hgap', Marker.bare, hid]
        rfl
      refine reads_offset.bind fun start _ => answers_peek.then ?_
      have hmore := hmore start
      rw [Marker.tokens]
      cases hkind : m.kind with
      | ambiguity =>
        rw [hkind] at hmore
        exact (answers_advance _).then hmore
      | precedence =>
        rw [hkind] at hmore
        exact (answers_advance _).then hmore

theorem map_eq_of_forall₂ {γ : Type} {f : γ → γ} {xs ys : List γ}
    (h : List.Forall₂ (fun x y => f y = f x) xs ys) : ys.map f = xs.map f := by
  induction h with
  | nil => rfl
  | cons h _ ih => rw [List.map_cons, List.map_cons, h, ih]

section

variable {γ : Type} {close : Char} {item : Reader α} {tokens : γ → List Token} {R : γ → α → Prop}

/-- The first one of some items, in front of those behind it. -/
theorem reads_firstItem {x : γ}
    (hx : ∀ c ∈ [',', close], ∀ ts, Reads item (tokens x ++ .punct c :: ts) (.punct c :: ts) (R x))
    (xs : List γ) : Reads item
      (tokens x ++ (xs.flatMap (fun x => .punct ',' :: tokens x) ++ .punct close :: ts))
      (xs.flatMap (fun x => .punct ',' :: tokens x) ++ .punct close :: ts) (R x) := by
  cases xs with
  | nil => exact hx close (by simp) ts
  | cons x' xs => exact hx ',' (by simp) _

variable {xs : List γ} (hitem : ∀ x ∈ xs, ∀ c ∈ [',', close], ∀ ts,
    Reads item (tokens x ++ .punct c :: ts) (.punct c :: ts) (R x))
include hitem

/-- Items behind a comma. -/
theorem reads_itemsFrom (hclose : close ≠ ',') {fuel : Nat} (hfuel : xs.length < fuel) :
    Reads (itemsFrom (.punct close) item fuel false)
      (xs.flatMap (fun x => .punct ',' :: tokens x) ++ .punct close :: ts) ts
      fun ys => List.Forall₂ R xs ys := by
  induction xs generalizing fuel with
  | nil =>
    cases fuel with
    | zero => cases hfuel
    | succ fuel =>
      rw [itemsFrom]
      exact (answers_eat _).then (reads_pure .nil)
  | cons x xs ih =>
    obtain ⟨hx, hxs⟩ := List.forall_mem_cons.mp hitem
    cases fuel with
    | zero => cases hfuel
    | succ fuel =>
      rw [List.flatMap_cons, List.append_assoc, List.cons_append, itemsFrom]
      refine (answers_eat_of_ne (by simpa using hclose.symm)).then ((answers_expect _).then ?_)
      exact (reads_firstItem hx xs).bind fun y hy =>
        (ih hxs (Nat.lt_of_succ_lt_succ hfuel)).bind fun ys hys => reads_pure (.cons hy hys)

/-- Items with commas between them. -/
theorem reads_items (hclose : close ≠ ',') (hne : xs ≠ [])
    (hopens : ∀ x ∈ xs, ∀ ts, (tokens x ++ ts).head? ≠ some (.punct close)) :
    Reads (items (.punct close) item)
      ([.punct ','].intercalate (xs.map tokens) ++ .punct close :: ts) ts
      fun ys => List.Forall₂ R xs ys := by
  obtain ⟨x, xs, rfl⟩ := List.exists_cons_of_ne_nil hne
  obtain ⟨hx, hxs⟩ := List.forall_mem_cons.mp hitem
  rw [List.map_cons, intercalate_cons, List.flatMap_map, List.append_assoc]
  refine reads_get.bind fun rest hrest => ?_
  have hfuel : xs.length < rest.length + 1 := by
    have : xs.length ≤ (xs.flatMap fun x => .punct ',' :: tokens x).length :=
      length_le_length_flatMap fun x _ => List.cons_ne_nil _ _
    simp only [hrest.length_eq, List.length_append, List.singleton_append]
    omega
  rw [itemsFrom]
  refine (answers_eat_of_ne (hopens x List.mem_cons_self _)).then ?_
  exact (reads_firstItem hx xs).bind fun y hy =>
    (reads_itemsFrom hxs hclose hfuel).bind fun ys hys => reads_pure (.cons hy hys)

end

/-- The pieces of a property value, up to a comma or a bracket. -/
theorem reads_propParts (value : List PropPart) {c : Char} (hc : c ∈ [',', ']']) {fuel : Nat}
    (hfuel : value.length < fuel) :
    Reads (propParts fuel) (value.flatMap PropPart.tokens ++ .punct c :: ts) (.punct c :: ts)
      fun value' => value'.map PropPart.bare = value.map PropPart.bare := by
  induction value generalizing fuel with
  | nil =>
    cases fuel with
    | zero => cases hfuel
    | succ fuel =>
      rw [propParts]
      refine reads_offset.bind fun start _ => answers_peek.then ?_
      rcases List.mem_cons.mp hc with rfl | hc
      · exact reads_pure rfl
      · obtain rfl := List.mem_singleton.mp hc
        exact reads_pure rfl
  | cons part value ih =>
    cases fuel with
    | zero => cases hfuel
    | succ fuel =>
      have hmore (part' : PropPart) (hpart : part'.bare = part.bare) :
          Reads (do return part' :: (← propParts fuel))
            (value.flatMap PropPart.tokens ++ .punct c :: ts) (.punct c :: ts)
            fun value' => value'.map PropPart.bare = (part :: value).map PropPart.bare := by
        refine (ih (Nat.lt_of_succ_lt_succ hfuel)).bind fun value' hvalue => reads_pure ?_
        rw [List.map_cons, List.map_cons, hpart, hvalue]
      rw [List.flatMap_cons, List.append_assoc, propParts]
      refine reads_offset.bind fun start _ => answers_peek.then ?_
      cases part with
      | text start' text =>
        rw [PropPart.tokens]
        by_cases hdot : text = "."
        · subst hdot
          exact (answers_advance _).then (hmore _ rfl)
        · rw [if_neg hdot]
          exact (answers_advance _).then (hmore _ rfl)
      | parameter start' name =>
        refine (answers_advance _).then ((reads_ident name).bind fun id hid =>
          (answers_expect _).then (hmore _ ?_))
        rw [hid]
        rfl

theorem reads_prop (p : NodeProp) {c : Char} (hc : c ∈ [',', ']']) :
    Reads prop (p.tokens ++ .punct c :: ts) (.punct c :: ts) fun p' => p'.bare = p.bare := by
  have hne : c ≠ '=' := fun heq => absurd (heq ▸ hc) (by decide)
  have hvalue : Reads propValue
      ((if p.value.isEmpty then [] else .punct '=' :: p.value.flatMap PropPart.tokens) ++
        .punct c :: ts) (.punct c :: ts)
      fun value => value.map PropPart.bare = p.value.map PropPart.bare := by
    split
    next hempty =>
      rw [List.isEmpty_iff.mp hempty]
      exact (answers_eat_of_ne (by simpa using hne)).then (reads_pure rfl)
    next =>
      refine (answers_eat _).then (reads_get.bind fun rest hrest => reads_propParts p.value hc ?_)
      have : p.value.length ≤ (p.value.flatMap PropPart.tokens).length := by
        refine length_le_length_flatMap fun part _ => ?_
        cases part with
        | text => rw [PropPart.tokens]; split <;> exact List.cons_ne_nil _ _
        | parameter => exact List.cons_ne_nil _ _
      simp only [hrest.length_eq, List.append_eq, List.length_append]
      omega
  obtain ⟨start, builtin, name, value⟩ := p
  refine reads_offset.bind fun start' _ => answers_peek.then ?_
  cases builtin with
  | true =>
    refine (answers_advance _).then (hvalue.bind fun value' hvalue' => reads_pure ?_)
    rw [NodeProp.bare, NodeProp.bare, hvalue']
  | false =>
    refine (answers_advance _).then (hvalue.bind fun value' hvalue' => reads_pure ?_)
    rw [NodeProp.bare, NodeProp.bare, hvalue']

/-- Properties in front of what is no bracket for them. -/
theorem reads_props (props : List NodeProp) (hts : ts.head? ≠ some (.punct '[')) :
    Reads Reader.props (propsTokens props ++ ts) ts
      fun props' => props'.map NodeProp.bare = props.map NodeProp.bare := by
  rw [propsTokens]
  split
  next hempty =>
    rw [List.isEmpty_iff.mp hempty]
    exact (answers_props hts).mono fun _ h => h ▸ rfl
  next hempty =>
    have hopens : ∀ p ∈ props, ∀ ts, (p.tokens ++ ts).head? ≠ some (.punct ']') := by
      intro p _ ts
      rw [NodeProp.tokens]
      split <;> simp
    rw [List.cons_append, List.append_assoc]
    exact (answers_eat _).then ((reads_items (fun p _ c hc ts => reads_prop p hc) (by decide)
      (mt List.isEmpty_iff.mpr hempty) hopens).mono fun props' h => map_eq_of_forall₂ h)

/-- A reader reads normal expressions of less than `n` tokens. -/
def ReadsBelow (expr : Reader Expr) (n : Nat) : Prop :=
  ∀ m : Expr, m.IsNormal → m.tokens.length < n → ∀ ts, Closes ts →
    Reads expr (m.tokens ++ ts) ts fun e => e.bare = m.bare

section

variable {expr : Reader Expr} {n : Nat} (hexpr : ReadsBelow expr n)
include hexpr

theorem reads_args {args : List Expr} (hne : args ≠ []) (h : ∀ a ∈ args, a.IsNormal)
    (hlength : ∀ a ∈ args, a.tokens.length < n) :
    Reads (Reader.args expr)
      (.punct '<' :: ([.punct ','].intercalate (args.map Expr.tokens) ++ .punct '>' :: ts)) ts
      fun args' => args'.map Expr.bare = args.map Expr.bare := by
  have hitem : ∀ a ∈ args, ∀ c ∈ [',', '>'], ∀ ts,
      Reads expr (a.tokens ++ .punct c :: ts) (.punct c :: ts) fun a' => a'.bare = a.bare := by
    intro a ha c hc ts
    have hclosing : [',', '>'] ⊆ ['\x7d', ')', ']', ',', '>'] := by decide
    exact hexpr a (h a ha) (hlength a ha) _ (closes_punct (hclosing hc) ts)
  have hopens : ∀ a ∈ args, ∀ ts, (a.tokens ++ ts).head? ≠ some (.punct '>') :=
    fun a ha ts => ((opens_of_isNormal (h a ha)).append ts).head?_ne (by decide)
  exact (answers_eat _).then ((reads_items hitem (by decide) hne hopens).mono
    fun args' hargs' => map_eq_of_forall₂ hargs')

/-- What stands in parentheses. -/
theorem reads_inParens {m : Expr} (h : m.IsNormal) (hlength : m.tokens.length < n) :
    Reads (primary expr) (inParens m.tokens ++ ts) ts fun e => e.bare = m.bare := by
  rw [inParens, List.cons_append, List.append_assoc, primary]
  refine reads_offset.bind fun start _ => answers_peek.then ((answers_advance _).then ?_)
  have hclose := ((opens_of_isNormal h).append ([.punct ')'] ++ ts)).head?_ne (c := ')') (by decide)
  refine (answers_eat_of_ne hclose).then ?_
  exact (hexpr m h hlength _ (closes_punct (by decide) _)).bind fun e he =>
    (answers_expect _).then (reads_pure he)

omit hexpr in
theorem reads_empty (start : Nat) :
    Reads (primary expr) (inParens [] ++ ts) ts fun e => e.bare = (Expr.empty start).bare := by
  rw [inParens, List.cons_append, primary]
  exact reads_offset.bind fun start _ => answers_peek.then ((answers_advance _).then
    ((answers_eat _).then (reads_pure rfl)))

theorem reads_specialization {token content : Expr} (start start' : Nat) (kind : SpecializeKind)
    (props : List NodeProp) (htoken : token.IsNormal) (hcontent : content.IsNormal)
    (hltoken : token.tokens.length < n) (hlcontent : content.tokens.length < n) :
    Reads (specialization expr start kind) (propsTokens props ++ .punct '<' ::
      (token.tokens ++ .punct ',' :: (content.tokens ++ .punct '>' :: ts))) ts
      fun e => e.bare = (Expr.specialize start' kind props token content).bare := by
  refine (reads_props props (by simp)).bind fun props' hprops => (answers_expect _).then ?_
  refine (hexpr token htoken hltoken _ (closes_punct (by decide) _)).bind fun t ht =>
    (answers_eat _).then ?_
  refine (hexpr content hcontent hlcontent _ (closes_punct (by decide) _)).bind fun c hc =>
    (answers_expect _).then (reads_pure ?_)
  simp [Expr.bare, ht, hc, hprops]

/-- What follows the name of a rule that has no parameters. -/
theorem reads_ruleAfter {body : Expr} (id : Ident) (props : List NodeProp) (h : body.IsNormal)
    (hlength : body.tokens.length < n) :
    Reads (ruleAfter expr id) (propsTokens props ++ .punct '{' :: (body.tokens ++ .punct '}' :: ts)) ts
      fun r => ∃ props' e, r = ⟨id, props', [], e⟩ ∧
        props'.map NodeProp.bare = props.map NodeProp.bare ∧ e.bare = body.bare := by
  refine (reads_props props (by simp)).bind fun props' hprops =>
    (answers_params (by simp)).then ((answers_expect _).then ?_)
  exact (hexpr body h hlength _ (closes_punct (by decide) _)).bind fun e he =>
    (answers_expect _).then (reads_pure ⟨props', e, rfl, hprops, he⟩)

theorem reads_reference {id : String} {args : List Expr} (start : Nat) (hany : id ≠ "_")
    (h : ∀ a ∈ args, a.IsNormal) (hlength : (Expr.name start id args).tokens.length ≤ n)
    (hts : Avoids brackets ts) :
    Reads (named expr) ((Expr.name start id args).tokens ++ ts) ts
      fun e => e.bare = (Expr.name start id args).bare := by
  rw [Expr.tokens, Expr.tokensAll_eq] at hlength ⊢
  split at hlength
  next hnone =>
    obtain rfl := List.isEmpty_iff.mp hnone
    refine (reads_ident _).bind fun id hid => ?_
    rw [if_neg (hid ▸ hany)]
    refine answers_peek.then ?_
    split
    next heq => exact absurd heq (hts.head?_ne (by decide))
    next heq => exact absurd heq (hts.head?_ne (by decide))
    next =>
      refine (answers_args (hts.head?_ne (by decide))).then (reads_pure ?_)
      simp [Expr.bare, hid]
  next hsome =>
    have hargs : ∀ a ∈ args, a.tokens.length < n := fun a ha => by
      have := length_le_length_intercalate [.punct ','] (List.mem_map_of_mem (f := Expr.tokens) ha)
      simp only [List.length_cons, List.length_append] at hlength
      omega
    rw [if_neg hsome, List.cons_append, List.cons_append, List.append_assoc]
    refine (reads_ident _).bind fun id hid => ?_
    rw [if_neg (hid ▸ hany)]
    refine answers_peek.then ?_
    refine (reads_args hexpr (mt List.isEmpty_iff.mpr hsome) h hargs).bind fun args' hargs' =>
      reads_pure ?_
    simp [Expr.bare, hid, hargs']

theorem reads_inlineRule {id : String} {body : Expr} (start : Nat) (props : List NodeProp)
    (hany : id ≠ "_") (h : body.IsNormal) (hlength : body.tokens.length < n) :
    Reads (named expr) ((Expr.inlineRule start id props body).tokens ++ ts) ts
      fun e => e.bare = (Expr.inlineRule start id props body).bare := by
  rw [Expr.tokens, List.cons_append, List.append_assoc, List.cons_append, List.append_assoc]
  refine (reads_ident _).bind fun id hid => ?_
  rw [if_neg (hid ▸ hany)]
  have hrule : Reads (ruleAfter expr id)
      (propsTokens props ++ .punct '{' :: (body.tokens ++ .punct '}' :: ts)) ts _ :=
    reads_ruleAfter hexpr id props h hlength
  have hdone : ∀ r : RuleDecl, (∃ props' e, r = ⟨id, props', [], e⟩ ∧
      props'.map NodeProp.bare = props.map NodeProp.bare ∧ e.bare = body.bare) →
      Reads (do
        unless r.params.isEmpty do fail .inlineParameters id.start
        return Expr.inlineRule id.start id.name r.props r.body) ts ts
        fun e => e.bare = (Expr.inlineRule start id.name props body).bare := by
    rintro _ ⟨props', e, rfl, hprops, he⟩
    refine reads_pure ?_
    simp [Expr.bare, hprops, he]
  rw [← hid]
  cases props with
  | nil => exact answers_peek.then (hrule.bind hdone)
  | cons p props => exact answers_peek.then (hrule.bind hdone)

/-- An expression that gets parentheses nowhere. -/
theorem reads_primary {m : Expr} (h : m.IsNormal) (htight : 4 ≤ m.tightness)
    (hlength : m.tokens.length ≤ n) (hts : Avoids brackets ts) :
    Reads (primary expr) (m.tokens ++ ts) ts fun e => e.bare = m.bare := by
  rw [primary]
  refine reads_offset.bind fun start _ => answers_peek.then ?_
  cases h with
  | @name start id args hid hany h =>
    have hhead : ((Expr.name start id args).tokens ++ ts).head? = some (.name id) := by
      rw [Expr.tokens]
      split <;> rfl
    rw [hhead]
    exact reads_reference hexpr start hany h hlength hts
  | @specialize start kind props token content _ htoken hcontent =>
    rw [Expr.tokens] at hlength ⊢
    simp only [List.length_cons, List.length_append] at hlength
    simp only [List.cons_append, List.append_assoc, List.head?_cons]
    cases kind with
    | specialize =>
      exact (answers_advance _).then
        (reads_specialization hexpr _ _ _ props htoken hcontent (by omega) (by omega))
    | extend =>
      exact (answers_advance _).then
        (reads_specialization hexpr _ _ _ props htoken hcontent (by omega) (by omega))
  | @inlineRule start id props body hid hany _ h =>
    rw [Expr.tokens] at hlength
    simp only [List.length_cons, List.length_append] at hlength
    exact reads_inlineRule hexpr start props hany h (by omega)
  | literal => exact (answers_advance _).then (reads_pure rfl)
  | set => exact (answers_advance _).then (reads_pure rfl)
  | any =>
    refine (reads_ident _).bind fun id hid => ?_
    rw [if_pos hid]
    exact reads_pure rfl
  | charClass _ cls =>
    cases cls <;> exact (answers_advance _).then (reads_pure rfl)
  | choice => simp [Expr.tightness] at htight
  | empty => simp [Expr.empty, Expr.tightness] at htight
  | sequence => simp [Expr.tightness] at htight
  | repeated => simp [Expr.tightness] at htight

/-- An expression in front of a repeat sign. -/
theorem reads_repeated {m : Expr} (h : m.IsNormal)
    (hlength : (if m.tightness < 4 then inParens m.tokens else m.tokens).length ≤ n)
    (hts : Avoids brackets ts) :
    Reads (primary expr) ((if m.tightness < 4 then inParens m.tokens else m.tokens) ++ ts) ts
      fun e => e.bare = m.bare := by
  split at hlength
  next hloose =>
    rw [if_pos hloose]
    simp only [inParens, List.length_cons, List.length_append] at hlength
    exact reads_inParens hexpr h (by omega)
  next htight =>
    rw [if_neg htight]
    exact reads_primary hexpr h (Nat.le_of_not_lt htight) hlength hts

omit hexpr in
theorem answers_repeatsFrom (start fuel : Nat) (body : Expr) (hts : Avoids continuations ts) :
    Answers (repeatsFrom start (fuel + 1) body) ts ts body := by
  rw [repeatsFrom]
  refine answers_peek.then ?_
  have hnone : repeatKind? ts.head? = none := by
    rw [repeatKind?.eq_def]
    split
    next heq => exact absurd heq (hts.head?_ne (by decide))
    next heq => exact absurd heq (hts.head?_ne (by decide))
    next heq => exact absurd heq (hts.head?_ne (by decide))
    next => rfl
  rw [hnone]
  exact reads_pure rfl

/-- An element of a sequence. -/
theorem reads_suffixed {e : Expr} (h : e.IsNormal) (hdirect : e.isSequence = true → e.isEmpty = true)
    (fuel : Nat) (hlength : (Expr.pieceTokens (.inr e)).length ≤ n) (hts : Avoids continuations ts) :
    Reads (suffixed expr (fuel + 2)) (Expr.pieceTokens (.inr e) ++ ts) ts
      fun e' => e'.bare = e.bare := by
  have hbrackets : Avoids brackets ts := hts.mono (by decide)
  rw [Expr.pieceTokens] at hlength ⊢
  rw [suffixed]
  refine reads_offset.bind fun start _ => ?_
  have hend {e' : Expr} (he' : e'.bare = e.bare) :
      Reads (repeatsFrom start (fuel + 2) e') ts ts fun e' => e'.bare = e.bare :=
    (answers_repeatsFrom start (fuel + 1) e' hts).mono fun x hx => hx ▸ he'
  split at hlength
  next hloose =>
    rw [if_pos hloose]
    simp only [inParens, List.length_cons, List.length_append] at hlength
    exact (reads_inParens hexpr h (by omega)).bind fun e' he' => hend he'
  next htight =>
    rw [if_neg htight]
    cases h with
    | choice => simp [Expr.tightness] at htight
    | empty => exact (reads_empty _).bind fun e' he' => hend he'
    | @sequence _ elements markers _ hmany _ _ _ =>
      -- A sequence with parts is not an element.
      have hempty := hdirect rfl
      rw [Expr.isEmpty, Bool.and_eq_true, List.isEmpty_iff] at hempty
      obtain ⟨rfl, hmarkers⟩ := hempty
      have hnone : markers.flatten = [] := by
        simpa [List.flatten_eq_nil_iff] using hmarkers
      exact absurd hmany (by simp [hnone])
    | @repeated _ body kind h =>
      rw [Expr.tokens] at hlength ⊢
      rw [List.length_append, List.length_singleton] at hlength
      rw [List.append_assoc, List.singleton_append]
      refine (reads_repeated hexpr h (by omega) ?_).bind fun body' hbody => ?_
      · intro c hc
        cases kind <;> cases hc <;> decide
      · rw [repeatsFrom]
        refine answers_peek.then ?_
        have hkind : repeatKind? (kind.token :: ts).head? = some kind := by cases kind <;> rfl
        rw [hkind]
        refine (answers_advance _).then ((answers_repeatsFrom start fuel _ hts).mono ?_)
        rintro _ rfl
        simp [Expr.bare, hbody]
    | _ =>
      exact (reads_primary hexpr (by constructor <;> assumption) (by simp [Expr.tightness]) hlength
        hbrackets).bind fun e' he' => hend he'

/-! ## §4 Expressions -/

omit hexpr in
/-- Behind a piece of a sequence nothing comes that continues it. -/
theorem avoids_pieces {elements : List Expr} {markers : List (List Marker)}
    (hmarkers : markers.length = elements.length + 1) (h : ∀ e ∈ elements, e.IsNormal)
    (hdirect : ∀ e ∈ elements, e.isSequence = true → e.isEmpty = true)
    (hts : endsSequence ts.head? = true) :
    Avoids continuations ((Expr.pieces elements markers).flatMap Expr.pieceTokens ++ ts) := by
  have hall : ∀ p ∈ Expr.pieces elements markers, Opens openings (Expr.pieceTokens p) :=
    Expr.forall_mem_pieces hmarkers (fun _ _ m _ => opens_marker m)
      fun e he => (opens_element (h e he) (hdirect e he)).mono (by decide)
  cases hps : Expr.pieces elements markers with
  | nil => exact (avoids_of_endsSequence hts).mono (by decide)
  | cons p ps =>
    rw [hps] at hall
    rw [List.flatMap_cons, List.append_assoc]
    exact ((hall p List.mem_cons_self).append _).avoids

theorem reads_elements {elements : List Expr} {markers : List (List Marker)}
    (hmarkers : markers.length = elements.length + 1) (h : ∀ e ∈ elements, e.IsNormal)
    (hdirect : ∀ e ∈ elements, e.isSequence = true → e.isEmpty = true) {fuel : Nat}
    (hlength : ((Expr.pieces elements markers).flatMap Expr.pieceTokens).length ≤ n)
    (hfuel : ((Expr.pieces elements markers).flatMap Expr.pieceTokens).length < fuel)
    (hts : endsSequence ts.head? = true) :
    Reads (Reader.elements expr fuel)
      ((Expr.pieces elements markers).flatMap Expr.pieceTokens ++ ts) ts fun parts =>
        parts.1.map Expr.bare = elements.map Expr.bare ∧
          parts.2.map (List.map Marker.bare) = markers.map (List.map Marker.bare) := by
  have hgap (gap : List Marker) : gap.length ≤ (gap.flatMap Marker.tokens).length :=
    length_le_length_flatMap fun m _ => by
      obtain ⟨t, rest, hm, -⟩ := opens_marker m
      rw [hm]
      exact List.cons_ne_nil _ _
  induction elements generalizing markers fuel with
  | nil =>
    obtain ⟨gap, rfl⟩ := List.length_eq_one_iff.mp hmarkers
    have hpieces : (Expr.pieces [] [gap]).flatMap Expr.pieceTokens = gap.flatMap Marker.tokens := by
      simp only [Expr.pieces, List.flatten_singleton, List.flatMap_map, Expr.pieceTokens]
    rw [hpieces] at hfuel ⊢
    have := hgap gap
    cases fuel with
    | zero => cases hfuel
    | succ fuel =>
      rw [Reader.elements]
      have hend := fun c (hc : c ∈ ['~', '!']) =>
        (avoids_of_endsSequence hts).head?_ne (c := c) (List.mem_append_left continuations hc)
      refine (reads_gap gap (by omega) hend).bind fun gap' hgap' => answers_peek.then ?_
      rw [hts]
      exact reads_pure ⟨rfl, by simp [hgap']⟩
  | cons e elements ih =>
    obtain ⟨gap, gaps, rfl⟩ := List.exists_cons_of_length_eq_add_one hmarkers
    obtain ⟨he, hes⟩ := List.forall_mem_cons.mp h
    obtain ⟨hdirect, hdirects⟩ := List.forall_mem_cons.mp hdirect
    have hmarkers : gaps.length = elements.length + 1 := Nat.succ.inj hmarkers
    have hpieces : (Expr.pieces (e :: elements) (gap :: gaps)).flatMap Expr.pieceTokens =
        gap.flatMap Marker.tokens ++ (Expr.pieceTokens (.inr e) ++
          (Expr.pieces elements gaps).flatMap Expr.pieceTokens) := by
      simp only [Expr.pieces, List.head?_cons, Option.getD_some, List.tail_cons, List.flatMap_append,
        List.flatMap_map, List.flatMap_cons]
      rfl
    have hopens := opens_element he hdirect
    have hpos : 0 < (Expr.pieceTokens (.inr e)).length := by
      obtain ⟨t, rest, heq, -⟩ := hopens
      rw [heq]
      exact Nat.succ_pos _
    rw [hpieces] at hlength hfuel ⊢
    simp only [List.length_append] at hlength hfuel
    have := hgap gap
    -- At least one token is left for the element.
    obtain ⟨fuel, rfl⟩ : ∃ fuel', fuel = fuel' + 2 := ⟨fuel - 2, by omega⟩
    rw [Reader.elements, List.append_assoc, List.append_assoc]
    have hnext := hopens.append ((Expr.pieces elements gaps).flatMap Expr.pieceTokens ++ ts)
    refine (reads_gap gap (by omega) fun c hc => hnext.head?_ne ?_).bind fun gap' hgap' =>
      answers_peek.then ?_
    · have hsigns : ['~', '!'].Forall (· ∉ ['(']) := by decide
      exact List.forall_iff_forall_mem.mp hsigns c hc
    · rw [(hnext.mono (by decide)).endsSequence_eq]
      refine (reads_suffixed hexpr he hdirect fuel (by omega)
        (avoids_pieces hmarkers hes hdirects hts)).bind fun e' he' => ?_
      have hrest : ((Expr.pieces elements gaps).flatMap Expr.pieceTokens).length < fuel + 1 := by
        omega
      refine (ih hmarkers hes hdirects (by omega) hrest).bind fun parts hparts => reads_pure ?_
      exact ⟨by simp [he', hparts.1], by simp [hgap', hparts.2]⟩

/-- An expression that is no choice. -/
theorem reads_sequence {m : Expr} (h : m.IsNormal) (hchoice : m.isChoice = false) {fuel : Nat}
    (hlength : m.tokens.length ≤ n) (hfuel : m.tokens.length < fuel)
    (hts : endsSequence ts.head? = true) :
    Reads (sequence expr fuel) (m.tokens ++ ts) ts fun e => e.bare = m.bare := by
  have hall {gaps markers : List (List Marker)}
      (h : gaps.map (List.map Marker.bare) = markers.map (List.map Marker.bare)) :
      gaps.all (·.isEmpty) = markers.all (·.isEmpty) := by
    simpa [List.all_map, Function.comp_def] using congrArg (List.all · List.isEmpty) h
  rw [sequence]
  refine reads_offset.bind fun start _ => ?_
  by_cases hsingle : m.isSequence = true → m.isEmpty = true
  · have htight : ¬ m.tightness < 2 := by
      cases m with
      | choice => cases hchoice
      | _ => simp [Expr.tightness]
    have htokens : m.tokens = (Expr.pieces [m] [[], []]).flatMap Expr.pieceTokens := by
      simp [Expr.pieces, Expr.pieceTokens, htight]
    rw [htokens] at hlength hfuel ⊢
    have hmarkers : ([[], []] : List (List Marker)).length = [m].length + 1 := rfl
    refine (reads_elements hexpr hmarkers (List.forall_mem_singleton.mpr h)
      (List.forall_mem_singleton.mpr hsingle) hlength hfuel hts).bind ?_
    rintro ⟨parts, gaps⟩ ⟨hparts, hgaps⟩
    obtain ⟨only, rfl, honly⟩ := List.map_eq_singleton_iff.mp hparts
    dsimp only
    rw [hall hgaps]
    exact reads_pure honly
  · obtain ⟨hseq, hempty⟩ := Classical.not_imp.mp hsingle
    cases h with
    | empty => exact absurd rfl hempty
    | @sequence start' elements markers hmarkers hmany _ h hdirect =>
      have htokens : (Expr.sequence start' elements markers).tokens =
          (Expr.pieces elements markers).flatMap Expr.pieceTokens := by
        rw [Expr.isEmpty] at hempty
        rw [Expr.tokens, if_neg hempty, Expr.elementTokens_eq]
      rw [htokens] at hlength hfuel ⊢
      refine (reads_elements hexpr hmarkers h hdirect hlength hfuel hts).bind ?_
      rintro ⟨parts, gaps⟩ ⟨hparts, hgaps⟩
      have hresult : (Expr.sequence start parts gaps).bare =
          (Expr.sequence start' elements markers).bare := by
        simp [Expr.bare, hparts, hgaps]
      dsimp only
      split
      next only =>
        have hone : elements.length = 1 := by simpa using (congrArg List.length hparts).symm
        have hmarked : markers.all (·.isEmpty) = false := by
          rw [← Bool.not_eq_true]
          simpa [List.flatten_eq_nil_iff] using hmany.resolve_left (by omega)
        rw [hall hgaps, hmarked]
        exact reads_pure hresult
      next => exact reads_pure hresult
    | _ => cases hseq

theorem reads_alternatives {e : Expr} {es : List Expr} (he : e.IsNormal)
    (hes : ∀ e ∈ es, e.IsNormal) (hchoice : e.isChoice = false)
    (hchoices : ∀ e ∈ es, e.isChoice = false) {fuel : Nat}
    (hlength : (e.tokens ++ es.flatMap (fun e => .punct '|' :: e.tokens)).length ≤ n)
    (hfuel : (e.tokens ++ es.flatMap (fun e => .punct '|' :: e.tokens)).length < fuel)
    (hts : Closes ts) :
    Reads (alternatives expr fuel)
      (e.tokens ++ (es.flatMap (fun e => .punct '|' :: e.tokens) ++ ts)) ts
      fun es' => es'.map Expr.bare = (e :: es).map Expr.bare := by
  induction es generalizing e fuel with
  | nil =>
    cases fuel with
    | zero => cases hfuel
    | succ fuel =>
      rw [alternatives]
      simp only [List.flatMap_nil, List.append_nil] at hlength hfuel
      refine (reads_sequence hexpr he hchoice hlength hfuel hts.1).bind fun e' he' =>
        (answers_eat_of_ne hts.2).then (reads_pure ?_)
      rw [List.map_singleton, he', List.map_singleton]
  | cons e₁ es ih =>
    obtain ⟨he₁, hes⟩ := List.forall_mem_cons.mp hes
    obtain ⟨hchoice₁, hchoices⟩ := List.forall_mem_cons.mp hchoices
    simp only [List.flatMap_cons, List.length_append, List.length_cons] at hlength hfuel
    cases fuel with
    | zero => cases hfuel
    | succ fuel =>
      rw [alternatives, List.flatMap_cons, List.append_assoc, List.cons_append]
      refine (reads_sequence hexpr he hchoice (by omega) (by omega) rfl).bind fun e' he' =>
        (answers_eat _).then ?_
      refine (ih he₁ hes hchoice₁ hchoices (by simp only [List.length_append]; omega)
        (by simp only [List.length_append]; omega)).bind fun es' hes' => reads_pure ?_
      rw [List.map_cons, he', hes', List.map_cons (l := e₁ :: es)]

theorem reads_choice {m : Expr} (h : m.IsNormal) {fuel : Nat} (hlength : m.tokens.length ≤ n)
    (hfuel : m.tokens.length < fuel) (hts : Closes ts) :
    Reads (choice expr fuel) (m.tokens ++ ts) ts fun e => e.bare = m.bare := by
  rw [choice]
  refine reads_offset.bind fun start _ => ?_
  cases hchoice : m.isChoice with
  | false =>
    have hnone : ∀ e ∈ ([] : List Expr), e.IsNormal := nofun
    refine (reads_alternatives hexpr h hnone hchoice nofun (by simpa using hlength)
      (by simpa using hfuel) hts).bind fun es hes => ?_
    obtain ⟨only, rfl, honly⟩ := List.map_eq_singleton_iff.mp hes
    exact reads_pure honly
  | true =>
    cases h with
    | @choice _ alternatives hmany h hdirect =>
      obtain ⟨e, es, rfl⟩ := List.exists_cons_of_length_pos (Nat.lt_of_lt_of_le Nat.two_pos hmany)
      obtain ⟨he, hes⟩ := List.forall_mem_cons.mp h
      obtain ⟨hchoice, hchoices⟩ := List.forall_mem_cons.mp hdirect
      rw [Expr.tokens, Expr.tokensAll_eq, List.map_cons, intercalate_cons, List.flatMap_map]
        at hlength hfuel ⊢
      rw [List.append_assoc]
      refine (reads_alternatives hexpr he hes hchoice hchoices hlength hfuel hts).bind
        fun es' hes' => ?_
      split
      next only =>
        have hone : 1 = es.length + 1 := by simpa using congrArg List.length hes'
        rw [List.length_cons, ← hone] at hmany
        exact absurd hmany (by decide)
      next => exact reads_pure (by simp [Expr.bare, hes'])
    | _ => cases hchoice

end

/-- Normal expressions are read as what they are. -/
theorem readsBelow_exprWithin (n : Nat) : ReadsBelow (exprWithin n) n := by
  induction n with
  | zero => exact fun m _ hlength => absurd hlength (Nat.not_lt_zero _)
  | succ n ih =>
    intro m h hlength ts hts
    rw [exprWithin]
    exact reads_choice ih h (Nat.le_of_lt_succ hlength) hlength hts

theorem reads_expr {m : Expr} (h : m.IsNormal) (hts : Closes ts) :
    Reads expr (m.tokens ++ ts) ts fun e => e.bare = m.bare := by
  refine reads_get.bind fun tokens htokens => readsBelow_exprWithin _ m h ?_ ts hts
  rw [htokens.length_eq, List.length_append]
  omega

/-! ## §5 Rules -/

/-- A rule that has neither props nor parameters. -/
theorem reads_rule {m : Expr} (h : m.IsNormal) (id : String) :
    Reads rule (.name id :: .punct '\x7b' :: (m.tokens ++ .punct '\x7d' :: ts)) ts
      fun r => ∃ start body, r = ⟨⟨start, id⟩, [], [], body⟩ ∧ body.bare = m.bare := by
  refine (reads_ident id).bind fun id hid => ?_
  refine (answers_props (by simp)).then ((answers_params (by simp)).then ((answers_expect _).then ?_))
  refine (reads_expr h (closes_punct (by decide) _)).bind fun body hbody =>
    (answers_expect _).then (reads_pure ⟨id.start, body, ?_, hbody⟩)
  rw [← hid]

/-- A grammar of one top rule. -/
theorem reads_grammar {m : Expr} (h : m.IsNormal) (id : String) :
    Reads grammar (.atName "top" :: .name id :: .punct '\x7b' :: (m.tokens ++ [.punct '\x7d'])) []
      fun g => ∃ start body, g = { topRules := [⟨⟨start, id⟩, [], [], body⟩] } ∧
        body.bare = m.bare := by
  refine reads_get.bind fun tokens htokens => (answers_continueAt htokens).then
    (reads_get.bind fun tokens htokens => ?_)
  rw [htokens.length_eq, List.length_cons, declarations]
  have hrule : Reads (declaration {}) (.atName "top" :: .name id :: .punct '\x7b' ::
      (m.tokens ++ [.punct '\x7d'])) [] fun g => ∃ start body,
        g = { topRules := [⟨⟨start, id⟩, [], [], body⟩] } ∧ body.bare = m.bare := by
    refine reads_offset.bind fun _ _ => answers_peek.then ((answers_advance _).then ?_)
    refine (reads_rule h id).bind ?_
    rintro _ ⟨start, body, rfl, hbody⟩
    exact reads_pure ⟨start, body, rfl, hbody⟩
  refine answers_peek.then (hrule.bind fun g hg => ?_)
  rw [List.length_cons, declarations]
  exact answers_peek.then (reads_pure hg)

end Reader

/-- A top rule with a text as its body. -/
def topRule (body : String) : String :=
  "@top T \x7b " ++ body ++ " \x7d"

namespace Lexer

theorem are_tokens {text : String} {ts : List Token} (h : IsText text.toList ts) :
    (tokens text).Are ts :=
  h _ _ (by rw [String.length_toList]; exact Nat.lt_succ_self _)

theorem isText_topRule {text : String} {ts : List Token} (h : Spells text.toList ts) :
    IsText (topRule text).toList
      (.atName "top" :: .name "T" :: .punct '\x7b' :: (ts ++ [.punct '\x7d'])) := by
  have htop : IsName "top" := ⟨by decide, List.forall_iff_forall_mem.mp (by decide)⟩
  have hname : IsName "T" := ⟨by decide, List.forall_iff_forall_mem.mp (by decide)⟩
  have hbody := h.append (c := ' ') (by decide) (spells_nil.punct (c := '\x7d') (by decide)).blank
  have hrule := (spells_name hname).append (by decide)
    (hbody.blank.punct (c := '\x7b') (by decide)).blank
  have hall := (spells_atName htop).append (by decide) hrule.blank [] [] nofun isText_nil
  simpa [topRule] using hall

end Lexer

namespace GrammarDecl

/-- Every normal expression is read back from what it prints as, apart from places. -/
theorem parse_of_isNormal {m : Expr} (h : m.IsNormal) (file : String) :
    ∃ start body,
      parse ⟨file, topRule m.shown⟩ = .ok { topRules := [⟨⟨start, "T"⟩, [], [], body⟩] } ∧
        body.bare = m.bare := by
  have htext := Lexer.are_tokens (Lexer.isText_topRule h.spells)
  obtain ⟨_, _, hread, -, start, body, rfl, hbody⟩ := Reader.reads_grammar h "T" _ htext
  exact ⟨start, body, by rw [parse, hread], hbody⟩

/-- Printing and reading again: if a rule is read from a text and has no props inside, what it
prints as is read as a body that prints alike. It is the same body apart from places, if no
sequence is an element of a sequence and no choice an alternative of a choice. -/
theorem parse_shown {file text : String} {g : GrammarDecl} (h : parse ⟨file, topRule text⟩ = .ok g)
    {r : RuleDecl} (hr : r ∈ g.topRules) (hprops : r.body.hasNoProps = true) :
    ∃ start body,
      parse ⟨file, topRule r.body.shown⟩ = .ok { topRules := [⟨⟨start, "T"⟩, [], [], body⟩] } ∧
        body.shown = r.body.shown ∧ (r.body.isFlat = true → body.bare = r.body.bare) := by
  obtain ⟨m, hm⟩ := ((isReadable_parse h).tops r hr).exists_prints hprops
  obtain ⟨start, body, hread, hbare⟩ := parse_of_isNormal hm.isNormal file
  rw [hm.shown_eq] at hread
  refine ⟨start, body, hread, ?_, fun hflat => ?_⟩
  · rw [← body.shown_bare, hbare, m.shown_bare, hm.shown_eq]
  · rw [hbare, hm.eq_of_isFlat hflat]

/-- A body with a marker, arguments, an inline rule, a set and a specialization. -/
def printedBody : String :=
  "a !p b<c, \"x\\n\"> | e \x7b ($[a-f] | ~q) @digit* \x7d | @specialize<d, \"y\">"

/-- It has no props inside and is flat, so it is read again as the same. -/
theorem parse_shown_printedBody : ∃ g r start body,
    parse ⟨"", topRule printedBody⟩ = .ok g ∧ r ∈ g.topRules ∧ r.body.hasNoProps = true ∧
      r.body.isFlat = true ∧
      parse ⟨"", topRule r.body.shown⟩ = .ok { topRules := [⟨⟨start, "T"⟩, [], [], body⟩] } ∧
      body.bare = r.body.bare := by
  have hcheck : (parse ⟨"", topRule printedBody⟩).toOption.any (fun g => g.topRules.any fun r =>
      r.body.hasNoProps && r.body.isFlat) = true := by
    decide +kernel
  obtain ⟨g, hg, htops⟩ := exists_ok_of_any hcheck
  obtain ⟨r, hr, hbody⟩ := List.any_eq_true.mp htops
  rw [Bool.and_eq_true] at hbody
  obtain ⟨start, body, hparse, -, hbare⟩ := parse_shown hg hr hbody.1
  exact ⟨g, r, start, body, hg, hr, hbody.1, hbody.2, hparse, hbare hbody.2⟩

end GrammarDecl

end GrammarCompiler
