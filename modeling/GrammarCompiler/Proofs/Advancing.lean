/-
GrammarCompiler.Proofs.Advancing — readers move on in a text.

What a reader passes on are tokens behind those it took, and what it answers starts
where one of them does. Every round in a loop takes a token, apart from the first round
of a list of arguments, whose first argument may be empty. So the tokens bound the
rounds and the depth, and no reader runs out of fuel.

  §1 Readers      — what holds of a reader whatever the tokens are.
  §2 Lists        — items, blocks, and the parts of rules.
  §3 Expressions  — reading expressions.
  §4 Declarations — reading declarations.
  §5 Loops        — the loops of the parser.
  §6 Texts        — grammars that are read from texts.
-/
import GrammarCompiler.Declaration.Parser
import GrammarCompiler.Proofs.Lists
import GrammarCompiler.Proofs.Offsets
import GrammarCompiler.Proofs.Parsing

namespace GrammarCompiler

open Text

namespace Reader

/-! ## §1 Readers -/

variable {α β : Type} {plan : Plan} {lo start : Nat} {tokens : Tokens}

/-- Reading passes on tokens that are placed, and no more than there were, or
gives up at a place that is allowed. -/
def Gives (plan : Plan) (lo : Nat) (tokens : Tokens) (m : Reader α) (Q : α → Tokens → Prop) :
    Prop :=
  Concludes (fun x rest => rest.ArePlaced plan lo ∧ rest.length ≤ tokens.length ∧ Q x rest)
    (plan.Allows lo) (m tokens)

section

variable {P Q : α → Tokens → Prop} {S : β → Tokens → Prop} {m : Reader α} {f : α → Reader β}

theorem Gives.bind (hm : Gives plan lo tokens m P)
    (hf : ∀ x rest, rest.ArePlaced plan lo → rest.length ≤ tokens.length → P x rest →
      Gives plan lo rest (f x) S) : Gives plan lo tokens (m >>= f) S :=
  Concludes.bind hm fun x rest hx => Concludes.mono (hf x rest hx.1 hx.2.1 hx.2.2)
    (fun _ _ h => ⟨h.1, h.2.1.trans hx.2.1, h.2.2⟩) fun _ he => he

theorem Gives.mono (hm : Gives plan lo tokens m P)
    (h : ∀ x rest, rest.length ≤ tokens.length → P x rest → Q x rest) :
    Gives plan lo tokens m Q :=
  Concludes.mono hm (fun x rest hx => ⟨hx.1, hx.2.1, h x rest hx.2.1 hx.2.2⟩) fun _ he => he

/-- Reading a thing reads what it is part of. -/
theorem Gives.within (hm : Gives plan start tokens m Q) (hstart : plan.Holds lo start) :
    Gives plan lo tokens m Q :=
  Concludes.mono hm (fun _ _ hx => ⟨hx.1.of_holds hstart, hx.2⟩)
    fun _ he => ⟨plan.holds_trans hstart he.1, he.2⟩

theorem Gives.ite {c : Prop} {_ : Decidable c} {m' : Reader α}
    (h : c → Gives plan lo tokens m Q) (h' : ¬c → Gives plan lo tokens m' Q) :
    Gives plan lo tokens (if c then m else m') Q := by
  split
  next hc => exact h hc
  next hc => exact h' hc

theorem gives_pure {x : α} (h : tokens.ArePlaced plan lo) (hx : Q x tokens) :
    Gives plan lo tokens (pure x) Q :=
  ⟨h, Nat.le_refl _, hx⟩

theorem gives_fail {fault : SyntaxFault} {offset : Nat} (h : plan.Holds lo offset)
    (hfault : fault = .nestingTooDeep → plan.deep) :
    Gives plan lo tokens (fail fault offset) Q :=
  ⟨h, hfault⟩

theorem gives_fail_bind {fault : SyntaxFault} {offset : Nat} (h : plan.Holds lo offset)
    (hfault : fault ≠ .nestingTooDeep) : Gives plan lo tokens (fail fault offset >>= f) S :=
  ⟨h, fun heq => absurd heq hfault⟩

end

section

variable {Q : α → Tokens → Prop}

theorem gives_get_bind {f : Tokens → Reader α} (hf : Gives plan lo tokens (f tokens) Q) :
    Gives plan lo tokens (get >>= f) Q :=
  hf

theorem gives_offset_bind {f : Nat → Reader α} (h : tokens.ArePlaced plan lo)
    (hf : ∀ start, plan.Holds lo start → tokens.ArePlaced plan start →
      Gives plan start tokens (f start) Q) : Gives plan lo tokens (offset >>= f) Q := by
  cases tokens with
  | cons start token rest =>
    exact (hf start h.1 ⟨plan.holds_self h.1, h.2⟩).within h.1
  | done start => exact (hf start h (plan.holds_self h)).within h
  | broken fault offset => exact (hf offset h.1 ⟨plan.holds_self h.1, h.2⟩).within h.1

theorem gives_peek_bind {f : Option Token → Reader α}
    (hf : ∀ found, (∀ token, found = some token → 0 < tokens.length) →
      Gives plan lo tokens (f found) Q) : Gives plan lo tokens (peek >>= f) Q := by
  cases tokens with
  | cons start token rest => exact hf (some token) fun _ _ => Nat.succ_pos _
  | done start => exact hf none nofun
  | broken fault offset => exact hf none nofun

theorem gives_continueAt {rest : Tokens} (h : rest.ArePlaced plan lo)
    (hlength : rest.length ≤ tokens.length) :
    Gives plan lo tokens (continueAt rest) fun _ rest' => rest' = rest := by
  cases rest with
  | cons start token rest => exact ⟨h, hlength, rfl⟩
  | done start => exact ⟨h, hlength, rfl⟩
  | broken fault offset => exact h

theorem gives_advance (h : tokens.ArePlaced plan lo) :
    Gives plan lo tokens advance fun _ rest =>
      0 < tokens.length → rest.length < tokens.length := by
  cases tokens with
  | cons start token rest =>
    exact (gives_continueAt (h.2.of_holds h.1) (Nat.le_succ _)).mono
      fun _ _ _ heq _ => heq ▸ Nat.lt_succ_self _
  | done start => exact gives_pure h fun h => absurd h (Nat.lt_irrefl 0)
  | broken fault offset => exact gives_pure h fun h => absurd h (Nat.lt_irrefl 0)

theorem gives_unexpected (h : tokens.ArePlaced plan lo) :
    Gives plan lo tokens (unexpected : Reader α) Q := by
  refine gives_peek_bind fun found _ => ?_
  split <;> exact gives_offset_bind h fun _ hstart _ => gives_fail (plan.holds_self hstart) nofun

theorem gives_eat (h : tokens.ArePlaced plan lo) (token : Token) :
    Gives plan lo tokens (eat token) fun found rest =>
      if found then rest.length < tokens.length else rest = tokens := by
  have hnext : Gives plan lo tokens (nextIs token) fun found rest =>
      rest = tokens ∧ (found = true → 0 < tokens.length) :=
    gives_peek_bind fun found hfound =>
      gives_pure h ⟨rfl, fun heq => hfound token (eq_of_beq heq)⟩
  refine hnext.bind fun found rest hrest _ heq => ?_
  obtain ⟨rfl, hpos⟩ := heq
  exact .ite (fun hfound => (gives_advance h).bind fun _ _ hrest _ hlength =>
      gives_pure hrest (hlength (hpos hfound)))
    fun _ => gives_pure h rfl

theorem gives_expect (h : tokens.ArePlaced plan lo) (token : Token) :
    Gives plan lo tokens (expect token) fun _ rest => rest.length < tokens.length := by
  refine (gives_eat h token).bind fun found rest hrest _ hfound => ?_
  cases found with
  | true => exact gives_pure hrest hfound
  | false => exact gives_unexpected hrest

theorem gives_ident (h : tokens.ArePlaced plan lo) :
    Gives plan lo tokens ident fun id rest =>
      plan.Holds lo id.start ∧ rest.ArePlaced plan id.start ∧ rest.length < tokens.length := by
  refine gives_get_bind ?_
  split
  next start text rest =>
    refine (gives_continueAt (h.2.of_holds h.1) (Nat.le_succ _)).bind fun _ rest' hrest _ heq => ?_
    subst heq
    exact gives_pure hrest ⟨h.1, h.2, Nat.lt_succ_self _⟩
  next => exact gives_unexpected h

theorem gives_string (h : tokens.ArePlaced plan lo) :
    Gives plan lo tokens string fun _ rest => rest.length < tokens.length := by
  refine gives_get_bind ?_
  split
  next start text rest =>
    refine (gives_continueAt (h.2.of_holds h.1) (Nat.le_succ _)).bind fun _ rest' hrest _ heq => ?_
    exact gives_pure hrest (heq ▸ Nat.lt_succ_self _)
  next => exact gives_unexpected h

end

/-! ## §2 Lists -/

/-- Gives up because the fuel has run out. -/
def tooDeep : Reader α := do
  fail .nestingTooDeep (← offset)

theorem gives_tooDeep {Q : α → Tokens → Prop} (h : tokens.ArePlaced plan lo)
    (hdeep : plan.deep) : Gives plan lo tokens tooDeep Q :=
  gives_offset_bind h fun _ hstart _ => gives_fail (plan.holds_self hstart) fun _ => hdeep

/-- What loops of the parser end with. `extra` is the number of rounds that take no
token, and `I` and `R` are about states and results. -/
theorem gives_run (l : Loop Tokens) (extra : l.State → Nat) {I : l.State → Tokens → Prop}
    {R : Tokens → l.Result → Tokens → Prop} (hzero : ∀ s, l.run 0 s = tooDeep)
    (hround : ∀ fuel s tokens, plan.deep ∨ tokens.length + extra s < fuel + 1 →
      tokens.ArePlaced plan lo → I s tokens →
      Gives plan lo tokens (l.round fuel s) fun r rest => r.Is (fun next finish =>
        rest.length + extra next < tokens.length + extra s ∧ I next rest ∧
          ∀ x rest', rest'.length ≤ rest.length → R rest x rest' → R tokens (finish x) rest')
        (R tokens · rest))
    {fuel : Nat} {s : l.State} (hfuel : plan.deep ∨ tokens.length + extra s < fuel)
    (h : tokens.ArePlaced plan lo) (hs : I s tokens) :
    Gives plan lo tokens (l.run fuel s) (R tokens) := by
  refine l.concludes_run plan.deep (fun s tokens => tokens.length + extra s)
    (I := fun s tokens => tokens.ArePlaced plan lo ∧ I s tokens)
    (Q := fun _ tokens x rest =>
      rest.ArePlaced plan lo ∧ rest.length ≤ tokens.length ∧ R tokens x rest)
    (fun hdeep s tokens hs => ?_) (fun fuel s tokens hfuel hs => ?_) fuel hfuel ⟨h, hs⟩
  · rw [hzero]
    exact gives_tooDeep hs.1 hdeep
  · refine Concludes.mono (hround fuel s tokens hfuel hs.1 hs.2)
      (fun r rest hr => ?_) fun _ he => he
    obtain ⟨hrest, hlength, hr⟩ := hr
    cases r with
    | leave x => exact ⟨hrest, hlength, hr⟩
    | again next finish =>
      obtain ⟨hsize, hnext, hfinish⟩ := hr
      exact ⟨hsize, ⟨hrest, hnext⟩, fun x rest' hx =>
        ⟨hx.1, hx.2.1.trans hlength, hfinish x rest' hx.2.1 hx.2.2⟩⟩

/-- A loop makes progress if its rounds do, whatever the tokens are. -/
theorem progresses_of_gives {l : Loop Tokens}
    {Q : Nat → l.State → Tokens → Round l.State l.Result → Tokens → Prop}
    (hround : ∀ fuel s tokens, Gives .any 0 tokens (l.round fuel s) (Q fuel s tokens))
    (hQ : ∀ fuel s tokens next finish rest, Q fuel s tokens (.again next finish) rest →
      rest.length < tokens.length) : l.Progresses Tokens.length :=
  fun fuel s tokens next finish rest h =>
    hQ fuel s tokens next finish rest ((hround fuel s tokens).of_eq_ok h).2.2

/-- A round of reading items up to a closing token. -/
def itemsRound (close : Token) (item : Reader α) (first : Bool) :
    Reader (Round Bool (List α)) := do
  if ← eat close then return .leave []
  unless first do expect (.punct ',')
  let x ← item
  return .again false (x :: ·)

/-- Reading items up to a closing token. -/
def itemList (close : Token) (item : Reader α) : Loop Tokens where
  State := Bool
  Result := List α
  run fuel first := itemsFrom close item fuel first
  round _ := itemsRound close item
  run_succ := by
    intro fuel first
    rw [itemsFrom, itemsRound, bind_assoc]
    refine bind_congr fun closed => ?_
    cases closed <;> cases first <;> simp

theorem gives_itemsRound {close : Token} {item : Reader α} {J : Tokens → α → Tokens → Prop}
    {first : Bool} (h : tokens.ArePlaced plan lo)
    (hitem : ∀ before, before.ArePlaced plan lo → before.length ≤ tokens.length →
      Gives plan lo before item (J before)) :
    Gives plan lo tokens (itemsRound close item first) fun r rest => r.Is
      (fun next finish => next = false ∧ ∃ x before, finish = (x :: ·) ∧ J before x rest ∧
        rest.length ≤ before.length ∧
          if first then before = tokens else before.length < tokens.length)
      (· = []) := by
  refine (gives_eat h close).bind fun closed rest hrest _ heat => ?_
  cases closed with
  | true => exact gives_pure hrest rfl
  | false =>
    cases heat
    cases first with
    | true =>
      exact (hitem tokens h (Nat.le_refl _)).bind fun x rest hrest hlength hx =>
        gives_pure hrest ⟨rfl, x, tokens, rfl, hx, hlength, rfl⟩
    | false =>
      refine (gives_expect h (.punct ',')).bind fun _ before hbefore hle hcomma => ?_
      exact (hitem before hbefore hle).bind fun x rest hrest hlength hx =>
        gives_pure hrest ⟨rfl, x, before, rfl, hx, hlength, hcomma⟩

theorem gives_items {close : Token} {item : Reader α} {P : α → Prop}
    (h : tokens.ArePlaced plan lo)
    (hitem : ∀ before, before.ArePlaced plan lo → before.length ≤ tokens.length →
      Gives plan lo before item fun x _ => P x) :
    Gives plan lo tokens (items close item) fun xs _ => ∀ x ∈ xs, P x := by
  -- A round that takes no token is the first one, so there is one round more than tokens.
  refine gives_get_bind (gives_run (itemList close item) Bool.toNat
    (I := fun _ rest => rest.length ≤ tokens.length) (R := fun _ (xs : List α) _ => ∀ x ∈ xs, P x)
    (fun _ => rfl) (fun fuel first before _ hbefore hle => ?_) (.inr (Nat.lt_succ_self _)) h
    (Nat.le_refl _))
  refine (gives_itemsRound hbefore fun before' hbefore' hle' =>
    hitem before' hbefore' (hle'.trans hle)).mono fun r rest hlength hr => ?_
  cases r with
  | leave xs =>
    cases hr
    exact nofun
  | again next finish =>
    obtain ⟨rfl, x, before', rfl, hx, hrest, hcomma⟩ := hr
    refine ⟨?_, hlength.trans hle, fun xs _ _ hxs => List.forall_mem_cons.mpr ⟨hx, hxs⟩⟩
    cases first with
    | true => exact Nat.lt_succ_of_le hlength
    | false => exact hrest.trans_lt hcomma

theorem progresses_itemList {close : Token} {item : Reader α} {P : α → Prop}
    (hitem : ∀ tokens, Gives .any 0 tokens item fun x rest => P x ∧ rest.length < tokens.length) :
    (itemList close item).Progresses Tokens.length := by
  refine progresses_of_gives (fun _ first tokens =>
    gives_itemsRound (tokens.arePlaced_any 0) fun before _ _ => hitem before)
    fun _ first tokens _ _ rest hr => ?_
  obtain ⟨-, x, before, -, hx, -, hcomma⟩ := hr
  refine hx.2.trans_le ?_
  cases first with
  | true => exact Nat.le_of_eq (congrArg _ hcomma)
  | false => exact hcomma.le

/-- A round of updating a value up to a closing token. -/
def foldRound (close : Token) (step : β → Reader β) (value : β) : Reader (Round β β) := do
  if ← eat close then return .leave value
  return .again (← step value) id

/-- Updating a value up to a closing token. -/
def foldItems (close : Token) (step : β → Reader β) : Loop Tokens where
  State := β
  Result := β
  run fuel value := foldUntil close step fuel value
  round _ := foldRound close step
  run_succ := by
    intro fuel value
    rw [foldUntil, foldRound, bind_assoc]
    refine bind_congr fun closed => ?_
    cases closed <;> simp

theorem gives_foldRound {close : Token} {step : β → Reader β} {S : β → Prop} {value : β}
    (h : tokens.ArePlaced plan lo)
    (hstep : Gives plan lo tokens (step value) fun value rest =>
      S value ∧ rest.length < tokens.length) :
    Gives plan lo tokens (foldRound close step value) fun r rest => r.Is
      (fun next finish => rest.length < tokens.length ∧ S next ∧ finish = id) (· = value) := by
  refine (gives_eat h close).bind fun closed rest hrest _ heat => ?_
  cases closed with
  | true => exact gives_pure hrest rfl
  | false =>
    cases heat
    exact hstep.bind fun next rest hrest _ hnext => gives_pure hrest ⟨hnext.2, hnext.1, rfl⟩

theorem gives_block {step : β → Reader β} {S : β → Prop} {value : β}
    (h : tokens.ArePlaced plan lo) (hvalue : S value)
    (hstep : ∀ value before, before.ArePlaced plan lo → S value →
      Gives plan lo before (step value) fun value rest => S value ∧ rest.length < before.length) :
    Gives plan lo tokens (block value step) fun value _ => S value := by
  refine gives_get_bind (gives_run (foldItems (.punct '\x7d') step) (fun _ => 0)
    (I := fun value _ => S value) (R := fun _ value _ => S value) (fun _ => rfl)
    (fun fuel value before _ hbefore hvalue => ?_) (.inr (Nat.lt_succ_self _)) h hvalue)
  refine (gives_foldRound hbefore (hstep value before hbefore hvalue)).mono fun r rest _ hr => ?_
  cases r with
  | leave value =>
    cases hr
    exact hvalue
  | again next finish =>
    obtain ⟨hlength, hnext, rfl⟩ := hr
    exact ⟨hlength, hnext, fun _ _ _ h => h⟩

theorem progresses_foldItems {close : Token} {step : β → Reader β} {S : β → Prop}
    (hstep : ∀ value tokens, Gives .any 0 tokens (step value) fun value rest =>
      S value ∧ rest.length < tokens.length) : (foldItems close step).Progresses Tokens.length :=
  progresses_of_gives (fun _ value tokens =>
    gives_foldRound (tokens.arePlaced_any 0) (hstep value tokens)) fun _ _ _ _ _ _ hr => hr.1

/-- A round of reading the value of a property. -/
def propPartsRound : Reader (Round Unit (List PropPart)) := do
  let start ← offset
  match ← peek with
  | some (.name text) =>
    advance
    return .again () (.text start text :: ·)
  | some (.string value) =>
    advance
    return .again () (.text start value :: ·)
  | some (.punct '.') =>
    advance
    return .again () (.text start "." :: ·)
  | some (.punct '\x7b') =>
    advance
    let id ← ident
    expect (.punct '\x7d')
    return .again () (.parameter start id.name :: ·)
  | _ => return .leave []

/-- Reading the value of a property. -/
def propPartList : Loop Tokens where
  State := Unit
  Result := List PropPart
  run fuel _ := propParts fuel
  round _ _ := propPartsRound
  run_succ := by
    intro fuel _
    rw [propParts, propPartsRound, bind_assoc]
    refine bind_congr fun start => ?_
    rw [bind_assoc]
    refine bind_congr fun found => ?_
    split <;> simp

/-- A round that goes on has taken a token and found an item. -/
def Adds (tokens : Tokens) (P : α → Prop) (r : Round Unit (List α)) (rest : Tokens) : Prop :=
  r.Is (fun _ finish => rest.length < tokens.length ∧ ∃ x, P x ∧ finish = (x :: ·))
    fun xs => xs = [] ∧ rest = tokens

theorem gives_propPartsRound (h : tokens.ArePlaced plan lo) :
    Gives plan lo tokens propPartsRound
      (Adds tokens fun part => plan.Holds lo part.start) := by
  refine gives_offset_bind h fun start hstart h => gives_peek_bind fun found hfound => ?_
  have hpart (part : PropPart) (hpart : plan.Holds lo part.start) (hpos : 0 < tokens.length) :
      Gives plan start tokens (do advance; return .again () (part :: ·))
        (Adds tokens fun part => plan.Holds lo part.start) :=
    (gives_advance h).bind fun _ _ hrest _ hlength =>
      gives_pure hrest ⟨hlength hpos, part, hpart, rfl⟩
  split
  next => exact hpart _ hstart (hfound _ rfl)
  next => exact hpart _ hstart (hfound _ rfl)
  next => exact hpart _ hstart (hfound _ rfl)
  next =>
    refine (gives_advance h).bind fun _ _ hrest _ hlength => (gives_ident hrest).bind
      fun id _ hrest hle _ => (gives_expect hrest _).bind fun _ _ hrest hle' _ => ?_
    exact gives_pure hrest ⟨(hle'.trans hle).trans_lt (hlength (hfound _ rfl)),
      .parameter start id.name, hstart, rfl⟩
  next => exact gives_pure h ⟨rfl, rfl⟩

theorem gives_propValue (h : tokens.ArePlaced plan lo) :
    Gives plan lo tokens propValue fun parts _ => ∀ part ∈ parts, plan.Holds lo part.start := by
  refine (gives_eat h _).bind fun found tokens h _ _ => .ite (fun _ => ?_) fun _ =>
    gives_pure h nofun
  refine gives_get_bind (gives_run propPartList (fun _ => 0) (s := ()) (I := fun _ _ => True)
    (R := fun _ (parts : List PropPart) _ => ∀ part ∈ parts, plan.Holds lo part.start)
    (fun _ => rfl)
    (fun fuel _ before _ hbefore _ => ?_) (.inr (Nat.lt_succ_self _)) h trivial)
  refine (gives_propPartsRound hbefore).mono fun r rest _ hr => ?_
  cases r with
  | leave parts =>
    cases hr.1
    exact nofun
  | again next finish =>
    obtain ⟨hlength, part, hpart, rfl⟩ := hr
    exact ⟨hlength, trivial, fun _ _ _ hparts => List.forall_mem_cons.mpr ⟨hpart, hparts⟩⟩

theorem gives_prop (h : tokens.ArePlaced plan lo) :
    Gives plan lo tokens prop fun p rest =>
      p.IsPlaced plan lo ∧ rest.length < tokens.length := by
  refine gives_offset_bind h fun start hstart h => gives_peek_bind fun found hfound => ?_
  have hadvance := gives_advance h
  split
  next =>
    exact hadvance.bind fun _ _ hrest _ hlength => (gives_propValue hrest).bind
      fun _ _ hrest hle hvalue =>
        gives_pure hrest ⟨⟨hstart, hvalue⟩, hle.trans_lt (hlength (hfound _ rfl))⟩
  next =>
    exact hadvance.bind fun _ _ hrest _ hlength => (gives_propValue hrest).bind
      fun _ _ hrest hle hvalue =>
        gives_pure hrest ⟨⟨hstart, hvalue⟩, hle.trans_lt (hlength (hfound _ rfl))⟩
  next => exact gives_unexpected h

theorem gives_props (h : tokens.ArePlaced plan lo) :
    Gives plan lo tokens props fun props _ => ∀ p ∈ props, p.IsPlaced plan lo :=
  (gives_eat h _).bind fun _ _ hrest _ _ => .ite
    (fun _ => gives_items hrest fun _ hbefore _ => (gives_prop hbefore).mono fun _ _ _ hp => hp.1)
    fun _ => gives_pure hrest nofun

theorem gives_params (h : tokens.ArePlaced plan lo) :
    Gives plan lo tokens params fun params _ => ∀ id ∈ params, plan.Holds lo id.start :=
  (gives_eat h _).bind fun _ _ hrest _ _ => .ite
    (fun _ => gives_items hrest fun _ hbefore _ =>
      (gives_ident hbefore).mono fun _ _ _ hid => hid.1)
    fun _ => gives_pure hrest nofun

/-! ## §3 Expressions -/

/-- A round of reading the markers of a gap. -/
def gapRound : Reader (Round Unit (List Marker)) := do
  let start ← offset
  match ← peek with
  | some (.punct '~') =>
    advance
    let id ← ident
    return .again () (⟨start, .ambiguity, id⟩ :: ·)
  | some (.punct '!') =>
    advance
    let id ← ident
    return .again () (⟨start, .precedence, id⟩ :: ·)
  | _ => return .leave []

/-- Reading the markers of a gap. -/
def gapMarkers : Loop Tokens where
  State := Unit
  Result := List Marker
  run fuel _ := gap fuel
  round _ _ := gapRound
  run_succ := by
    intro fuel _
    rw [gap, gapRound, bind_assoc]
    refine bind_congr fun start => ?_
    rw [bind_assoc]
    refine bind_congr fun found => ?_
    split <;> simp

theorem gives_gapRound (h : tokens.ArePlaced plan lo) :
    Gives plan lo tokens gapRound (Adds tokens (Marker.IsPlaced plan lo)) := by
  refine gives_offset_bind h fun start hstart h => gives_peek_bind fun found hfound => ?_
  have hmarker (kind : MarkerKind) (hpos : 0 < tokens.length) :
      Gives plan start tokens (do
        advance
        let id ← ident
        return .again () ((⟨start, kind, id⟩ : Marker) :: ·))
        (Adds tokens (Marker.IsPlaced plan lo)) :=
    (gives_advance h).bind fun _ _ hrest _ hlength => (gives_ident hrest).bind
      fun id _ hrest hle hid =>
        gives_pure hrest ⟨hle.trans_lt (hlength hpos), _, ⟨hstart, hid.1⟩, rfl⟩
  split
  next => exact hmarker _ (hfound _ rfl)
  next => exact hmarker _ (hfound _ rfl)
  next => exact gives_pure h ⟨rfl, rfl⟩

theorem gives_gap {fuel : Nat} (h : tokens.ArePlaced plan lo)
    (hfuel : plan.deep ∨ tokens.length < fuel) :
    Gives plan lo tokens (gap fuel) fun markers rest =>
      (∀ m ∈ markers, m.IsPlaced plan lo) ∧
        (rest.length < tokens.length ∨ rest = tokens ∧ markers = []) := by
  refine gives_run gapMarkers (fun _ => 0) (s := ()) (I := fun _ _ => True)
    (R := fun tokens (markers : List Marker) rest => (∀ m ∈ markers, m.IsPlaced plan lo) ∧
      (rest.length < tokens.length ∨ rest = tokens ∧ markers = [])) (fun _ => rfl)
    (fun fuel _ before _ hbefore _ => ?_) hfuel h trivial
  refine (gives_gapRound hbefore).mono fun r rest _ hr => ?_
  cases r with
  | leave markers =>
    obtain ⟨rfl, rfl⟩ := hr
    exact ⟨nofun, .inr ⟨rfl, rfl⟩⟩
  | again next finish =>
    obtain ⟨hlength, m, hm, rfl⟩ := hr
    exact ⟨hlength, trivial, fun _ _ hle hrest =>
      ⟨List.forall_mem_cons.mpr ⟨hm, hrest.1⟩, .inl (hle.trans_lt hlength)⟩⟩

/-- A round of reading repeat signs. -/
def repeatsRound (start : Nat) (body : Expr) : Reader (Round Expr Expr) := do
  match repeatKind? (← peek) with
  | some kind =>
    advance
    return .again (.repeated start body kind) id
  | none => return .leave body

/-- Reading repeat signs. -/
def repeatSigns (start : Nat) : Loop Tokens where
  State := Expr
  Result := Expr
  run fuel body := repeatsFrom start fuel body
  round _ := repeatsRound start
  run_succ := by
    intro fuel body
    rw [repeatsFrom, repeatsRound, bind_assoc]
    refine bind_congr fun found => ?_
    cases repeatKind? found <;> simp

theorem gives_repeatsRound {body : Expr} (h : tokens.ArePlaced plan lo)
    (hstart : plan.Holds start start) (hbody : body.IsPlaced plan start) :
    Gives plan lo tokens (repeatsRound start body) fun r rest => r.Is
      (fun next finish => rest.length < tokens.length ∧ next.IsPlaced plan start ∧ finish = id)
      (· = body) := by
  refine gives_peek_bind fun found hfound => ?_
  split
  next kind hkind =>
    have hpos : 0 < tokens.length := by
      cases found with
      | none => cases hkind
      | some token => exact hfound token rfl
    exact (gives_advance h).bind fun _ _ hrest _ hlength =>
      gives_pure hrest ⟨hlength hpos, .repeated hstart hbody, rfl⟩
  next => exact gives_pure h rfl

theorem gives_repeatsFrom {body : Expr} {fuel : Nat} (h : tokens.ArePlaced plan lo)
    (hfuel : plan.deep ∨ tokens.length < fuel) (hstart : plan.Holds start start)
    (hbody : body.IsPlaced plan start) :
    Gives plan lo tokens (repeatsFrom start fuel body) fun e _ => e.IsPlaced plan start := by
  refine gives_run (repeatSigns start) (fun _ => 0) (s := body)
    (I := fun body _ => Expr.IsPlaced plan start body)
    (R := fun _ e _ => Expr.IsPlaced plan start e) (fun _ => rfl)
    (fun fuel body before _ hbefore hbody => ?_) hfuel h hbody
  refine (gives_repeatsRound hbefore hstart hbody).mono fun r rest _ hr => ?_
  cases r with
  | leave e =>
    cases hr
    exact hbody
  | again next finish =>
    obtain ⟨hlength, hnext, rfl⟩ := hr
    exact ⟨hlength, hnext, fun _ _ _ he => he⟩

/-- An expression that is read takes a token, unless it is empty. -/
structure Finds (plan : Plan) (lo : Nat) (tokens : Tokens) (e : Expr) (rest : Tokens) :
    Prop where
  isPlaced : e.IsPlaced plan lo
  takes : rest.length < tokens.length ∨ rest = tokens ∧ ∃ start, e = .empty start

/-- Expressions are read from fewer tokens than there is fuel. -/
def GivesExpr (plan : Plan) (fuel : Nat) (expr : Reader Expr) : Prop :=
  ∀ lo tokens, plan.deep ∨ tokens.length < fuel → tokens.ArePlaced plan lo →
    Gives plan lo tokens expr (Finds plan lo tokens)

/-- A round of reading the elements of a sequence. -/
def elementsRound (expr : Reader Expr) (fuel : Nat) :
    Reader (Round Unit (List Expr × List (List Marker))) := do
  let markers ← gap (fuel + 1)
  if endsSequence (← peek) then return .leave ([], [markers])
  let first ← suffixed expr (fuel + 1)
  return .again () fun parts => (first :: parts.1, markers :: parts.2)

/-- Reading the elements of a sequence. -/
def elementList (expr : Reader Expr) : Loop Tokens where
  State := Unit
  Result := List Expr × List (List Marker)
  run fuel _ := elements expr fuel
  round fuel _ := elementsRound expr fuel
  run_succ := by
    intro fuel _
    rw [elements, elementsRound, bind_assoc]
    refine bind_congr fun markers => ?_
    rw [bind_assoc]
    refine bind_congr fun found => ?_
    split <;> simp

/-- A round of reading the alternatives of a choice. -/
def alternativesRound (expr : Reader Expr) (fuel : Nat) : Reader (Round Unit (List Expr)) := do
  let first ← sequence expr (fuel + 1)
  if ← eat (.punct '|') then return .again () (first :: ·) else return .leave [first]

/-- Reading the alternatives of a choice. -/
def alternativeList (expr : Reader Expr) : Loop Tokens where
  State := Unit
  Result := List Expr
  run fuel _ := alternatives expr fuel
  round fuel _ := alternativesRound expr fuel
  run_succ := by
    intro fuel _
    rw [alternatives, alternativesRound, bind_assoc]
    refine bind_congr fun first => ?_
    rw [bind_assoc]
    refine bind_congr fun found => ?_
    cases found <;> simp

section

variable {expr : Reader Expr} {depth : Nat} (hexpr : GivesExpr plan depth expr)
include hexpr

theorem gives_ruleAfter {id : Ident} (h : tokens.ArePlaced plan id.start)
    (hid : plan.Holds lo id.start) (hdepth : plan.deep ∨ tokens.length < depth + 1) :
    Gives plan id.start tokens (ruleAfter expr id) fun r _ =>
      r.IsPlaced plan lo ∧ r.id = id := by
  refine (gives_props h).bind fun props _ hrest hprops₁ hprops => (gives_params hrest).bind
    fun params _ hrest hparams₁ hparams => (gives_expect hrest _).bind
    fun _ _ hrest _ hopen => ?_
  refine (hexpr _ _ (hdepth.imp_right fun hdepth => by omega) hrest).bind
    fun body _ hrest _ hbody => (gives_expect hrest _).bind fun _ _ hrest _ _ => ?_
  exact gives_pure hrest ⟨⟨hid, hprops, hparams, hbody.isPlaced⟩, rfl⟩

theorem gives_args (h : tokens.ArePlaced plan lo)
    (hdepth : plan.deep ∨ tokens.length < depth + 1) :
    Gives plan lo tokens (args expr) fun args _ => ∀ a ∈ args, a.IsPlaced plan lo := by
  refine (gives_eat h _).bind fun found rest hrest _ hopen => .ite (fun hfound => ?_)
    fun _ => gives_pure hrest nofun
  rw [if_pos hfound] at hopen
  exact gives_items hrest fun before hbefore hle =>
    (hexpr _ _ (hdepth.imp_right fun hdepth => by omega) hbefore).mono fun _ _ _ he => he.isPlaced

theorem gives_specialization {kind : SpecializeKind} (h : tokens.ArePlaced plan start)
    (hstart : plan.Holds lo start) (hdepth : plan.deep ∨ tokens.length < depth + 1) :
    Gives plan start tokens (specialization expr start kind) fun e _ => e.IsPlaced plan lo := by
  refine (gives_props h).bind fun props _ hrest _ hprops => (gives_expect hrest _).bind
    fun _ tokens₁ hrest _ hopen => ?_
  have hdepth₁ : plan.deep ∨ tokens₁.length < depth := hdepth.imp_right fun hdepth => by omega
  refine (hexpr _ _ hdepth₁ hrest).bind fun token tokens₂ hrest hle htoken =>
    (gives_eat hrest _).bind fun found tokens₃ hrest hle' _ => ?_
  refine .ite (fun _ => ?_) fun _ => gives_offset_bind hrest fun _ hplace _ =>
    gives_fail_bind (plan.holds_self hplace) nofun
  refine (hexpr _ _ (hdepth₁.imp_right fun hdepth => by omega) hrest).bind
    fun content _ hrest _ hcontent => (gives_expect hrest _).bind fun _ _ hrest _ _ => ?_
  exact gives_pure hrest (.specialize hstart hprops htoken.isPlaced hcontent.isPlaced)

theorem gives_named (h : tokens.ArePlaced plan lo)
    (hdepth : plan.deep ∨ tokens.length < depth + 1) :
    Gives plan lo tokens (named expr) fun e rest =>
      e.IsPlaced plan lo ∧ rest.length < tokens.length := by
  refine (gives_ident h).bind fun id tokens' h' hle hid => ?_
  obtain ⟨hid, h', hlength⟩ := hid
  have hdepth' : plan.deep ∨ tokens'.length < depth + 1 := hdepth.imp_right fun hdepth => by omega
  refine Gives.within (.ite (fun _ => gives_pure h' ⟨.any hid, hlength⟩) fun _ => ?_) hid
  refine gives_peek_bind fun found _ => ?_
  have hrule : Gives plan id.start tokens' (do
      let rule ← ruleAfter expr id
      unless rule.params.isEmpty do fail .inlineParameters id.start
      return Expr.inlineRule id.start id.name rule.props rule.body) fun e rest =>
        e.IsPlaced plan lo ∧ rest.length < tokens.length := by
    refine (gives_ruleAfter hexpr h' hid hdepth').bind fun rule rest hrest hle' hrule => ?_
    obtain ⟨hrule, rfl⟩ := hrule
    exact .ite (fun _ => gives_pure hrest ⟨.inlineRule hid hrule.props hrule.body,
      hle'.trans_lt hlength⟩) fun _ => gives_fail_bind (plan.holds_self hid) nofun
  split
  next => exact hrule
  next => exact hrule
  next =>
    exact (gives_args hexpr h' hdepth').bind fun args _ hrest hle' hargs =>
      gives_pure hrest ⟨.name hid hargs, hle'.trans_lt hlength⟩

theorem gives_primary (h : tokens.ArePlaced plan lo)
    (hdepth : plan.deep ∨ tokens.length < depth + 1) :
    Gives plan lo tokens (primary expr) fun e rest =>
      e.IsPlaced plan lo ∧ rest.length < tokens.length := by
  refine gives_offset_bind h fun start hstart h => gives_peek_bind fun found hfound => ?_
  have hleaf {e : Expr} (he : e.IsPlaced plan lo) (hpos : 0 < tokens.length) :
      Gives plan start tokens (do advance; return e) fun e rest =>
        e.IsPlaced plan lo ∧ rest.length < tokens.length :=
    (gives_advance h).bind fun _ _ hrest _ hlength => gives_pure hrest ⟨he, hlength hpos⟩
  have hspecial (kind : SpecializeKind) (hpos : 0 < tokens.length) :
      Gives plan start tokens (do advance; specialization expr start kind) fun e rest =>
        e.IsPlaced plan lo ∧ rest.length < tokens.length :=
    (gives_advance h).bind fun _ _ hrest hle hlength =>
      (gives_specialization hexpr hrest hstart (hdepth.imp_right fun hdepth => by omega)).mono
        fun _ _ hle' he => ⟨he, hle'.trans_lt (hlength hpos)⟩
  split
  next =>
    refine (gives_advance h).bind fun _ tokens₁ hrest _ hlength => ?_
    replace hlength := hlength (hfound _ rfl)
    refine (gives_eat hrest _).bind fun found tokens₂ hrest hle _ => ?_
    refine .ite (fun _ => gives_pure hrest ⟨Expr.isPlaced_empty hstart, by omega⟩) fun _ => ?_
    exact (hexpr _ _ (hdepth.imp_right fun hdepth => by omega) hrest).bind
      fun inner _ hrest hle' hinner => (gives_expect hrest _).bind fun _ _ hrest _ _ =>
        gives_pure hrest ⟨hinner.isPlaced.of_holds hstart, by omega⟩
  next => exact hleaf (.literal hstart) (hfound _ rfl)
  next => exact hleaf (.set hstart) (hfound _ rfl)
  next => exact hspecial _ (hfound _ rfl)
  next => exact hspecial _ (hfound _ rfl)
  next =>
    split
    next => exact hleaf (.charClass hstart) (hfound _ rfl)
    next => exact gives_fail (plan.holds_self hstart) nofun
  next =>
    exact (gives_named hexpr h hdepth).mono fun _ _ _ he => ⟨he.1.of_holds hstart, he.2⟩
  next => exact gives_unexpected h

theorem gives_suffixed {fuel : Nat} (h : tokens.ArePlaced plan lo)
    (hfuel : plan.deep ∨ tokens.length < fuel)
    (hdepth : plan.deep ∨ tokens.length < depth + 1) :
    Gives plan lo tokens (suffixed expr fuel) fun e rest =>
      e.IsPlaced plan lo ∧ rest.length < tokens.length := by
  refine gives_offset_bind h fun start hstart h =>
    (gives_primary hexpr h hdepth).bind fun body rest hrest _ hbody => ?_
  exact (gives_repeatsFrom hrest (hfuel.imp_right fun hfuel => by omega)
    (plan.holds_self hstart) hbody.1).mono
    fun _ _ hle he => ⟨he.of_holds hstart, hle.trans_lt hbody.2⟩

theorem gives_elementsRound {fuel : Nat} (h : tokens.ArePlaced plan lo)
    (hfuel : plan.deep ∨ tokens.length < fuel + 1)
    (hdepth : plan.deep ∨ tokens.length < depth + 1) :
    Gives plan lo tokens (elementsRound expr fuel) fun r rest => r.Is
      (fun _ finish => rest.length < tokens.length ∧ ∃ e : Expr, ∃ gap : List Marker,
        e.IsPlaced plan lo ∧ (∀ m ∈ gap, m.IsPlaced plan lo) ∧
          finish = fun parts => (e :: parts.1, gap :: parts.2))
      (fun parts => ∃ gap : List Marker, parts = ([], [gap]) ∧ (∀ m ∈ gap, m.IsPlaced plan lo) ∧
        (rest.length < tokens.length ∨ rest = tokens ∧ gap = [])) := by
  refine (gives_gap h hfuel).bind fun gap tokens' h' hle hgap => gives_peek_bind fun found _ =>
    .ite (fun _ => gives_pure h' ⟨gap, rfl, hgap⟩) fun _ => ?_
  refine (gives_suffixed hexpr h' (hfuel.imp_right fun hfuel => by omega)
    (hdepth.imp_right fun hdepth => by omega)).bind fun e rest hrest _ he => ?_
  exact gives_pure hrest ⟨he.2.trans_le hle, e, gap, he.1, hgap.1, rfl⟩

theorem gives_elements {fuel : Nat} (h : tokens.ArePlaced plan lo)
    (hfuel : plan.deep ∨ tokens.length < fuel)
    (hdepth : plan.deep ∨ tokens.length < depth + 1) :
    Gives plan lo tokens (elements expr fuel) fun parts rest =>
      (∀ e ∈ parts.1, e.IsPlaced plan lo) ∧
        (∀ gap ∈ parts.2, ∀ m ∈ gap, m.IsPlaced plan lo) ∧
          (rest.length < tokens.length ∨ rest = tokens ∧ parts = ([], [[]])) := by
  refine gives_run (elementList expr) (fun _ => 0) (s := ())
    (I := fun _ tokens => plan.deep ∨ tokens.length < depth + 1)
    (R := fun tokens (parts : List Expr × List (List Marker)) rest =>
      (∀ e ∈ parts.1, e.IsPlaced plan lo) ∧ (∀ gap ∈ parts.2, ∀ m ∈ gap, m.IsPlaced plan lo) ∧
        (rest.length < tokens.length ∨ rest = tokens ∧ parts = ([], [[]]))) (fun _ => rfl)
    (fun fuel _ before hfuel hbefore hdepth => ?_) hfuel h hdepth
  refine (gives_elementsRound hexpr hbefore hfuel hdepth).mono fun r rest _ hr => ?_
  cases r with
  | leave parts =>
    obtain ⟨gap, rfl, hgap, hrest⟩ := hr
    refine ⟨nofun, List.forall_mem_singleton.mpr hgap, hrest.imp_right fun hrest => ?_⟩
    exact ⟨hrest.1, by rw [hrest.2]⟩
  | again next finish =>
    obtain ⟨hlength, e, gap, he, hgap, rfl⟩ := hr
    refine ⟨hlength, hdepth.imp_right fun hdepth => by omega, fun parts _ hle hparts => ?_⟩
    exact ⟨List.forall_mem_cons.mpr ⟨he, hparts.1⟩, List.forall_mem_cons.mpr ⟨hgap, hparts.2.1⟩,
      .inl (hle.trans_lt hlength)⟩

theorem gives_sequence {fuel : Nat} (h : tokens.ArePlaced plan lo)
    (hfuel : plan.deep ∨ tokens.length < fuel)
    (hdepth : plan.deep ∨ tokens.length < depth + 1) :
    Gives plan lo tokens (sequence expr fuel) (Finds plan lo tokens) := by
  refine gives_offset_bind h fun start hstart h =>
    (gives_elements hexpr h hfuel hdepth).bind fun parts rest hrest _ hparts => ?_
  obtain ⟨parts, gaps⟩ := parts
  obtain ⟨helements, hgaps, htakes⟩ := hparts
  -- No token is taken only where there is neither an element nor a marker.
  have hall : Gives plan start rest (pure (.sequence start parts gaps))
      (Finds plan lo tokens) := by
    refine gives_pure hrest ⟨.sequence hstart helements hgaps, htakes.imp_right fun htakes => ?_⟩
    obtain ⟨hsame, hempty⟩ := htakes
    cases hempty
    exact ⟨hsame, start, rfl⟩
  dsimp only
  split
  next only =>
    refine .ite (fun _ => gives_pure hrest ⟨?_, htakes.imp_right fun htakes => ?_⟩) fun _ => hall
    · exact (helements only (List.mem_singleton_self only)).of_holds hstart
    · cases htakes.2
  next => exact hall

theorem gives_alternativesRound {fuel : Nat} (h : tokens.ArePlaced plan lo)
    (hfuel : plan.deep ∨ tokens.length < fuel + 1)
    (hdepth : plan.deep ∨ tokens.length < depth + 1) :
    Gives plan lo tokens (alternativesRound expr fuel) fun r rest => r.Is
      (fun _ finish => rest.length < tokens.length ∧ ∃ e : Expr, e.IsPlaced plan lo ∧
        finish = (e :: ·))
      (fun es => ∃ e : Expr, es = [e] ∧ Finds plan lo tokens e rest) := by
  refine (gives_sequence hexpr h hfuel hdepth).bind fun e tokens' h' hle he =>
    (gives_eat h' _).bind fun found rest hrest hle' heat => ?_
  cases found with
  | true => exact gives_pure hrest ⟨heat.trans_le hle, e, he.isPlaced, rfl⟩
  | false =>
    cases heat
    exact gives_pure hrest ⟨e, rfl, he⟩

theorem gives_alternatives {fuel : Nat} (h : tokens.ArePlaced plan lo)
    (hfuel : plan.deep ∨ tokens.length < fuel)
    (hdepth : plan.deep ∨ tokens.length < depth + 1) :
    Gives plan lo tokens (alternatives expr fuel) fun es rest =>
      (∀ e ∈ es, e.IsPlaced plan lo) ∧
        (rest.length < tokens.length ∨ rest = tokens ∧ ∃ start, es = [.empty start]) := by
  refine gives_run (alternativeList expr) (fun _ => 0) (s := ())
    (I := fun _ tokens => plan.deep ∨ tokens.length < depth + 1)
    (R := fun tokens (es : List Expr) rest => (∀ e ∈ es, e.IsPlaced plan lo) ∧
      (rest.length < tokens.length ∨ rest = tokens ∧ ∃ start, es = [.empty start])) (fun _ => rfl)
    (fun fuel _ before hfuel hbefore hdepth => ?_) hfuel h hdepth
  refine (gives_alternativesRound hexpr hbefore hfuel hdepth).mono fun r rest _ hr => ?_
  cases r with
  | leave es =>
    obtain ⟨e, rfl, he⟩ := hr
    refine ⟨List.forall_mem_singleton.mpr he.isPlaced, he.takes.imp_right fun htakes => ?_⟩
    obtain ⟨hsame, start, rfl⟩ := htakes
    exact ⟨hsame, start, rfl⟩
  | again next finish =>
    obtain ⟨hlength, e, he, rfl⟩ := hr
    exact ⟨hlength, hdepth.imp_right fun hdepth => by omega, fun _ _ hle hes =>
      ⟨List.forall_mem_cons.mpr ⟨he, hes.1⟩, .inl (hle.trans_lt hlength)⟩⟩

theorem gives_choice {fuel : Nat} (h : tokens.ArePlaced plan lo)
    (hfuel : plan.deep ∨ tokens.length < fuel)
    (hdepth : plan.deep ∨ tokens.length < depth + 1) :
    Gives plan lo tokens (choice expr fuel) (Finds plan lo tokens) := by
  refine gives_offset_bind h fun start hstart h =>
    (gives_alternatives hexpr h hfuel hdepth).bind fun es rest hrest _ hes => ?_
  split
  next only =>
    refine gives_pure hrest ⟨?_, hes.2.imp_right fun htakes => ?_⟩
    · exact (hes.1 only (List.mem_singleton_self only)).of_holds hstart
    · obtain ⟨hsame, start, hempty⟩ := htakes
      exact ⟨hsame, start, List.singleton_inj.mp hempty⟩
  next hmany =>
    refine gives_pure hrest ⟨.choice hstart hes.1, hes.2.imp_right fun htakes => ?_⟩
    obtain ⟨-, start, rfl⟩ := htakes
    exact absurd rfl (hmany _)

end

theorem givesExpr_exprWithin (fuel : Nat) : GivesExpr plan fuel (exprWithin fuel) := by
  -- By induction on the depth: an expression inside of another one stands behind a token.
  induction fuel with
  | zero =>
    exact fun lo tokens hfuel h => gives_tooDeep h (hfuel.resolve_right (Nat.not_lt_zero _))
  | succ fuel ih => exact fun lo tokens hfuel h => gives_choice ih h hfuel hfuel

/-- Whatever the fuel is, expressions are read from any tokens. -/
theorem givesExpr_expr (fuel : Nat) : GivesExpr plan fuel expr :=
  fun lo _ _ h => gives_get_bind (givesExpr_exprWithin _ lo _ (.inr (Nat.lt_succ_self _)) h)

theorem gives_rule (h : tokens.ArePlaced plan lo) :
    Gives plan lo tokens rule fun r rest =>
      r.IsPlaced plan lo ∧ rest.length < tokens.length := by
  refine (gives_ident h).bind fun id _ _ _ hid => ?_
  obtain ⟨hid, h', hlength⟩ := hid
  exact ((gives_ruleAfter (givesExpr_expr _) h' hid (.inr (Nat.lt_succ_self _))).within hid).mono
    fun _ _ hle hr => ⟨hr.1, hle.trans_lt hlength⟩

/-! ## §4 Declarations -/

theorem gives_precedenceItem (h : tokens.ArePlaced plan lo) :
    Gives plan lo tokens precedenceItem fun item rest =>
      plan.Holds lo item.id.start ∧ rest.length < tokens.length := by
  refine (gives_ident h).bind fun id tokens' h' _ hid => ?_
  have hitem (assoc : Option Associativity) {rest : Tokens} (hrest : rest.ArePlaced plan lo)
      (hle : rest.length ≤ tokens'.length) :
      Gives plan lo rest (pure (⟨id, assoc⟩ : PrecedenceItem)) fun item rest =>
        plan.Holds lo item.id.start ∧ rest.length < tokens.length :=
    gives_pure hrest ⟨hid.1, hle.trans_lt hid.2.2⟩
  refine (gives_eat h' _).bind fun _ _ hrest hle₁ _ => .ite
    (fun _ => hitem _ hrest hle₁) fun _ => ?_
  refine (gives_eat hrest _).bind fun _ _ hrest hle₂ _ => .ite
    (fun _ => hitem _ hrest (hle₂.trans hle₁)) fun _ => ?_
  exact (gives_eat hrest _).bind fun _ _ hrest hle₃ _ => .ite
    (fun _ => hitem _ hrest (hle₃.trans (hle₂.trans hle₁)))
    fun _ => hitem _ hrest (hle₃.trans (hle₂.trans hle₁))

theorem gives_precedence (h : tokens.ArePlaced plan start) (hstart : plan.Holds lo start) :
    Gives plan start tokens (precedence start) fun d _ => d.IsPlaced plan lo :=
  (gives_expect h _).bind fun _ _ hrest _ _ =>
    (gives_items (P := fun item : PrecedenceItem => plan.Holds start item.id.start) hrest
      fun _ hbefore _ => (gives_precedenceItem hbefore).mono fun _ _ _ hitem => hitem.1).bind
    fun _ _ hrest _ hitems => gives_pure hrest ⟨hstart, hitems⟩

theorem gives_tokenName (h : tokens.ArePlaced plan lo) :
    Gives plan lo tokens tokenName fun e rest =>
      e.IsPlaced plan lo ∧ rest.length < tokens.length := by
  refine gives_offset_bind h fun start hstart h => gives_peek_bind fun found hfound => ?_
  split
  next =>
    exact (gives_advance h).bind fun _ _ hrest _ hlength =>
      gives_pure hrest ⟨.literal hstart, hlength (hfound _ rfl)⟩
  next =>
    refine (gives_ident h).bind fun id tokens' h' _ hid =>
      (gives_args (givesExpr_expr tokens'.length) h' (.inr (Nat.lt_succ_self _))).bind
        fun args _ hrest hle hargs => ?_
    exact gives_pure hrest ⟨.name hstart hargs, hle.trans_lt hid.2.2⟩
  next => exact gives_unexpected h

theorem gives_tokenNames (h : tokens.ArePlaced plan lo) :
    Gives plan lo tokens tokenNames fun es rest =>
      (∀ e ∈ es, e.IsPlaced plan lo) ∧ rest.length < tokens.length :=
  (gives_expect h _).bind fun _ _ hrest _ hopen =>
    (gives_items hrest fun _ hbefore _ => (gives_tokenName hbefore).mono fun _ _ _ he => he.1).mono
      fun _ _ hle hes => ⟨hes, hle.trans_lt hopen⟩

theorem gives_tokensItem {decl : TokensDecl} (h : tokens.ArePlaced plan decl.start)
    (hdecl : decl.IsPlaced plan lo) :
    Gives plan decl.start tokens (tokensItem decl) fun decl' rest =>
      (decl'.IsPlaced plan lo ∧ decl'.start = decl.start) ∧ rest.length < tokens.length := by
  refine gives_offset_bind h fun start hstart h' => gives_peek_bind fun found hfound => ?_
  have hadvance := gives_advance h'
  split
  next =>
    refine hadvance.bind fun _ _ hrest _ hlength => (gives_tokenNames hrest).bind
      fun items _ hrest hle hitems => gives_pure hrest ⟨⟨{ hdecl with precedences := ?_ }, rfl⟩, ?_⟩
    · exact List.forall_mem_append.mpr ⟨hdecl.precedences,
        List.forall_mem_singleton.mpr ⟨hstart, hitems.1⟩⟩
    · exact hle.trans_lt (hlength (hfound _ rfl))
  next =>
    refine hadvance.bind fun _ _ hrest _ hlength => (gives_tokenNames hrest).bind
      fun items _ hrest hle hitems => ?_
    split
    next first second =>
      refine gives_pure hrest ⟨⟨{ hdecl with conflicts := ?_ }, rfl⟩, ?_⟩
      · exact List.forall_mem_append.mpr ⟨hdecl.conflicts, List.forall_mem_singleton.mpr
          ⟨hstart, hitems.1 first (by simp), hitems.1 second (by simp)⟩⟩
      · exact hle.trans_lt (hlength (hfound _ rfl))
    next => exact gives_fail (plan.holds_self hstart) nofun
  next =>
    refine hadvance.bind fun _ _ hrest _ hlength => (gives_props hrest).bind
      fun props _ hrest hle hprops => gives_pure hrest ⟨⟨{ hdecl with literals := ?_ }, rfl⟩, ?_⟩
    · exact List.forall_mem_append.mpr ⟨hdecl.literals,
        List.forall_mem_singleton.mpr ⟨hstart, hprops⟩⟩
    · exact hle.trans_lt (hlength (hfound _ rfl))
  next =>
    refine (gives_rule h').bind fun r _ hrest _ hr =>
      gives_pure hrest ⟨⟨{ hdecl with rules := ?_ }, rfl⟩, hr.2⟩
    exact List.forall_mem_append.mpr ⟨hdecl.rules,
      List.forall_mem_singleton.mpr (hr.1.of_holds hstart)⟩

theorem gives_tokensBlock (h : tokens.ArePlaced plan start) (hstart : plan.Holds lo start) :
    Gives plan start tokens (tokensBlock start) fun d _ => d.IsPlaced plan lo := by
  have hempty : TokensDecl.IsPlaced plan lo { start } := ⟨hstart, nofun, nofun, nofun, nofun⟩
  refine (gives_expect h _).bind fun _ _ hrest _ _ =>
    (gives_block (S := fun d : TokensDecl => d.IsPlaced plan lo ∧ d.start = start) hrest
      ⟨hempty, rfl⟩ fun decl before hbefore hdecl => ?_).mono fun _ _ _ hd => hd.1
  obtain ⟨hdecl, rfl⟩ := hdecl
  exact gives_tokensItem hbefore hdecl

theorem gives_fromSource (h : tokens.ArePlaced plan lo) :
    Gives plan lo tokens fromSource fun _ _ => True :=
  (gives_expect h _).bind fun _ _ hrest _ _ => (gives_string hrest).mono fun _ _ _ _ => trivial

theorem gives_externalToken (h : tokens.ArePlaced plan lo) :
    Gives plan lo tokens externalToken fun t rest =>
      t.IsPlaced plan lo ∧ rest.length < tokens.length := by
  refine (gives_ident h).bind fun id _ _ _ hid => ?_
  obtain ⟨hid, h', hlength⟩ := hid
  exact ((gives_props h').bind fun props _ hrest hle hprops =>
    gives_pure hrest ⟨⟨hid, hprops⟩, hle.trans_lt hlength⟩).within hid

theorem gives_externalTokens (h : tokens.ArePlaced plan lo) :
    Gives plan lo tokens externalTokens fun ts _ => ∀ t ∈ ts, t.IsPlaced plan lo :=
  (gives_expect h _).bind fun _ _ hrest _ _ =>
    gives_items hrest fun _ hbefore _ => (gives_externalToken hbefore).mono fun _ _ _ ht => ht.1

section

variable {g : GrammarDecl} (hg : g.IsPlaced plan)
include hg

theorem gives_external (h : tokens.ArePlaced plan start) (hstart : plan.Holds 0 start) :
    Gives plan start tokens (external start g) fun g _ => g.IsPlaced plan := by
  have hspecializer (kind : SpecializeKind) {tokens : Tokens}
      (h : tokens.ArePlaced plan start) :
      Gives plan start tokens (external.specializer start g kind) fun g _ =>
        g.IsPlaced plan := by
    refine (gives_expect h _).bind fun _ tokens₁ hrest _ _ =>
      (givesExpr_expr (tokens₁.length + 1) _ _ (.inr (Nat.lt_succ_self _)) hrest).bind
      fun token _ hrest _ htoken => (gives_expect hrest _).bind fun _ _ hrest _ _ =>
      (gives_ident hrest).bind fun id _ hrest _ hid => (gives_fromSource hrest).bind
      fun source _ hrest _ _ => (gives_externalTokens hrest).bind fun ts _ hrest _ hts => ?_
    exact gives_pure hrest { hg with
      externalSpecializers := List.forall_mem_append.mpr ⟨hg.externalSpecializers,
        List.forall_mem_singleton.mpr ⟨⟨hstart, hid.1⟩, htoken.isPlaced, hts⟩⟩ }
  refine (gives_ident h).bind fun kind _ hrest _ hkind => ?_
  split
  next =>
    refine (gives_ident hrest).bind fun id _ hrest _ hid => (gives_fromSource hrest).bind
      fun source _ hrest _ _ => (gives_externalTokens hrest).bind fun ts _ hrest _ hts => ?_
    exact gives_pure hrest { hg with
      externalTokens := List.forall_mem_append.mpr ⟨hg.externalTokens,
        List.forall_mem_singleton.mpr ⟨⟨hstart, hid.1⟩, hts⟩⟩ }
  next =>
    refine (gives_ident hrest).bind fun externalId _ hrest _ hexternal => ?_
    have hprop (id : Ident) (hid : plan.Holds start id.start) {tokens : Tokens}
        (h : tokens.ArePlaced plan start) : Gives plan start tokens (do
          let source ← fromSource
          return { g with
            externalProps := g.externalProps ++ [⟨⟨start, id, source⟩, externalId⟩] } :
          Reader GrammarDecl) fun g _ => g.IsPlaced plan :=
      (gives_fromSource h).bind fun source _ hrest _ _ => gives_pure hrest { hg with
        externalProps := List.forall_mem_append.mpr ⟨hg.externalProps,
          List.forall_mem_singleton.mpr ⟨⟨hstart, hid⟩, hexternal.1⟩⟩ }
    refine (gives_eat hrest _).bind fun _ _ hrest _ _ => .ite (fun _ => ?_)
      fun _ => hprop externalId hexternal.1 hrest
    exact (gives_ident hrest).bind fun id _ hrest _ hid => hprop id hid.1 hrest
  next =>
    exact (gives_ident hrest).bind fun id _ hrest _ hid => (gives_fromSource hrest).bind
      fun source _ hrest _ _ => gives_pure hrest { hg with
        externalPropSources := List.forall_mem_append.mpr ⟨hg.externalPropSources,
          List.forall_mem_singleton.mpr ⟨hstart, hid.1⟩⟩ }
  next => exact hspecializer _ hrest
  next => exact hspecializer _ hrest
  next => exact gives_fail hkind.1 nofun

omit hg in
theorem gives_scopeItem {scope : ScopedSkip} (h : tokens.ArePlaced plan start)
    (hstart : plan.Holds lo start) (hscope : scope.IsPlaced plan lo) :
    Gives plan start tokens (scopeItem scope) fun scope rest =>
      scope.IsPlaced plan lo ∧ rest.length < tokens.length := by
  refine (gives_eat h _).bind fun _ _ hrest hle _ => .ite (fun _ => ?_) fun _ => ?_
  · exact (gives_rule hrest).bind fun r _ hrest _ hr => gives_pure hrest
      ⟨{ hscope with topRules := List.forall_mem_append.mpr ⟨hscope.topRules,
        List.forall_mem_singleton.mpr (hr.1.of_holds hstart)⟩ }, hr.2.trans_le hle⟩
  · exact (gives_rule hrest).bind fun r _ hrest _ hr => gives_pure hrest
      ⟨{ hscope with rules := List.forall_mem_append.mpr ⟨hscope.rules,
        List.forall_mem_singleton.mpr (hr.1.of_holds hstart)⟩ }, hr.2.trans_le hle⟩

theorem gives_skip (h : tokens.ArePlaced plan start) (hstart : plan.Holds 0 start) :
    Gives plan start tokens (skip start g) fun g _ => g.IsPlaced plan := by
  refine (gives_expect h _).bind fun _ tokens₁ hrest _ _ =>
    (givesExpr_expr (tokens₁.length + 1) _ _ (.inr (Nat.lt_succ_self _)) hrest).bind
    fun skipped _ hrest _ hskipped => (gives_expect hrest _).bind fun _ _ hrest _ _ =>
    (gives_eat hrest _).bind fun _ _ hrest _ _ => ?_
  have hplaced := hskipped.isPlaced.of_holds hstart
  have hempty : ScopedSkip.IsPlaced plan 0 ⟨skipped, [], []⟩ := ⟨hplaced, nofun, nofun⟩
  refine .ite (fun _ => ?_) fun _ => .ite
    (fun _ => gives_fail_bind (plan.holds_self hstart) nofun) fun _ =>
      gives_pure hrest { hg with mainSkip := forall_mem_some hplaced }
  refine (gives_block (S := ScopedSkip.IsPlaced plan 0) hrest hempty
    fun scope before hbefore hscope => gives_scopeItem hbefore hstart hscope).bind
    fun scope _ hrest _ hscope => gives_pure hrest { hg with
      scopedSkips := List.forall_mem_append.mpr ⟨hg.scopedSkips,
        List.forall_mem_singleton.mpr hscope⟩ }

theorem gives_declaration (h : tokens.ArePlaced plan 0) :
    Gives plan 0 tokens (declaration g) fun g rest =>
      g.IsPlaced plan ∧ rest.length < tokens.length := by
  refine gives_offset_bind h fun start hstart h => gives_peek_bind fun found hfound => ?_
  have hself := plan.holds_self hstart
  -- What follows a keyword.
  have hkeyword {m : Reader GrammarDecl} (hpos : 0 < tokens.length)
      (hm : ∀ rest, rest.ArePlaced plan start →
        Gives plan start rest m fun g _ => g.IsPlaced plan) :
      Gives plan start tokens (do advance; m) fun g rest =>
        g.IsPlaced plan ∧ rest.length < tokens.length :=
    (gives_advance h).bind fun _ rest hrest _ hlength =>
      (hm rest hrest).mono fun _ _ hle hg => ⟨hg, hle.trans_lt (hlength hpos)⟩
  split
  next =>
    refine hkeyword (hfound _ rfl) fun _ hrest => (gives_rule hrest).bind fun r _ hrest _ hr =>
      gives_pure hrest { hg with topRules := List.forall_mem_append.mpr ⟨hg.topRules,
        List.forall_mem_singleton.mpr (hr.1.of_holds hstart)⟩ }
  next =>
    refine hkeyword (hfound _ rfl) fun _ hrest => .ite (fun _ => gives_fail_bind hself nofun)
      fun _ => (gives_tokensBlock hrest hstart).bind fun d _ hrest _ hd =>
        gives_pure hrest { hg with tokens := forall_mem_some hd }
  next =>
    refine hkeyword (hfound _ rfl) fun _ hrest => .ite (fun _ => gives_fail_bind hself nofun)
      fun _ => (gives_ident hrest).bind fun id _ hrest _ hid => (gives_fromSource hrest).bind
        fun source _ hrest _ _ => gives_pure hrest { hg with
          context := forall_mem_some ⟨hstart, hid.1⟩ }
  next => exact hkeyword (hfound _ rfl) fun _ hrest => gives_external hg hrest hstart
  next =>
    refine hkeyword (hfound _ rfl) fun _ hrest => .ite (fun _ => gives_fail_bind hself nofun)
      fun _ => (gives_precedence hrest hstart).bind fun d _ hrest _ hd =>
        gives_pure hrest { hg with precedences := forall_mem_some hd }
  next =>
    refine hkeyword (hfound _ rfl) fun _ hrest => .ite (fun _ => gives_fail_bind hself nofun)
      fun _ => (gives_expect hrest _).bind fun _ _ hrest _ _ =>
        (gives_items (P := fun id : Ident => plan.Holds 0 id.start) hrest fun _ hbefore _ =>
          (gives_ident hbefore).mono fun _ _ _ hid => plan.holds_trans hstart hid.1).bind
        fun ids _ hrest _ hids => gives_pure hrest { hg with
          dialects := forall_mem_some hids }
  next =>
    exact hkeyword (hfound _ rfl) fun _ hrest => gives_pure hrest { hg with }
  next => exact hkeyword (hfound _ rfl) fun _ hrest => gives_skip hg hrest hstart
  next =>
    refine (gives_rule h).bind fun r _ hrest _ hr => gives_pure hrest ⟨?_, hr.2⟩
    exact { hg with rules := List.forall_mem_append.mpr ⟨hg.rules,
      List.forall_mem_singleton.mpr (hr.1.of_holds hstart)⟩ }

end

/-- A round of reading declarations. -/
def declarationsRound (g : GrammarDecl) : Reader (Round GrammarDecl GrammarDecl) := do
  match ← peek with
  | none => return .leave g
  | some _ => return .again (← declaration g) id

/-- Reading declarations. -/
def declarationList : Loop Tokens where
  State := GrammarDecl
  Result := GrammarDecl
  run fuel g := declarations fuel g
  round _ := declarationsRound
  run_succ := by
    intro fuel g
    rw [declarations, declarationsRound, bind_assoc]
    refine bind_congr fun found => ?_
    cases found <;> simp

theorem gives_declarationsRound {g : GrammarDecl} (h : tokens.ArePlaced plan 0)
    (hg : g.IsPlaced plan) :
    Gives plan 0 tokens (declarationsRound g) fun r rest => r.Is
      (fun next finish => rest.length < tokens.length ∧ next.IsPlaced plan ∧ finish = id)
      (· = g) := by
  refine gives_peek_bind fun found _ => ?_
  cases found with
  | none => exact gives_pure h rfl
  | some token =>
    exact (gives_declaration hg h).bind fun next _ hrest _ hnext =>
      gives_pure hrest ⟨hnext.2, hnext.1, rfl⟩

theorem gives_grammar (h : tokens.ArePlaced plan 0) :
    Gives plan 0 tokens grammar fun g _ => g.IsPlaced plan := by
  have hempty : GrammarDecl.IsPlaced plan {} := by constructor <;> nofun
  refine gives_get_bind ((gives_continueAt h (Nat.le_refl _)).bind fun _ rest hrest _ _ =>
    gives_get_bind ?_)
  refine gives_run declarationList (fun _ => 0) (s := {})
    (I := fun g _ => GrammarDecl.IsPlaced plan g)
    (R := fun _ g _ => GrammarDecl.IsPlaced plan g)
    (fun _ => rfl) (fun fuel g before _ hbefore hg => ?_) (.inr (Nat.lt_succ_self _)) hrest hempty
  refine (gives_declarationsRound hbefore hg).mono fun r rest _ hr => ?_
  cases r with
  | leave g =>
    cases hr
    exact hg
  | again next finish =>
    obtain ⟨hlength, hnext, rfl⟩ := hr
    exact ⟨hlength, hnext, fun _ _ _ hg => hg⟩

/-! ## §5 Loops -/

/-- The loops of the parser, apart from those that read arguments: declarations,
dialects, items of precedences, names of tokens, tokens from outside, properties,
parameters, items among the tokens, rules with a skip expression of their own, the
pieces of a value, markers, repeats, elements and alternatives. -/
def loops (depth start : Nat) : List (Loop Tokens) :=
  [declarationList, itemList (.punct '\x7d') ident, itemList (.punct '\x7d') precedenceItem,
    itemList (.punct '\x7d') tokenName, itemList (.punct '\x7d') externalToken,
    itemList (.punct ']') prop, itemList (.punct '>') ident, foldItems (.punct '\x7d') tokensItem,
    foldItems (.punct '\x7d') scopeItem, propPartList, gapMarkers, repeatSigns start,
    elementList (exprWithin depth), alternativeList (exprWithin depth)]

/-- Every round in a loop of the parser that does not read arguments takes a token or
leaves the loop. -/
theorem progresses_of_mem_loops {depth start : Nat} {l : Loop Tokens}
    (h : l ∈ loops depth start) : l.Progresses Tokens.length := by
  have hany (tokens : Tokens) : tokens.ArePlaced .any 0 := tokens.arePlaced_any 0
  simp only [loops, List.mem_cons, List.not_mem_nil, or_false] at h
  obtain rfl | rfl | rfl | rfl | rfl | rfl | rfl | rfl | rfl | rfl | rfl | rfl | rfl | rfl := h
  · exact progresses_of_gives
      (fun _ g tokens => gives_declarationsRound (hany tokens) g.isPlaced_any)
      fun _ _ _ _ _ _ hr => hr.1
  · exact progresses_itemList fun tokens => (gives_ident (hany tokens)).mono
      fun _ _ _ hid => ⟨hid.1, hid.2.2⟩
  · exact progresses_itemList fun tokens => gives_precedenceItem (hany tokens)
  · exact progresses_itemList fun tokens => gives_tokenName (hany tokens)
  · exact progresses_itemList fun tokens => gives_externalToken (hany tokens)
  · exact progresses_itemList fun tokens => gives_prop (hany tokens)
  · exact progresses_itemList fun tokens => (gives_ident (hany tokens)).mono
      fun _ _ _ hid => ⟨hid.1, hid.2.2⟩
  · refine progresses_foldItems (S := TokensDecl.IsPlaced .any 0) fun decl tokens => ?_
    exact ((gives_tokensItem (tokens.arePlaced_any _) (decl.isPlaced_any 0)).mono
      fun _ _ _ hdecl => ⟨hdecl.1.1, hdecl.2⟩).within trivial
  · exact progresses_foldItems fun scope tokens =>
      gives_scopeItem (hany tokens) trivial (scope.isPlaced_any 0)
  · exact progresses_of_gives (fun _ _ tokens => gives_propPartsRound (hany tokens))
      fun _ _ _ _ _ _ hr => hr.1
  · exact progresses_of_gives (fun _ _ tokens => gives_gapRound (hany tokens))
      fun _ _ _ _ _ _ hr => hr.1
  · exact progresses_of_gives
      (fun _ body tokens => gives_repeatsRound (hany tokens) trivial (body.isPlaced_any start))
      fun _ _ _ _ _ _ hr => hr.1
  · exact progresses_of_gives (fun _ _ tokens => gives_elementsRound (givesExpr_exprWithin depth)
      (hany tokens) (.inl trivial) (.inl trivial)) fun _ _ _ _ _ _ hr => hr.1
  · exact progresses_of_gives (fun _ _ tokens => gives_alternativesRound
      (givesExpr_exprWithin depth) (hany tokens) (.inl trivial) (.inl trivial))
      fun _ _ _ _ _ _ hr => hr.1

/-- The readers of arguments: in an expression, and in the name of a token. -/
def argumentReaders (depth : Nat) : List (Reader Expr) :=
  [exprWithin depth, expr]

/-- A round of reading arguments that takes no token is the first one, and its
argument is empty. -/
theorem takes_or_isEmpty_of_again {depth : Nat} {e : Reader Expr} (he : e ∈ argumentReaders depth)
    {fuel : Nat} {first : Bool} {next : Bool} {finish : List Expr → List Expr} {rest : Tokens}
    (h : (itemList (.punct '>') e).round fuel first tokens = .ok (.again next finish, rest)) :
    rest.length < tokens.length ∨
      first = true ∧ next = false ∧ rest = tokens ∧ ∃ start, finish = (.empty start :: ·) := by
  have hgives : GivesExpr .any depth e := by
    simp only [argumentReaders, List.mem_cons, List.not_mem_nil, or_false] at he
    obtain rfl | rfl := he
    · exact givesExpr_exprWithin depth
    · exact givesExpr_expr depth
  -- Places do not matter here, so the tokens may be any.
  have hround : Gives .any 0 tokens (itemsRound (.punct '>') e first) _ :=
    gives_itemsRound (tokens.arePlaced_any 0) fun before _ _ =>
      hgives 0 before (.inl trivial) (before.arePlaced_any 0)
  obtain ⟨-, -, hnext, a, before, rfl, ha, hle, hbefore⟩ := hround.of_eq_ok h
  cases first with
  | false => exact .inl (hle.trans_lt hbefore)
  | true =>
    cases hbefore
    refine ha.takes.imp_right fun htakes => ?_
    obtain ⟨hsame, start, rfl⟩ := htakes
    exact ⟨rfl, hnext, hsame, start, rfl⟩

end Reader

/-! ## §6 Texts -/

/-- What a text is parsed to: declarations with places in the text, or a syntax error
between two of its characters. -/
inductive GrammarDecl.IsParsed (source : Source) : Except BuildError GrammarDecl → Prop
  | ok {g : GrammarDecl} (h : g.IsPlaced (.ofText source.text)) : IsParsed source (.ok g)
  | error {fault : SyntaxFault} {before after : List Char}
      (htext : source.text.toList = before ++ after) (hfault : fault ≠ .nestingTooDeep) :
      IsParsed source
        (.error (.text fault ⟨source.file, before.foldl Position.after ⟨1, 0⟩⟩))

theorem GrammarDecl.isParsed_parse (source : Source) :
    GrammarDecl.IsParsed source (GrammarDecl.parse source) := by
  have hread := Reader.gives_grammar (Lexer.arePlaced_tokens source.text)
  unfold GrammarDecl.parse
  cases hgrammar : Reader.grammar (Lexer.tokens source.text) with
  | ok p => exact .ok (hread.of_eq_ok hgrammar).2.2
  | error e =>
    unfold Reader.Gives at hread
    rw [hgrammar] at hread
    obtain ⟨⟨-, -, hboundary⟩, hdeep⟩ := hread
    obtain ⟨before, after, htext, hsize⟩ := isBoundary_iff.mp hboundary
    have hlocation : source.location e.offset =
        ⟨source.file, before.foldl Position.after ⟨1, 0⟩⟩ := by
      rw [Source.location, ← hsize, Source.position_byteSize source htext]
    dsimp only
    rw [hlocation]
    exact .error htext hdeep

/-- Every text is parsed. The parts of its grammar start between two characters, and not
before the part they are in; a syntax error is at such a place as well. Every round of a
loop takes a character, or a token, or leaves the loop, but for the first round of a list
of arguments, which goes on if its argument is empty. No loop is short of fuel. -/
theorem GrammarDecl.isParsed_and_progresses (source : Source) :
    GrammarDecl.IsParsed source (GrammarDecl.parse source) ∧
      (∀ quote start, Lexer.isQuote quote = true → ∀ l ∈ Lexer.loops quote start,
        l.Progresses (fun c => c.rest.length) ∧ l.Settles fun c => c.rest.length) ∧
      (∀ depth start, ∀ l ∈ Reader.loops depth start, l.Progresses Tokens.length) ∧
      ∀ depth, ∀ e ∈ Reader.argumentReaders depth, ∀ fuel first tokens next finish rest,
        (Reader.itemList (.punct '>') e).round fuel first tokens =
            .ok (.again next finish, rest) →
          rest.length < tokens.length ∨
            first = true ∧ next = false ∧ rest = tokens ∧ ∃ start, finish = (.empty start :: ·) :=
  ⟨GrammarDecl.isParsed_parse source,
    fun _ start hquote _ hl => ⟨Lexer.progresses_of_mem_loops hquote start hl,
      Lexer.settles_of_mem_loops hquote start hl⟩,
    fun _ _ _ hl => Reader.progresses_of_mem_loops hl,
    fun _ _ he _ _ _ _ _ _ h => Reader.takes_or_isEmpty_of_again he h⟩

/-- The first argument of `b` is empty. The round that reads it takes no token, and goes on. -/
theorem Reader.again_of_emptyArgument :
    ∃ behind, Lexer.tokens "a \x7b b<,c> \x7d" = .cons 0 (.name "a") (.cons 2 (.punct '\x7b')
        (.cons 4 (.name "b") (.cons 5 (.punct '<') behind))) ∧
      (itemList (.punct '>') (exprWithin 6)).round 0 true behind =
        .ok (.again false (.empty 6 :: ·), behind) ∧
      ¬ (itemList (.punct '>') (exprWithin 6)).Progresses Tokens.length := by
  let behind : Tokens := .cons 6 (.punct ',') (.cons 7 (.name "c") (.cons 8 (.punct '>')
    (.cons 10 (.punct '\x7d') (.done 11))))
  have hround : (itemList (.punct '>') (exprWithin 6)).round 0 true behind =
      .ok (.again false (.empty 6 :: ·), behind) := rfl
  exact ⟨behind, rfl, hround, fun h => Nat.lt_irrefl _ (h _ _ _ _ _ _ hround)⟩

theorem GrammarDecl.isParsed_emptyArgument :
    GrammarDecl.IsParsed ⟨"grammar", "a \x7b b<,c> \x7d"⟩
      (GrammarDecl.parse ⟨"grammar", "a \x7b b<,c> \x7d"⟩) ∧
    (Lexer.stringChars '\x22' 0).Settles (fun c => c.rest.length) ∧
    Reader.declarationList.Progresses Tokens.length ∧
    (Reader.itemList (.punct '>') (Reader.exprWithin 6)).round 0 false
        (.cons 6 (.punct ',') (.cons 7 (.name "c") (.done 8))) =
      .ok (.again false (.name 7 "c" [] :: ·), .done 8) ∧
    (Tokens.done 8).length <
      (Tokens.cons 6 (.punct ',') (.cons 7 (.name "c") (.done 8))).length := by
  have h := GrammarDecl.isParsed_and_progresses ⟨"grammar", "a \x7b b<,c> \x7d"⟩
  have hround : (Reader.itemList (.punct '>') (Reader.exprWithin 6)).round 0 false
        (.cons 6 (.punct ',') (.cons 7 (.name "c") (.done 8))) =
      .ok (.again false (.name 7 "c" [] :: ·), .done 8) := rfl
  have htakes := h.2.2.2 6 (Reader.exprWithin 6) (.head _) 0 false _ _ _ _ hround
  have hstrings := h.2.1 '\x22' 0 (by decide) (Lexer.stringChars '\x22' 0)
    (.tail _ (.tail _ (.tail _ (.head _))))
  exact ⟨h.1, hstrings.2,
    h.2.2.1 6 0 Reader.declarationList (.head _), hround,
    htakes.resolve_right fun hfirst => absurd hfirst.1 Bool.false_ne_true⟩

end GrammarCompiler
