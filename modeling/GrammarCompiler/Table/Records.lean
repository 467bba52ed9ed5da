/-
GrammarCompiler.Table.Records — the states of an automaton as records.

  §1 Skipping   — what is skipped, for each symbol, and which states are
                  about skipping only.
  §2 Tokenizers — which tokenizers a state uses.
  §3 Records    — states one after another. What they refer to is stored on
                  the way.
-/
import GrammarCompiler.Automaton.Forced
import GrammarCompiler.Table.Basic
import GrammarCompiler.Table.Code
import GrammarCompiler.Table.Words
import GrammarCompiler.Tokenizer.Origin
import GrammarCompiler.Tokenizer.Walk

namespace GrammarCompiler

namespace Records

/-! ## §1 Skipping -/

/-- The entry state of a symbol. -/
def entryState? (states : Automaton) (term : Term) : Option Nat :=
  states.findIdx? fun s => s.start == some term

/-- What to do for tokens that can be skipped. -/
def skipActions (g : Grammar) (states : Automaton) (e : SkipEntry) : List Nat :=
  let direct := e.direct.flatMap fun t => g.id t :: Code.halves Code.stayFlag
  let enter := match (if e.hasStates then entryState? states e.term else none) with
    | none => []
    | some i =>
      (states[i]?.getD default).terms.flatMap fun t => [g.id t, i, Code.gotoFlag >>> 16]
  direct ++ enter ++ [Code.listEnd, Code.done]

/-- The states that a state leads to. -/
def targets (states : Automaton) (i : Nat) : List Nat :=
  let s := states[i]?.getD default
  s.actions.filterMap (fun a =>
    match a with
    | .shift _ target => some target
    | .reduce _ _ => none) ++ s.gotos.map Goto.target

/-- Whether each state can be reached from a top rule. The others are for
what is skipped. -/
def reachedFromTop (g : Grammar) (states : Automaton) : Array Bool :=
  let tops := (List.range states.size).filter fun i =>
    ((states[i]?.bind State.start).map g.terms.isTop).getD false
  let ways := states.foldl (fun count s => count + s.actions.length + s.gotos.length) 0
  tops.foldl (fun reached top =>
    (walk states.size ways (fun i => (targets states i).map fun t => (0, t)) top).foldl
      (fun reached stop => reached.setIfInBounds stop.node true) reached)
    (Array.replicate states.size false)

/-! ## §2 Tokenizers -/

/-- Where a tokenizer comes from: a group of the main one, or an external
declaration, by its place. -/
inductive TokenizerId where
  | group (id : Nat)
  | external (index : Nat)
deriving DecidableEq

/-- All tokenizers in the order of the text. Groups stand where the token
rules do, or first if there are none. -/
def tokenizerOrder (decl : GrammarDecl) (groupCount : Nat) : List TokenizerId :=
  let place := (decl.tokens.map fun t => t.start + 1).getD 0
  let groups := (List.range groupCount).map fun i => (place, TokenizerId.group i)
  let externals := decl.externalTokens.zipIdx.map fun (d, i) =>
    (d.start + 1, TokenizerId.external i)
  ((groups ++ externals).mergeSort fun a b => decide (a.1 ≤ b.1)).map Prod.snd

/-- A tokenizer as the tables name it. -/
def tokenizerRef (decl : GrammarDecl) : TokenizerId → TokenizerRef
  | .group id => .group id
  | .external i => .external ((decl.externalTokens[i]?.map fun d => d.ref).getD ⟨"", ""⟩)

/-- Whether a state uses a tokenizer. `external` are the external ones that
its tokens come from. -/
def uses (s : State) (external : List Nat) : TokenizerId → Bool
  | .group id => s.group == some id
  | .external i => external.contains i

/-- The bit of a place in the list of tokenizers. A word has 32 bits, which
start over for the places behind them. -/
def tokenizerBit (place : Nat) : Nat :=
  1 <<< (place % 32)

/-- The tokenizers that a state uses, as bits. -/
def tokenizerMask (origins : TokenOrigins) (skips : Skipping) (order : List TokenizerId)
    (s : State) : Nat :=
  let external := (s.terms ++ skips.starts s.skip).filterMap origins.tokenizer?
  order.zipIdx.foldl (fun mask (id, i) =>
    if uses s external id then mask ||| tokenizerBit i else mask) 0

/-! ## §3 Records -/

/-- What the records of all states are made from. -/
structure Setup where
  grammar : Grammar
  skips : Skipping
  origins : TokenOrigins
  order : List TokenizerId
  skipAddresses : List Nat
  fromTop : Array Bool
  forced : Array (Option Forced)

/-- The word for reducing at the end of the input, in a state that is about
skipping. What was skipped ends where nothing else fits. -/
def fallback (x : Setup) (s : State) : Option Nat :=
  s.actions.foldl (fun found a =>
    match a with
    | .reduce term rule =>
      if term = .eof then some (Code.fullReduction x.grammar x.skips rule) else found
    | .shift _ _ => found) none

/-- The record of a state. -/
def record (x : Setup) (words : Words) (s : State) (i : Nat) : StateRecord × Words :=
  let g := x.grammar
  let isSkip := !(x.fromTop[i]?.getD false)
  let other := if s.defaultReduce.isNone && isSkip then fallback x s else none
  let list := if s.defaultReduce.isSome then [] else s.actions
  let (actions, words) := words.store (Code.actions g x.skips other list)
  let forced := (x.forced[i]?).join
  ({ flags := (if isSkip then 1 else 0) + (if s.accepting g then 2 else 0)
     actions
     skip := x.skipAddresses[x.skips.index s.skip]?.getD 0
     tokenizers := tokenizerMask x.origins x.skips x.order s
     defaultReduction := (s.defaultReduce.map (Code.fullReduction g x.skips)).getD 0
     forcedReduction := (forced.map fun f => Code.reduction g x.skips f.rule f.depth).getD 0 },
   words)

/-- The records of states from state `i` on. -/
def recordsFrom (x : Setup) : (words : Words) → (i : Nat) → List State →
    List StateRecord × Words
  | words, _, [] => ([], words)
  | words, i, s :: rest =>
    let (r, words) := record x words s i
    let (later, words) := recordsFrom x words (i + 1) rest
    (r :: later, words)

/-- Stores several lists, one after another. -/
def storeAll (words : Words) : List (List Nat) → List Nat × Words
  | [] => ([], words)
  | values :: rest =>
    let (address, words) := words.store values
    let (later, words) := storeAll words rest
    (address :: later, words)

end Records

end GrammarCompiler
