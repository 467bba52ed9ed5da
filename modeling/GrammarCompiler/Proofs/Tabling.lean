/-
GrammarCompiler.Proofs.Tabling — the numbers of a tokenizer read back as the
automaton.

Records follow one another, in the order in which a walk gets to their states.
What is read at the place of a state is its record. The groups in a record are
those of all tokens that can still be read, so a walk for a group that stops
there misses nothing.

  §1 Records — reading back one record.
  §2 Places  — the record at the place of a state.
  §3 Groups  — the groups in which a token can be read from a state on.
  §4 Walks   — the record that a word leads to.
-/
import GrammarCompiler.Proofs.Closure
import GrammarCompiler.Proofs.Minimizing
import GrammarCompiler.Tokenizer.Lookup

namespace GrammarCompiler

namespace Layout

variable {a : Dfa} {ids : Term → Nat} {masks : Nat → Nat} {precedence : List Nat}
  {place : Nat → Nat}

/-! ## §1 Records -/

theorem readTokens?_append (ids rest : List Nat) (mask : Nat → Nat) :
    readTokens? ids.length ((ids.flatMap fun id => [id, mask id]) ++ rest) =
      some (ids.map fun id => (id, mask id)) := by
  induction ids with
  | nil => rfl
  | cons id ids ih => simp [readTokens?, ih]

/-- An edge as it is stored: the limit is the one above the last code unit at
most, and the target is a place. -/
def stored (place : Nat → Nat) (e : UnitEdge) : UnitEdge :=
  ⟨e.lo, min e.hi 0x10000, place e.target⟩

theorem readEdges?_append {edges : List UnitEdge} (hfull : ∀ e ∈ edges, e.lo < e.hi)
    (rest : List Nat) (place : Nat → Nat) :
    readEdges? edges.length ((edges.flatMap fun e =>
        [e.lo, if 0xffff < e.hi then 0 else e.hi, place e.target]) ++ rest) =
      some (edges.map (stored place)) := by
  induction edges with
  | nil => rfl
  | cons e edges ih =>
    obtain ⟨he, hfull⟩ := List.forall_mem_cons.mp hfull
    have hlimit : (if (if 0xffff < e.hi then 0 else e.hi) = 0 then 0x10000
        else if 0xffff < e.hi then 0 else e.hi) = min e.hi 0x10000 := by
      by_cases h : 0xffff < e.hi
      · simp [h]
        omega
      · simp [h, Nat.ne_of_gt (Nat.zero_lt_of_lt he)]
        omega
    simp only [List.flatMap_cons, List.cons_append, List.nil_append, List.length_cons, readEdges?,
      ih hfull, hlimit, List.map_cons, stored]
    rfl

theorem length_ordered (ids : Term → Nat) (precedence : List Nat) (tokens : List Term) :
    (ordered ids precedence tokens).length = tokens.length := by
  simp [ordered]

/-- What is known of a state from its record. -/
def recordOf (a : Dfa) (ids : Term → Nat) (masks : Nat → Nat) (precedence : List Nat)
    (place : Nat → Nat) (i : Nat) : Record where
  groups := stateMask a ids masks i
  tokens := (ordered ids precedence (a.state i).accepting).map fun id => (id, maskOf masks id)
  edges := (a.state i).edges.map (stored place)

theorem length_record (start i : Nat) :
    (record a ids masks precedence place start i).length = recordSize (a.state i) := by
  simp [record, recordSize, length_ordered]
  omega

/-- A record reads back. -/
theorem record?_eq {words rest : List Nat} {address i : Nat}
    (hfull : ∀ e ∈ (a.state i).edges, e.lo < e.hi)
    (h : words.drop address = record a ids masks precedence place address i ++ rest) :
    record? words address = some (recordOf a ids masks precedence place i) := by
  let tokens := (ordered ids precedence (a.state i).accepting).flatMap
    fun id => [id, maskOf masks id]
  let edges := (a.state i).edges.flatMap fun e =>
    [e.lo, if 0xffff < e.hi then 0 else e.hi, place e.target]
  have hrecord : words.drop address = stateMask a ids masks i ::
      (address + 3 + (a.state i).accepting.length * 2) :: (a.state i).edges.length ::
        (tokens ++ (edges ++ rest)) := by
    simp [h, record, tokens, edges]
  have htokens : tokens.length = (a.state i).accepting.length * 2 := by
    simp [tokens, length_ordered]
  have hedges : words.drop (address + 3 + (a.state i).accepting.length * 2) = edges ++ rest := by
    rw [show address + 3 + (a.state i).accepting.length * 2 =
      address + (3 + tokens.length) by omega, ← List.drop_drop, hrecord, Nat.add_comm 3]
    simp only [List.drop_succ_cons, List.drop_left']
  have hcount : (address + 3 + (a.state i).accepting.length * 2 - (address + 3)) / 2 =
      (ordered ids precedence (a.state i).accepting).length := by
    rw [length_ordered]
    omega
  have hreadTokens := readTokens?_append (ordered ids precedence (a.state i).accepting)
    (edges ++ rest) (maskOf masks)
  have hreadEdges := readEdges?_append hfull rest place
  simp only [record?, hrecord, hcount, hedges]
  simp only [tokens, edges, hreadTokens, hreadEdges]
  rfl

/-! ## §2 Places -/

theorem map_fst_places (start : Nat) (l : List Nat) : (places a start l).map Prod.fst = l := by
  induction l generalizing start with
  | nil => rfl
  | cons i l ih => simp [places, ih]

/-- The record of a state stands at its place. -/
theorem drop_records (start : Nat) (l : List Nat) {i address : Nat}
    (h : (i, address) ∈ places a start l) :
    start ≤ address ∧ ∃ rest, ((places a start l).flatMap fun (i, start) =>
        record a ids masks precedence place start i).drop (address - start) =
      record a ids masks precedence place address i ++ rest := by
  induction l generalizing start with
  | nil => cases h
  | cons j l ih =>
    rw [places] at h ⊢
    rcases List.mem_cons.mp h with heq | h
    · cases heq
      exact ⟨Nat.le_refl _, _, by rw [Nat.sub_self, List.drop_zero, List.flatMap_cons]⟩
    · obtain ⟨hle, rest, hdrop⟩ := ih _ h
      refine ⟨by omega, rest, ?_⟩
      rw [List.flatMap_cons, List.drop_append, length_record, List.drop_eq_nil_of_le,
        List.nil_append, ← hdrop]
      · congr 1
        omega
      · rw [length_record]
        omega

/-! ## §3 Groups -/

theorem testBit_foldl_or {α : Type} (f : α → Nat) (l : List α) (mask group : Nat) :
    (l.foldl (fun mask x => mask ||| f x) mask).testBit group = true ↔
      mask.testBit group = true ∨ ∃ x ∈ l, (f x).testBit group = true := by
  induction l generalizing mask with
  | nil => simp
  | cons x l ih => simp [ih, or_assoc]

/-- A group belongs to a state if a token of the group can be read from it
on. -/
theorem testBit_stateMask {i group : Nat} :
    (stateMask a ids masks i).testBit group = true ↔
      ∃ s ∈ (a.reachable i).map Walk.Stop.node, ∃ t ∈ (a.state s).accepting,
        (maskOf masks (ids t)).testBit group = true := by
  rw [stateMask, ← List.foldl_flatMap, testBit_foldl_or]
  simp only [Nat.zero_testBit, Bool.false_eq_true, false_or, List.mem_flatMap, List.mem_map,
    exists_exists_and_eq_and]
  constructor
  · rintro ⟨t, ⟨s, hs, ht⟩, hbit⟩
    exact ⟨s, hs, t, ht, hbit⟩
  · rintro ⟨s, hs, t, ht, hbit⟩
    exact ⟨t, ⟨s, hs, ht⟩, hbit⟩

theorem mem_reachable_self {i : Nat} (hi : i < a.size) :
    i ∈ (a.reachable i).map Walk.Stop.node := by
  obtain ⟨stops, hwalk⟩ : ∃ stops, a.reachable i = ⟨i, []⟩ :: stops := Walk.walk_eq_cons _ hi
  simp [hwalk]

/-- What an edge leads to can be reached, too. -/
theorem mem_reachable_of_edge (ha : a.IsSound) {i j : Nat}
    (hj : j ∈ (a.reachable i).map Walk.Stop.node) {e : UnitEdge} (he : e ∈ (a.state j).edges) :
    e.target ∈ (a.reachable i).map Walk.Stop.node :=
  Walk.mem_walk_of_hasWay (a.sum_edgeWays id) hj (Dfa.hasWay_edgeWays.mpr ⟨e, he, rfl⟩)
    (ha.inside j e he)

theorem mem_reachable_of_step? (ha : a.IsSound) {i j k unit : Nat}
    (hj : j ∈ (a.reachable i).map Walk.Stop.node) (h : a.step? j unit = some k) :
    k ∈ (a.reachable i).map Walk.Stop.node := by
  obtain ⟨e, hfind, rfl⟩ := Option.map_eq_some_iff.mp h
  exact mem_reachable_of_edge ha hj (List.mem_of_find?_eq_some hfind)

/-- Where a word leads can be reached. -/
theorem mem_reachable_of_run? (ha : a.IsSound) {i j k : Nat} {word : List Nat}
    (hj : j ∈ (a.reachable i).map Walk.Stop.node) (h : a.run? j word = some k) :
    k ∈ (a.reachable i).map Walk.Stop.node := by
  induction word generalizing j with
  | nil => exact Option.some.inj h ▸ hj
  | cons unit word ih =>
    obtain ⟨m, hstep, hrest⟩ := Option.bind_eq_some_iff.mp h
    exact ih (mem_reachable_of_step? ha hj hstep) hrest

theorem lt_size_of_mem_reachable {i j : Nat} (hj : j ∈ (a.reachable i).map Walk.Stop.node) :
    j < a.size :=
  Walk.lt_size_of_mem_walk (a.sum_edgeWays id) hj

/-! ## §4 Walks -/

/-- The numbers hold the records of all states that can be reached, each one
at its place. -/
structure Holds (a : Dfa) (ids : Term → Nat) (masks : Nat → Nat) (precedence words : List Nat)
    (place : Nat → Nat) : Prop where
  start : place 0 = 0
  record : ∀ i ∈ (a.reachable 0).map Walk.Stop.node,
    record? words (place i) = some (recordOf a ids masks precedence place i)

/-- The states that can be reached, with the places of their records. -/
def order (a : Dfa) : List (Nat × Nat) :=
  places a 0 ((a.reachable 0).map Walk.Stop.node)

/-- The place of the record of a state. -/
def addressOf (a : Dfa) (i : Nat) : Nat :=
  ((order a).foldl (fun (offsets : Array Nat) (i, start) => offsets.setIfInBounds i start)
    (Array.replicate a.size 0))[i]?.getD 0

/-- A state stands at the beginning, or where its record has its place. -/
theorem addressOf_eq_zero_or_mem (a : Dfa) (i : Nat) :
    addressOf a i = 0 ∨ (i, addressOf a i) ∈ order a := by
  rw [addressOf]
  cases hput : ((order a).foldl (fun (offsets : Array Nat) (i, start) =>
      offsets.setIfInBounds i start) (Array.replicate a.size 0))[i]? with
  | none => exact .inl rfl
  | some address =>
    refine (mem_of_getElem?_foldl_set hput).imp_left fun hold => ?_
    rw [Array.getElem?_replicate] at hold
    exact (Option.some.inj ((Option.ite_none_right_eq_some.mp hold).2)).symm

/-- The numbers are the records of the states one after another. -/
theorem toWords_ok {words : List Nat} (h : a.toWords ids masks precedence = .ok words) :
    words = (order a).flatMap (fun (i, start) =>
      record a ids masks precedence (addressOf a) start i) ∧ words.length ≤ 0xffff := by
  rw [Dfa.toWords] at h
  split at h
  next => cases h
  next hlength =>
    cases h
    exact ⟨rfl, Nat.le_of_not_lt hlength⟩

theorem exists_holds (ha : a.IsSound) {words : List Nat}
    (h : a.toWords ids masks precedence = .ok words) :
    ∃ place, Holds a ids masks precedence words place := by
  obtain ⟨hwords, -⟩ := toWords_ok h
  have hkeys : (order a).map Prod.fst = (a.reachable 0).map Walk.Stop.node := map_fst_places 0 _
  have hplace {i address : Nat} (hmem : (i, address) ∈ order a) : addressOf a i = address := by
    have hi : i ∈ (a.reachable 0).map Walk.Stop.node :=
      hkeys ▸ List.mem_map_of_mem hmem
    have hnodup : ((order a).map Prod.fst).Nodup := hkeys ▸ Walk.nodup_walk (a.sum_edgeWays id)
    have hput : ((order a).foldl (fun (offsets : Array Nat) (i, start) =>
        offsets.setIfInBounds i start) (Array.replicate a.size 0))[i]? = some address := by
      refine getElem?_foldl_set (by simpa using lt_size_of_mem_reachable hi) ?_
        (.inr ⟨_, hmem, rfl⟩)
      intro p hp heq
      exact congrArg Prod.snd (List.inj_on_of_nodup_map hnodup hp hmem heq)
    rw [addressOf, hput, Option.getD_some]
  refine ⟨addressOf a, ?_, fun i hi => ?_⟩
  · obtain ⟨stops, hwalk⟩ : ∃ stops, a.reachable 0 = ⟨0, []⟩ :: stops :=
      Walk.walk_eq_cons _ ha.nonempty
    refine hplace ?_
    simp [order, hwalk, places]
  · obtain ⟨⟨i, address⟩, hmem, rfl⟩ := List.mem_map.mp (hkeys ▸ hi)
    simp only [hplace hmem]
    obtain ⟨_, rest, hdrop⟩ := drop_records 0 _ hmem
    refine @record?_eq a ids masks precedence (addressOf a) words rest address i (ha.full i) ?_
    rw [hwords, ← hdrop]
    rfl

namespace Holds

variable {words : List Nat} (h : Holds a ids masks precedence words place)
include h

/-- From the place of a state, a code unit leads to the place of the next one,
if the group can still be read. -/
theorem follow?_eq {i unit : Nat} (hi : i ∈ (a.reachable 0).map Walk.Stop.node)
    (hunit : unit < 0x10000) (group : Nat) : follow? words group (place i) unit =
      if (stateMask a ids masks i).testBit group then (a.step? i unit).map place else none := by
  have hcovers : (fun e : UnitEdge => e.lo ≤ unit && unit < e.hi) ∘ stored place =
      fun e => e.lo ≤ unit && unit < e.hi := by
    funext e
    have hlimit : unit < min e.hi 0x10000 ↔ unit < e.hi := by omega
    exact congrArg (decide (e.lo ≤ unit) && ·) (decide_eq_decide.mpr hlimit)
  have hstep : ((a.state i).edges.map (stored place)).find?
      (fun e => e.lo ≤ unit && unit < e.hi) =
        ((a.state i).edges.find? fun e => e.lo ≤ unit && unit < e.hi).map (stored place) := by
    rw [List.find?_map, hcovers]
  rw [follow?, h.record i hi]
  simp only [Option.bind_eq_bind, Option.bind_some, recordOf, hstep, Dfa.step?, Option.map_map]
  rfl

/-- A walk for a group only gets to places of states that words lead to. -/
theorem run?_of_walkFrom? (ha : a.IsSound) {i group address : Nat} {word : List Nat}
    (hi : i ∈ (a.reachable 0).map Walk.Stop.node) (hword : ∀ unit ∈ word, unit < 0x10000)
    (hwalk : walkFrom? words group (place i) word = some address) :
    ∃ j, a.run? i word = some j ∧ j ∈ (a.reachable 0).map Walk.Stop.node ∧
      address = place j := by
  induction word generalizing i with
  | nil => exact ⟨i, rfl, hi, (Option.some.inj hwalk).symm⟩
  | cons unit word ih =>
    obtain ⟨hunit, hword⟩ := List.forall_mem_cons.mp hword
    obtain ⟨next, hfollow, hrest⟩ := Option.bind_eq_some_iff.mp hwalk
    rw [h.follow?_eq hi hunit] at hfollow
    split at hfollow
    next =>
      obtain ⟨k, hstep, rfl⟩ := Option.map_eq_some_iff.mp hfollow
      obtain ⟨j, hrun, hj, rfl⟩ := ih (mem_reachable_of_step? ha hi hstep) hword hrest
      exact ⟨j, by rw [Dfa.run?, hstep, Option.bind_some, hrun], hj, rfl⟩
    next => cases hfollow

/-- Where a walk for a group stops, no token of the group is read any more. -/
theorem testBit_of_follow?_eq_none (ha : a.IsSound) {i j group unit : Nat} {rest : List Nat}
    (hi : i ∈ (a.reachable 0).map Walk.Stop.node) (hunit : unit < 0x10000)
    (hstop : follow? words group (place i) unit = none)
    (hrun : a.run? i (unit :: rest) = some j) {t : Term} (ht : t ∈ (a.state j).accepting) :
    (maskOf masks (ids t)).testBit group = false := by
  rw [h.follow?_eq hi hunit] at hstop
  split at hstop
  next =>
    rw [Dfa.run?, Option.map_eq_none_iff.mp hstop] at hrun
    cases hrun
  next hmask =>
    have hself := mem_reachable_self (lt_size_of_mem_reachable hi)
    rw [testBit_stateMask] at hmask
    by_contra htoken
    exact hmask ⟨j, mem_reachable_of_run? ha hself hrun, t, ht, by simpa using htoken⟩

end Holds

theorem perm_ordered (ids : Term → Nat) (precedence : List Nat) (tokens : List Term) :
    (ordered ids precedence tokens).Perm (tokens.map ids) :=
  List.mergeSort_perm _ _

/-- Tokens stand by their place in the list of precedences, then by number. -/
theorem pairwise_ordered (ids : Term → Nat) (precedence : List Nat) (tokens : List Term) :
    (ordered ids precedence tokens).Pairwise fun x y =>
      precedence.idxOf x < precedence.idxOf y ∨
        precedence.idxOf x = precedence.idxOf y ∧ x ≤ y := by
  have hsorted := @List.pairwise_mergeSort Nat (fun x y =>
      precedence.idxOf x < precedence.idxOf y ||
        (precedence.idxOf x == precedence.idxOf y && x ≤ y))
    (by simp; omega) (by simp; omega) (tokens.map ids)
  simpa [ordered] using hsorted

end Layout

theorem Dfa.run?_append (a : Dfa) (i : Nat) (word rest : List Nat) :
    a.run? i (word ++ rest) = (a.run? i word).bind fun j => a.run? j rest := by
  induction word generalizing i with
  | nil => rfl
  | cons unit word ih =>
    rw [List.cons_append, run?, run?, Option.bind_assoc]
    exact congrArg _ (funext ih)

open Layout in
/-- A walk through the numbers of a tokenizer, for any group, gets to records
with the tokens that the automaton reads, and where it stops no token of the
group is read any more. -/
theorem Dfa.toWords_walks {nfa : Nfa} {start : Nat} {terms : TermTable} {compiled a : Dfa}
    (hcompile : nfa.compile start terms = .ok compiled)
    (ha : a = compiled ∨ a = compiled.minimize) {ids : Term → Nat} {masks : Nat → Nat}
    {precedence words : List Nat} (h : a.toWords ids masks precedence = .ok words)
    (group : Nat) {word : List Nat} (hword : ∀ unit ∈ word, unit < 0x10000) {address : Nat}
    (hwalk : walkFrom? words group 0 word = some address) :
    (∃ r, record? words address = some r ∧
        (r.tokens.map Prod.fst).Perm ((a.accepted word).map ids) ∧
        ((r.tokens.map Prod.fst).Pairwise fun x y => precedence.idxOf x < precedence.idxOf y ∨
          precedence.idxOf x = precedence.idxOf y ∧ x ≤ y) ∧
        ∀ p ∈ r.tokens, p.2 = if masks p.1 = 0 then 0xffff else masks p.1) ∧
      ∀ unit < 0x10000, follow? words group address unit = none →
        ∀ rest, ∀ t ∈ a.accepted (word ++ unit :: rest),
          (if masks (ids t) = 0 then 0xffff else masks (ids t)).testBit group = false := by
  have hsound : a.IsSound := by
    rcases ha with rfl | rfl
    · exact Nfa.isSound_of_compile hcompile
    · exact isSound_minimize (Nfa.isSound_of_compile hcompile)
  obtain ⟨place, hplace⟩ := exists_holds hsound h
  rw [← hplace.start] at hwalk
  obtain ⟨i, hrun, hi, rfl⟩ := hplace.run?_of_walkFrom? hsound
    (mem_reachable_self hsound.nonempty) hword hwalk
  refine ⟨⟨_, hplace.record i hi, ?_, ?_, ?_⟩, fun unit hunit hstop rest t ht => ?_⟩
  · simpa [recordOf, accepted, hrun, Function.comp_def] using perm_ordered ids precedence _
  · simpa [recordOf, Function.comp_def] using pairwise_ordered ids precedence _
  · simp [recordOf, maskOf, allGroups]
  · rw [accepted, run?_append, hrun, Option.bind_some] at ht
    split at ht
    next j hj => exact hplace.testBit_of_follow?_eq_none hsound hi hunit hstop hj ht
    next => cases ht

/-- Two tokens that `a` is read as, of different groups. One of them is also
any other code unit from `a` on, the other one also `ab`. -/
def overlappingTokens : Nfa :=
  ⟨#[{ edges := [⟨0x61, 0x62, 1⟩, ⟨0x61, 0x10000, 2⟩] }, { accepting := [⟨2⟩] },
    { accepting := [⟨3⟩], edges := [⟨0x62, 0x63, 1⟩] }]⟩

/-- After `a`, a walk for the second group finds both tokens. -/
theorem Dfa.toWords_walks_overlappingTokens : ∃ compiled words address r,
    overlappingTokens.compile 0 ⟨#[], []⟩ = .ok compiled ∧
      compiled.minimize.toWords Term.index (fun id => if id = 2 then 1 else 2) [3] = .ok words ∧
      Layout.walkFrom? words 1 0 [0x61] = some address ∧
      Layout.record? words address = some r ∧
      (r.tokens.map Prod.fst).Perm ((compiled.minimize.accepted [0x61]).map Term.index) := by
  have hcheck : ((overlappingTokens.compile 0 ⟨#[], []⟩).toOption.any fun compiled =>
      (compiled.minimize.toWords Term.index (fun id => if id = 2 then 1 else 2)
        [3]).toOption.any fun words => (Layout.walkFrom? words 1 0 [0x61]).isSome) = true := by
    cbv
  obtain ⟨compiled, hcompile, hcheck⟩ := exists_ok_of_any hcheck
  obtain ⟨words, hwords, hcheck⟩ := exists_ok_of_any hcheck
  obtain ⟨address, hwalk⟩ := Option.isSome_iff_exists.mp hcheck
  obtain ⟨⟨r, hr, hperm, _⟩, _⟩ :=
    Dfa.toWords_walks hcompile (.inr rfl) hwords 1 (by simp) hwalk
  exact ⟨compiled, words, address, r, hcompile, hwords, hwalk, hr, hperm⟩

end GrammarCompiler
