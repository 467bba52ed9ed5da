/-
GrammarCompiler.Proofs.Recognizing — what the origins of items have to do with
states: nothing.

A state is known by its kernel, and kernels are compared without the origins of
their items, which only serve messages. So when a kernel is known, the items of its
state are those of another kernel. They are the same all the same: a closure goes
the same way for kernels that differ in origins only, and comes to items that do.

  §1 Bare items — items without their origins, in order.
  §2 Starts     — one start on behalf of items that differ in origins.
  §3 Closures   — all starts, and what comes out of them.
-/
import GrammarCompiler.Proofs.Merging
import GrammarCompiler.Proofs.Reading

namespace GrammarCompiler

/-! ## §1 Bare items -/

namespace Item

/-- An item without its origins. -/
def bare (i : Item) : Item :=
  { i with origins := [] }

@[simp]
theorem toDotted_bare (i : Item) : i.bare.toDotted = i.toDotted :=
  rfl

@[simp]
theorem ahead_bare (i : Item) : i.bare.ahead = i.ahead :=
  rfl

theorem same_iff_bare {a b : Item} : a.same b = true ↔ a.bare = b.bare := by
  rw [same_iff]
  obtain ⟨d, ahead, ambig, skip, origins⟩ := a
  obtain ⟨d', ahead', ambig', skip', origins'⟩ := b
  simp only [bare, Item.mk.injEq, and_true]
  tauto

theorem sameAll_iff_bare {as bs : List Item} :
    sameAll as bs = true ↔ as.map bare = bs.map bare := by
  induction as generalizing bs with
  | nil => cases bs <;> simp [sameAll]
  | cons a as ih =>
    cases bs with
    | nil => simp [sameAll]
    | cons b bs => simp [sameAll, same_iff_bare, ih]

theorem compare_self (a : Item) : a.compare a = .eq := by
  unfold compare
  simp only [Ordering.then_eq_eq, Std.compare_eq_iff_eq, true_and]
  exact ⟨(compareByLength_eq_iff fun _ _ => Std.compare_eq_iff_eq).mpr rfl,
    (compareByLength_eq_iff fun _ _ => Std.compare_eq_iff_eq).mpr rfl⟩

theorem sort_map_bare (items : List Item) : (sort items).map bare = sort (items.map bare) :=
  List.map_mergeSort fun _ _ _ _ => rfl

/-- What tells items apart before anything else: the rule, and how far it was read. -/
def position (i : Item) : Nat × Nat :=
  (i.rule.id, i.dot)

/-- Items at different positions are sorted by position. -/
theorem pairwise_sort {items : List Item} (h : (items.map position).Nodup) :
    (sort items).Pairwise fun a b => a.rule.id < b.rule.id ∨
      a.rule.id = b.rule.id ∧ a.dot ≤ b.dot := by
  let le (m n : Nat × Nat) : Bool := decide (m.1 < n.1 ∨ m.1 = n.1 ∧ m.2 ≤ n.2)
  have hmap : (sort items).map position = (items.map position).mergeSort le := by
    refine List.map_mergeSort fun a ha b hb => ?_
    by_cases hposition : a.position = b.position
    · obtain rfl : a = b := List.inj_on_of_nodup_map h ha hb hposition
      simp [compare_self, le]
    · rw [compare]
      rcases Nat.lt_trichotomy a.rule.id b.rule.id with hlt | heq | hgt
      · rw [Nat.compare_eq_lt.mpr hlt]
        simp [position, le, hlt]
      · rw [Nat.compare_eq_eq.mpr heq]
        rcases Nat.lt_trichotomy a.dot b.dot with hlt | hdot | hgt
        · rw [Nat.compare_eq_lt.mpr hlt]
          simp [position, le, heq, Nat.le_of_lt hlt]
        · exact absurd (Prod.ext heq hdot) hposition
        · rw [Nat.compare_eq_gt.mpr hgt]
          simp [position, le, heq, hgt]
      · rw [Nat.compare_eq_gt.mpr hgt]
        simp only [position, le, Ordering.then]
        simp [Nat.not_lt.mpr (Nat.le_of_lt hgt), (Nat.ne_of_gt hgt)]
  have hsorted : ((items.map position).mergeSort le).Pairwise fun m n => le m n = true :=
    List.pairwise_mergeSort
      (fun a b c hab hbc => by simp only [le, decide_eq_true_eq] at *; omega)
      (fun a b => by simp only [le, Bool.or_eq_true, decide_eq_true_eq]; omega) _
  rw [← hmap, List.pairwise_map] at hsorted
  exact hsorted.imp fun hle => by simpa [le, position] using hle

/-- Items at different positions are sorted in one way. -/
theorem sort_eq_of_perm {as bs : List Item} (h : as.Perm bs) (hpositions : (as.map position).Nodup) :
    sort as = sort bs := by
  have hpositions' : (bs.map position).Nodup := (h.map _).nodup_iff.mp hpositions
  have hperm : (sort as).Perm (sort bs) :=
    (List.mergeSort_perm _ _).trans (h.trans (List.mergeSort_perm _ _).symm)
  refine hperm.eq_of_pairwise (fun a b ha hb hab hba => ?_) (pairwise_sort hpositions)
    (pairwise_sort hpositions')
  refine List.inj_on_of_nodup_map hpositions (mem_sort.mp ha) (h.mem_iff.mpr (mem_sort.mp hb))
    (Prod.ext ?_ ?_) <;> simp only [position] <;> omega

end Item

namespace Closing

variable {g : Grammar} {table : FirstTable} {kernel kernel' : List Item}
variable {c c' d : Closing} {i i' : Item}

/-! ## §2 Starts -/

/-- What has been started and is pending, without origins. -/
def bare (c : Closing) : Closing where
  started := c.started.map fun entry => (entry.1, entry.2.map Item.bare)
  pending := c.pending

/-- What an item requests has nothing to do with its origins. -/
theorem ofItem?_eq_map (h : i.bare = i'.bare) : Request.ofItem? g table i' =
    (Request.ofItem? g table i).map fun q => { q with item := i' } := by
  obtain ⟨dotted, ahead, ambig, skip, origins⟩ := i
  obtain ⟨dotted', ahead', ambig', skip', origins'⟩ := i'
  simp only [Item.bare, Item.mk.injEq, and_true] at h
  obtain ⟨rfl, rfl, rfl, rfl⟩ := h
  unfold Request.ofItem?
  cases dotted.next? with
  | none => rfl
  | some name =>
    dsimp only
    split <;> rfl

theorem lookup_bare (c : Closing) (name : Term) :
    c.bare.started.lookup name = (c.started.lookup name).map (List.map Item.bare) := by
  unfold bare
  dsimp only
  induction c.started with
  | nil => rfl
  | cons entry started ih =>
    rw [List.map_cons, List.lookup_cons, List.lookup_cons, ih]
    split <;> rfl

theorem itemOf?_bare (c : Closing) (r : Rule) :
    c.bare.itemOf? r = (c.itemOf? r).map Item.bare := by
  unfold itemOf?
  rw [lookup_bare]
  cases c.started.lookup r.name with
  | none => rfl
  | some items =>
    rw [Option.map_some, Option.bind_some, Option.bind_some, List.find?_map]
    rfl

theorem newItem_bare (kernel : List Item) (q : Request) (r : Rule) : (newItem kernel q r).bare =
    ((kernel.map Item.bare).find? fun i => i.dot == 0 && i.rule == r).getD
      ⟨⟨r, 0⟩, .empty, [], q.skip, []⟩ := by
  unfold newItem
  rw [List.find?_map]
  show _ = ((kernel.find? fun i => i.dot == 0 && i.rule == r).map Item.bare).getD _
  cases kernel.find? fun i => i.dot == 0 && i.rule == r <;> rfl

/-- The items that a request is about, without their origins. -/
theorem itemsFor_bare (kernel : List Item) (q : Request) (c : Closing) :
    (c.itemsFor g kernel q).map Item.bare = (c.bare.started.lookup q.name).getD
      ((g.rulesFor q.name).map fun r =>
        ((kernel.map Item.bare).find? fun i => i.dot == 0 && i.rule == r).getD
          ⟨⟨r, 0⟩, .empty, [], q.skip, []⟩) := by
  unfold itemsFor
  rw [lookup_bare]
  cases c.started.lookup q.name with
  | some items => rfl
  | none =>
    rw [Option.map_none, Option.getD_none, Option.getD_none, List.map_map]
    exact List.map_congr_left fun r _ => newItem_bare kernel q r

theorem grow_bare (q : Request) (items : List Item) (pending : List Rule) :
    grow g { q with item := i } (items.map Item.bare) pending =
      ((grow g q items pending).1.map Item.bare, (grow g q items pending).2) := by
  induction items generalizing pending with
  | nil => rfl
  | cons j items ih =>
    rw [List.map_cons]
    unfold grow
    dsimp only [Item.ahead_bare, Item.toDotted_bare]
    rw [ih]
    rfl

theorem put_bare (name : Term) (items : List Item) (c : Closing) :
    (put name items c.started).map (fun entry => (entry.1, entry.2.map Item.bare)) =
      put name (items.map Item.bare) c.bare.started := by
  unfold bare
  dsimp only
  induction c.started with
  | nil => rfl
  | cons entry started ih =>
    rw [List.map_cons]
    unfold put
    dsimp only
    split
    · rfl
    · rw [List.map_cons, ih]

section

variable (hk : kernel.map Item.bare = kernel'.map Item.bare)
include hk

/-- Starting rules goes the same way whatever the origins are. -/
theorem exists_startAll_of_bare (hi : i.bare = i'.bare) (hc : c.bare = c'.bare)
    (h : startAll g table kernel c i = .ok d) :
    ∃ d', startAll g table kernel' c' i' = .ok d' ∧ d.bare = d'.bare := by
  unfold startAll at h ⊢
  rw [ofItem?_eq_map hi]
  cases hq : Request.ofItem? g table i with
  | none =>
    rw [hq] at h
    cases h
    exact ⟨c', rfl, hc⟩
  | some q =>
    have hitems : (c.itemsFor g kernel q).map Item.bare =
        (c'.itemsFor g kernel' { q with item := i' }).map Item.bare := by
      rw [itemsFor_bare, itemsFor_bare, hc, hk]
    have hany (items : List Item) : (items.any fun i => i.skipAhead != q.skip) =
        (items.map Item.bare).any fun i => i.skipAhead != q.skip := by
      rw [List.any_map]
      rfl
    rw [hq] at h
    dsimp only [Option.map_some] at h ⊢
    rw [hany, hitems, ← hany] at h
    split at h
    next => cases h
    next hskip =>
      cases h
      rw [if_neg hskip]
      refine ⟨_, rfl, ?_⟩
      have hgrow := grow_bare (g := g) (i := i) q (c.itemsFor g kernel q) c.pending
      have hgrow' := grow_bare (g := g) (i := i) { q with item := i' }
        (c'.itemsFor g kernel' { q with item := i' }) c'.pending
      have hpending : c.pending = c'.pending := congrArg (fun c => c.pending) hc
      rw [hitems, hpending] at hgrow
      obtain ⟨hgrown, hafter⟩ := Prod.mk.inj (hgrow.symm.trans hgrow')
      show Closing.mk ((put _ _ c.started).map _) _ = Closing.mk ((put _ _ c'.started).map _) _
      rw [put_bare, put_bare, hc, hpending, hgrown, hafter]

/-! ## §3 Closures -/

theorem exists_foldlM_of_bare {items items' : List Item}
    (hitems : items.map Item.bare = items'.map Item.bare) (hc : c.bare = c'.bare)
    (h : items.foldlM (startAll g table kernel) c = .ok d) :
    ∃ d', items'.foldlM (startAll g table kernel') c' = .ok d' ∧ d.bare = d'.bare := by
  induction items generalizing items' c c' with
  | nil =>
    obtain rfl := List.map_eq_nil_iff.mp hitems.symm
    cases h
    exact ⟨c', rfl, hc⟩
  | cons i items ih =>
    obtain ⟨i', rest, rfl, hi, hrest⟩ := List.map_eq_cons_iff.mp hitems.symm
    rw [List.foldlM_cons] at h
    obtain ⟨next, hstep, hfold⟩ := exists_ok_of_bind h
    obtain ⟨next', hstep', hnext⟩ := exists_startAll_of_bare hk hi.symm hc hstep
    rw [List.foldlM_cons, hstep']
    exact ih hrest.symm hnext hfold

theorem exists_settle_of_bare {fuel : Nat} (hc : c.bare = c'.bare)
    (h : settle g table kernel fuel c = .ok d) :
    ∃ d', settle g table kernel' fuel c' = .ok d' ∧ d.bare = d'.bare := by
  induction fuel generalizing c c' with
  | zero => cases h
  | succ fuel ih =>
    have hpending : c.pending = c'.pending := congrArg (fun c => c.pending) hc
    have hstarted : c.bare.started = c'.bare.started := congrArg (fun c => c.started) hc
    unfold settle at h ⊢
    cases hp : c'.pending with
    | nil =>
      rw [hpending, hp] at h
      cases h
      exact ⟨c', rfl, hc⟩
    | cons r pending =>
      have hrest : bare { c with pending } = bare { c' with pending } := by
        show Closing.mk c.bare.started pending = Closing.mk c'.bare.started pending
        rw [hstarted]
      have hitem : (itemOf? { c with pending } r).map Item.bare =
          (itemOf? { c' with pending } r).map Item.bare := by
        rw [← itemOf?_bare, ← itemOf?_bare, hrest]
      rw [hpending, hp] at h
      dsimp only at h ⊢
      cases hi' : itemOf? { c' with pending } r with
      | none =>
        rw [hi', Option.map_none, Option.map_eq_none_iff] at hitem
        rw [hitem] at h
        exact ih hrest h
      | some i' =>
        rw [hi', Option.map_some] at hitem
        obtain ⟨i, hi, hbare⟩ := Option.map_eq_some_iff.mp hitem
        rw [hi] at h
        obtain ⟨next, hstep, hrun⟩ := exists_ok_of_bind h
        obtain ⟨next', hstep', hnext⟩ := exists_startAll_of_bare hk hbare hrest hstep
        obtain ⟨d', hd', heq⟩ := ih hnext hrun
        refine ⟨d', ?_, heq⟩
        dsimp only
        rw [hstep']
        exact hd'

end

theorem items_bare (kernel : List Item) (c : Closing) :
    (c.items kernel).map Item.bare = c.bare.items (kernel.map Item.bare) := by
  unfold items
  have hstarted : c.bare.started.flatMap Prod.snd =
      (c.started.flatMap Prod.snd).map Item.bare := by
    rw [bare, List.flatMap_map, List.map_flatMap]
  have hany (r : Rule) : ((c.started.flatMap Prod.snd).map Item.bare).any (fun s => s.rule == r) =
      (c.started.flatMap Prod.snd).any fun s => s.rule == r := by
    rw [List.any_map]
    rfl
  dsimp only
  rw [Item.sort_map_bare, List.map_append, hstarted, List.filter_map]
  simp only [hany]
  rfl

end Closing

/-- Kernels that differ in nothing but origins have closures that differ in nothing else. -/
theorem exists_closure_of_sameAll {g : Grammar} {table : FirstTable} {kernel kernel' items : List Item}
    (hsame : Item.sameAll kernel kernel' = true) (h : closure g table kernel = .ok items) :
    ∃ items', closure g table kernel' = .ok items' ∧ Item.sameAll items items' = true := by
  have hk := Item.sameAll_iff_bare.mp hsame
  unfold closure at h ⊢
  dsimp only at h ⊢
  obtain ⟨c, hfold, h⟩ := exists_ok_of_bind h
  obtain ⟨c', hfold', hc⟩ := Closing.exists_foldlM_of_bare hk hk rfl hfold
  obtain ⟨d, hsettle, h⟩ := exists_ok_of_bind h
  obtain ⟨d', hsettle', hd⟩ := Closing.exists_settle_of_bare hk hc hsettle
  cases h
  refine ⟨d'.items kernel', ?_, ?_⟩
  · rw [hfold']
    show (Closing.settle g table kernel' _ c' >>= _) = _
    rw [hsettle']
    rfl
  · rw [Item.sameAll_iff_bare, Closing.items_bare, Closing.items_bare, hd, hk]

end GrammarCompiler
