/-
GrammarCompiler.Proofs.Collecting — the states of an automaton, all of them and each
once.

A search does not miss a state that it has found before, so all states that are no
entries have different kernels. There are only so many kernels, whatever the grammar and
its conflicts are, so that the rounds of the search are enough (`Orderly.run`). What it
comes to is a canonical collection (`fullAutomaton_canonical`): there are the entries, and
states for all that is read next; symbols lead to states that are no entries and have the
items they should have, and states with the same items are one.

  §1 Bounds   — how many states a search can find.
  §2 Reading  — reading on from a state finds states, or an inconsistency.
  §3 Rounds   — there are enough of them.
  §4 Automata — the collection of all states.
-/
import GrammarCompiler.Proofs.Enumerating
import GrammarCompiler.Proofs.Resolution
import GrammarCompiler.Proofs.Searching

namespace GrammarCompiler

namespace Search

/-! ## §1 Bounds -/

/-- There are at most as many states as there are entries and kernels. -/
theorem Orderly.size_le_kernels {g : Grammar} {noSkip : Term} {starts : List Term} {s : Search}
    (hg : g.IsSelfContained) (h : s.Orderly starts)
    (hgrown : ∀ (p : Nat) seed, s.seeds[p]? = some seed → Grown g (.ofGrammar g) noSkip seed) :
    s.seeds.size ≤ starts.length + 2 ^ kernelBits g := by
  have hsize := h.size_le g.kernels.toList
    (fun kernel seed => Grown g (.ofGrammar g) noSkip seed ∧ seed.choices g = kernel)
    (fun seed hseed _ => ?_) fun kernel seed seed' hseed hseed' => ?_
  · rw [Finset.length_toList] at hsize
    exact hsize.trans (Nat.add_le_add_left (card_kernels g) _)
  · obtain ⟨p, hp⟩ := Array.mem_iff_getElem?.mp hseed
    have hseed := hgrown p seed hp
    exact ⟨_, Finset.mem_toList.mpr (hseed.choices_mem hg), hseed, rfl⟩
  · exact hseed.1.sameAll_of_choices hg hseed'.1 (hseed.2.trans hseed'.2.symm)

/-- So many rounds, each twice as far as the one before it, go further than that. -/
theorem bound_lt_rounds (entries bits : Nat) : entries + 2 ^ bits < 2 ^ (entries + bits + 1) := by
  have hentries : entries < 2 ^ entries := Nat.lt_two_pow_self
  have hleft : 2 ^ entries ≤ 2 ^ (entries + bits) :=
    Nat.pow_le_pow_right Nat.two_pos (Nat.le_add_right _ _)
  have hright : 2 ^ bits ≤ 2 ^ (entries + bits) :=
    Nat.pow_le_pow_right Nat.two_pos (Nat.le_add_left _ _)
  rw [Nat.pow_succ]
  omega

/-! ## §2 Reading -/

/-- What is skipped behind a rule is inconsistent. -/
def IsInconsistent (e : BuildError) : Prop :=
  ∃ text, e = .grammar (.inconsistentSkip text) none

variable {g : Grammar} {noSkip : Term} {starts : List Term} {s : Search} {seed : Seed}

theorem commonSkip_outcome (g : Grammar) (none : Term) (items : List Item) :
    Outcome IsInconsistent (fun _ => True) (commonSkip g none items) := by
  unfold commonSkip
  split
  · trivial
  · split
    · exact ⟨_, rfl⟩
    · trivial

/-- The closure of a sorted kernel comes to an end. -/
theorem closure_outcome (hg : g.IsSelfContained) {kernel : List Item}
    (hk : ∀ k ∈ kernel, k.Within g) :
    Outcome IsInconsistent (fun _ => True) (closure g (.ofGrammar g) (Item.sort kernel)) := by
  have hof : ∀ k ∈ Item.sort kernel, k.Of g := fun k hmem => (hk k (Item.mem_sort.mp hmem)).toOf
  exact (Closing.starts_of_isProper hg.isProper hof).closure hof

/-- Looking for the state of a kernel. -/
theorem Orderly.stateOf (h : s.Orderly starts) (hg : g.IsSelfContained) {kernel : List Item}
    (hk : ∀ k ∈ kernel, k.Within g) (start : Option Term) :
    Outcome IsInconsistent (fun r => r.2.Orderly (starts ++ start.toList))
      (stateOf g (.ofGrammar g) kernel start s) := by
  unfold Search.stateOf
  refine (commonSkip_outcome g .eof _).bind fun skip _ _ => ?_
  split
  next hknown =>
    cases start with
    | some start => cases hknown
    | none =>
      rw [Option.toList_none, List.append_nil]
      exact h
  next hunknown =>
    refine (closure_outcome hg hk).bind fun items _ _ => h.push fun hs => ?_
    obtain rfl : start = none := hs
    exact hunknown

/-- Adding an entry, if the symbol has rules. -/
theorem Orderly.addEntry (h : s.Orderly starts) (hg : g.IsSelfContained) (noSkip start : Term) :
    Outcome IsInconsistent
      (fun s' => ∃ more, s'.Orderly (starts ++ more) ∧ more.length ≤ 1)
      (addEntry g (.ofGrammar g) noSkip s start) := by
  unfold Search.addEntry
  dsimp only
  split
  · exact ⟨[], (List.append_nil starts).symm ▸ h, Nat.zero_le _⟩
  next hne =>
    have hrules : g.rulesFor start ≠ [] := by
      intro hnil
      rw [hnil] at hne
      exact hne rfl
    have hk := Grown.within_entryItems hg noSkip hrules
    exact (h.stateOf hg hk (some start)).bind fun r _ hr => ⟨[start], hr, Nat.le_refl _⟩

theorem Orderly.addEntries (h : s.Orderly starts) (hg : g.IsSelfContained) (noSkip : Term)
    (symbols : List Term) :
    Outcome IsInconsistent
      (fun s' => ∃ more, s'.Orderly (starts ++ more) ∧ more.length ≤ symbols.length)
      (symbols.foldlM (Search.addEntry g (.ofGrammar g) noSkip) s) := by
  induction symbols generalizing starts s with
  | nil => exact ⟨[], (List.append_nil starts).symm ▸ h, Nat.le_refl _⟩
  | cons start symbols ih =>
    rw [List.foldlM_cons]
    refine (h.addEntry hg noSkip start).bind fun s' _ hs' => ?_
    obtain ⟨first, hfirst, hlength⟩ := hs'
    refine (ih hfirst).mono fun last hlast => ?_
    obtain ⟨more, hmore, hlength'⟩ := hlast
    refine ⟨first ++ more, List.append_assoc starts first more ▸ hmore, ?_⟩
    rw [List.length_append, List.length_cons]
    omega

theorem Orderly.addAction (h : s.Orderly starts) (context : List Item) (new : Cause)
    (causes : Array Cause) : (addAction g context new causes s).2.Orderly starts := by
  unfold Search.addAction
  split
  · split
    · exact ⟨h.slots, h.entries, h.listed, h.apart⟩
    · exact h
  · exact h

/-- Reading a symbol in a state. -/
theorem Orderly.readSymbol (h : s.Orderly starts) (hg : g.IsSelfContained) {items : List Item}
    (hitems : ∀ i ∈ items, i.Within g) (context : List Item) (reading : Reading) (symbol : Term) :
    Outcome IsInconsistent (fun r => r.2.Orderly starts)
      (readSymbol g (.ofGrammar g) context (reading, s)
        (symbol, items.filter fun i => i.next? == some symbol)) := by
  have hstate := h.stateOf hg (Grown.within_kernelFor hitems symbol) none
  rw [Option.toList_none, List.append_nil] at hstate
  unfold kernelFor at hstate
  unfold Search.readSymbol
  dsimp only at hstate ⊢
  split
  next ht =>
    rw [if_pos ht] at hstate
    exact hstate.bind fun r _ hr => hr.addAction context _ reading.causes
  next ht =>
    rw [if_neg ht] at hstate
    exact hstate.bind fun r _ hr => hr

theorem Orderly.readSymbols (h : s.Orderly starts) (hg : g.IsSelfContained) {items : List Item}
    (hitems : ∀ i ∈ items, i.Within g) (context : List Item) {next : List (Term × List Item)}
    (hnext : next ⊆ byNext items) (reading : Reading) :
    Outcome IsInconsistent (fun r => r.2.Orderly starts)
      (next.foldlM (Search.readSymbol g (.ofGrammar g) context) (reading, s)) := by
  induction next generalizing s reading with
  | nil => exact h
  | cons entry next ih =>
    obtain ⟨symbol, filtered⟩ := entry
    obtain ⟨hentry, hrest⟩ := List.cons_subset.mp hnext
    obtain ⟨rfl, -⟩ := mem_byNext hentry
    rw [List.foldlM_cons]
    exact (h.readSymbol hg hitems context reading symbol).bind fun r _ hr => ih hr hrest r.1

theorem Orderly.addReductions (h : s.Orderly starts) (context : List Item) (news : List Cause)
    (reading : Reading) :
    (news.foldl (addReduction g context) (reading, s)).2.Orderly starts := by
  induction news generalizing s reading with
  | nil => exact h
  | cons new news ih => exact ih (h.addAction context new reading.causes) _

/-- Reading on from a state. -/
theorem Orderly.readState (h : s.Orderly starts) (hg : g.IsSelfContained)
    (hseed : Grown g (.ofGrammar g) noSkip seed) :
    Outcome IsInconsistent (fun r => r.2.Orderly starts) (readState g (.ofGrammar g) seed s) := by
  unfold Search.readState
  dsimp only
  refine (h.readSymbols hg (hseed.within hg).2 seed.items (List.Subset.refl _) _).bind
    fun r _ hr => ?_
  exact hr.addReductions seed.items _ r.1

/-! ## §3 Rounds -/

variable {states : Array State}

/-- Reading on from several states: from as many as there should be, or from all. -/
theorem Orderly.readOn (h : s.Orderly starts) (hg : g.IsSelfContained)
    (hp : Progress g (.ofGrammar g) noSkip states s) (count : Nat) :
    Outcome IsInconsistent
      (fun r => r.2.Orderly starts ∧
        (r.1.size = r.2.seeds.size ∨ r.1.size = states.size + count))
      (readOn g (.ofGrammar g) count states s) := by
  induction count generalizing states s with
  | zero => exact ⟨h, .inr rfl⟩
  | succ count ih =>
    unfold Search.readOn
    split
    next hend => exact ⟨h, .inl (hp.size.antisymm (Array.getElem?_eq_none_iff.mp hend))⟩
    next seed hseed =>
      refine (h.readState hg (hp.grown _ seed hseed)).bind fun r hread hr => ?_
      refine (ih hr (hp.read hseed hread).1).mono fun last hlast => ⟨hlast.1, ?_⟩
      have hsize := hlast.2
      rw [Array.size_push] at hsize
      omega

/-- The search comes to an end: all that was read on in earlier rounds is more than half
of what is read on in the next one, so that after the last one there would be more states
than there are kernels. -/
theorem Orderly.run (h : s.Orderly starts) (hg : g.IsSelfContained)
    (hp : Progress g (.ofGrammar g) noSkip states s) {rounds count : Nat}
    (hcount : count ≤ states.size + 1)
    (hrounds : starts.length + 2 ^ kernelBits g < count * 2 ^ rounds)
    (hleft : rounds = 0 → states.size < s.seeds.size) :
    Outcome IsInconsistent
      (fun r => ∃ s', Progress g (.ofGrammar g) noSkip r.1 s' ∧ s'.Orderly starts ∧
        Extends s.seeds s'.seeds ∧ r.1.size = s'.seeds.size ∧ s'.clashes = r.2)
      (run g (.ofGrammar g) rounds count states s) := by
  induction rounds generalizing count states s with
  | zero =>
    have hsize := h.size_le_kernels hg hp.grown
    have hleft := hleft rfl
    omega
  | succ rounds ih =>
    unfold Search.run
    refine (h.readOn hg hp count).bind fun r hread hr => ?_
    obtain ⟨horderly, hsize⟩ := hr
    obtain ⟨hp', hext⟩ := hp.readOn hread
    dsimp only
    split
    next hall => exact ⟨r.2, hp', horderly, hext, hall, rfl⟩
    next hmore =>
      have hsize := hsize.resolve_left hmore
      have hrounds' : starts.length + 2 ^ kernelBits g < 2 * count * 2 ^ rounds :=
        calc starts.length + 2 ^ kernelBits g < count * 2 ^ (rounds + 1) := hrounds
          _ = 2 * count * 2 ^ rounds := by ring
      refine (ih horderly hp' (by omega) hrounds'
        fun _ => Nat.lt_of_le_of_ne hp'.size hmore).mono fun last hlast => ?_
      obtain ⟨s', hlast, horderly', hext', hend⟩ := hlast
      exact ⟨s', hlast, horderly', hext.trans hext', hend⟩

end Search

/-! ## §4 Automata -/

/-- `a.Shows p symbol q`: state `p` says that reading a symbol leads to state `q`. -/
def Automaton.Shows (a : Automaton) (p : Nat) (symbol : Term) (q : Nat) : Prop :=
  .shift symbol q ∈ (a.state p).actions ∨ ⟨symbol, q⟩ ∈ (a.state p).gotos

/-- `a.Continues g p symbol q`: state `q` is the one that reading a symbol in state `p`
should lead to. It is no entry, and has the items that the closure of what was read on
has. -/
def Automaton.Continues (g : Grammar) (a : Automaton) (p : Nat) (symbol : Term) (q : Nat) : Prop :=
  q < a.size ∧ (a.state q).start = none ∧ ∃ items,
    closure g (.ofGrammar g) (Item.sort (kernelFor g (a.state p).items symbol)) = .ok items ∧
      Item.sameAll items (a.state q).items = true

/-- An automaton with all states that it should have, each of them once. Each start
symbol that has rules has an entry, with the closure of these rules. What an item reads
next leads to a state that is there: a terminal has an action, even where a conflict was
decided against reading it, and any other symbol has a goto unless the state forgets it.
All shifts and gotos lead where they should; and states that are no entries and have the
same items, whatever their origins, are the same state. -/
structure Automaton.IsCanonical (g : Grammar) (noSkip : Term) (starts : List Term) (a : Automaton) :
    Prop where
  entry : ∀ start ∈ starts, g.rulesFor start ≠ [] → ∃ p < a.size, (a.state p).start = some start ∧
    closure g (.ofGrammar g) (Item.sort (entryItems g noSkip start)) = .ok (a.state p).items
  next : ∀ p < a.size, ∀ i ∈ (a.state p).items, ∀ symbol, i.next? = some symbol →
    (∃ q, a.Continues g p symbol q) ∧
    (g.isTerminal symbol = true → symbol ∈ (a.state p).terms) ∧
    (g.isTerminal symbol = false → (a.state p).forgets g (.ofGrammar g) symbol = false →
      ∃ q, ⟨symbol, q⟩ ∈ (a.state p).gotos)
  target : ∀ p symbol q, a.Shows p symbol q → a.Continues g p symbol q
  unique : ∀ p < a.size, ∀ q < a.size, (a.state p).start = none → (a.state q).start = none →
    (∀ i ∈ (a.state p).items, ∃ j ∈ (a.state q).items, i.same j = true) →
    (∀ j ∈ (a.state q).items, ∃ i ∈ (a.state p).items, j.same i = true) → p = q

section

variable {g : Grammar} {noSkip : Term} {starts : List Term}

/-- Where a symbol leads, the state is no entry and has the items it should have. -/
theorem Leads.target {seeds : Array Seed} {p q : Nat} {symbol : Term} {source target : Seed}
    (h : Leads g seeds p symbol q) (hs : seeds[p]? = some source) (ht : seeds[q]? = some target)
    (hgrown : Grown g (.ofGrammar g) noSkip target) :
    target.start = none ∧ ∃ items,
      closure g (.ofGrammar g) (Item.sort (kernelFor g source.items symbol)) = .ok items ∧
        Item.sameAll items target.items = true := by
  have hdot := h.kernel_dot_ne_zero ht
  obtain ⟨source', target', hs', ht', hsame⟩ := h
  cases hs.symm.trans hs'
  cases ht.symm.trans ht'
  refine ⟨?_, ?_⟩
  · cases hgrown with
    | read => rfl
    | @entry start _ _ hrules _ =>
      -- The kernel of an entry has an item for which nothing has been read.
      have hne : entryItems g noSkip start ≠ [] := by simpa [entryItems] using hrules
      obtain ⟨k, hk⟩ := List.exists_mem_of_ne_nil _ hne
      exact absurd (Grown.mem_entryItems hk).2.1 (hdot k (Item.mem_sort.mpr hk))
  · obtain ⟨items, hclosed, hitems⟩ := exists_closure_of_sameAll hsame hgrown.closed
    exact ⟨items, hclosed, Item.sameAll_symm hitems⟩

/-- Where a symbol leads in what an automaton was built from, it should lead. -/
theorem Built.continues {a : Automaton} {seeds : Array Seed}
    (hb : Built g (.ofGrammar g) noSkip starts a seeds) {p q : Nat} {symbol : Term}
    (h : Leads g seeds p symbol q) (hp : p < a.size) : a.Continues g p symbol q := by
  have hq : q < a.size := hb.size ▸ h.lt_size
  obtain ⟨source, hsource, hitems, -, -⟩ := hb.exists_seed hp
  obtain ⟨target, htarget, hitems', hstart, hgrown⟩ := hb.exists_seed hq
  rw [Automaton.Continues, hitems, hitems', hstart]
  exact ⟨hq, h.target hsource htarget hgrown⟩

/-- Entries have the items that their rules begin with. -/
theorem Built.exists_entry {a : Automaton} {seeds : Array Seed}
    (hb : Built g (.ofGrammar g) noSkip starts a seeds) {start : Term} (hs : start ∈ starts)
    (hrules : g.rulesFor start ≠ []) : ∃ p < a.size, (a.state p).start = some start ∧
      closure g (.ofGrammar g) (Item.sort (entryItems g noSkip start)) = .ok (a.state p).items := by
  obtain ⟨p, hp, hstart⟩ := hb.entries start hs hrules
  obtain ⟨seed, -, hitems, hstart', hgrown⟩ := hb.exists_seed hp
  refine ⟨p, hp, hstart, ?_⟩
  rw [hstart] at hstart'
  cases hgrown with
  | entry _ hclosed =>
    cases hstart'
    exact hitems ▸ hclosed
  | read => cases hstart'

/-- The states of an automaton that was built without losing sight of one. -/
theorem Built.isCanonical (hg : g.IsSelfContained) {a : Automaton} {s : Search}
    (hb : Built g (.ofGrammar g) noSkip starts a s.seeds) {entries : List Term}
    (h : s.Orderly entries) : a.IsCanonical g noSkip starts := by
  refine ⟨fun start hs hrules => hb.exists_entry hs hrules, fun p hp i hi symbol hnext => ?_,
    fun p symbol q hshows => ?_, fun p hp q hq hps hqs hto hback => ?_⟩
  · obtain ⟨q, hleads⟩ := (hb.fits p hp).next i hi symbol hnext
    refine ⟨⟨q, hb.continues hleads hp⟩, fun hterminal => ?_, fun hterminal hkept => ?_⟩
    · exact hb.mem_terms_iff.mpr (.inl ⟨i, hi, hnext, hterminal⟩)
    · exact (hb.exists_goto_iff ⟨i, hi, hnext⟩ hterminal).mpr hkept
  · have hp : p < a.size :=
      hshows.elim Automaton.lt_size_of_mem_actions Automaton.lt_size_of_mem_gotos
    rcases hshows with hshift | hgoto
    · exact hb.continues ((hb.fits p hp).actions _ hshift).2 hp
    · exact hb.continues ((hb.fits p hp).gotos _ hgoto).2 hp
  · obtain ⟨seed, hseed, hitems, hstart, hgrown⟩ := hb.exists_seed hp
    obtain ⟨seed', hseed', hitems', hstart', hgrown'⟩ := hb.exists_seed hq
    rw [hitems, hitems'] at hto hback
    rw [hstart] at hps
    rw [hstart'] at hqs
    exact h.apart p q seed seed' hseed hseed' hps hqs
      (hgrown.sameAll_of_items hg hgrown' hps hqs hto hback)

end

/-- The automaton of a grammar is found, or else what may be skipped behind a rule is
inconsistent, or there are conflicts. It is a canonical collection. -/
theorem fullAutomaton_canonical {g : Grammar} (hg : g.IsSelfContained) (starts : List Term)
    (noSkip : Term) :
    Outcome (fun e => (∃ text, e = .grammar (.inconsistentSkip text) none) ∨
        ∃ texts, e = .conflicts texts)
      (fun a => a.IsCanonical g noSkip starts) (fullAutomaton g (.ofGrammar g) starts noSkip) := by
  unfold fullAutomaton
  dsimp only
  have hentries := (Search.orderly_start g).addEntries hg noSkip starts
  refine (hentries.error_mono fun _ => .inl).bind fun s hs hadded => ?_
  obtain ⟨entries, horderly, hlength⟩ := hadded
  rw [List.nil_append] at horderly
  have hrounds : entries.length + 2 ^ Search.kernelBits g <
      1 * 2 ^ (starts.length + Search.kernelBits g + 1) := by
    have hlt := Search.bound_lt_rounds starts.length (Search.kernelBits g)
    omega
  have hrun := horderly.run hg (Search.progress_addEntries hs) (Nat.le_refl _) hrounds nofun
  refine (hrun.error_mono fun _ => .inl).bind fun r _ hr => ?_
  obtain ⟨s', hlast, horderly', hext, hsize, hclashes⟩ := hr
  split
  next hnone =>
    have hbuilt : Built g (.ofGrammar g) noSkip starts (r.1.map (State.finish g)) s'.seeds := by
      refine hlast.built hsize (hclashes.trans (List.isEmpty_iff.mp hnone)) ?_
      intro start hstart hne
      obtain ⟨p, seed, hp, heq⟩ := (Search.addEntries_ok hs).2 start hstart hne
      exact ⟨p, seed, hext p seed hp, heq⟩
    exact hbuilt.isCanonical hg horderly'
  next => exact .inr ⟨_, rfl⟩

theorem isSelfContained_listing : listing.IsSelfContained :=
  ⟨by decide, by decide, by decide, by decide⟩

/-- The grammar of lists, which is left-recursive, has such an automaton. -/
theorem fullAutomaton_canonical_listing :
    ∃ a, fullAutomaton listing (.ofGrammar listing) [⟨2⟩] .error = .ok a ∧
      a.IsCanonical listing .error [⟨2⟩] := by
  have hcanonical := fullAutomaton_canonical isSelfContained_listing [⟨2⟩] .error
  have hok : (fullAutomaton listing (.ofGrammar listing) [⟨2⟩] .error).isOk = true := by cbv
  cases hfull : fullAutomaton listing (.ofGrammar listing) [⟨2⟩] .error with
  | error e =>
    rw [hfull] at hok
    cases hok
  | ok a =>
    rw [hfull] at hcanonical
    exact ⟨a, rfl, hcanonical⟩

end GrammarCompiler
