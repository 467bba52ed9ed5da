/-
GrammarCompiler.Proofs.Trees — runs build derivation trees.

A run turns what it has read into derivation trees, one for each state that was
entered: reading a terminal adds a leaf, and a reduction puts the last trees under
a new node (`Builds`). Every step adds exactly one node. The trees are always
trees of the grammar (`HasBuilt`), and where a rule of the start symbol is complete
they are what stands below the root (`HasBuilt.exists_tree`).

  §1 Forests — one forest beside another, and how many nodes they have.
  §2 Steps   — what steps do to trees.
  §3 Runs    — trees of the grammar.
-/
import GrammarCompiler.Grammar.Forest
import GrammarCompiler.Proofs.Prospect

namespace GrammarCompiler

/-! ## §1 Forests -/

namespace Forest

/-- One forest beside another. -/
def append : Forest → Forest → Forest
  | nil, f => f
  | terminal t after, f => terminal t (after.append f)
  | rule r body after, f => rule r body (after.append f)

/-- The number of nodes. -/
def size : Forest → Nat
  | nil => 0
  | terminal _ after => after.size + 1
  | rule _ body after => body.size + after.size + 1

section

variable (t : Term) (r : Rule) (body after f : Forest)

@[simp]
theorem nil_append : nil.append f = f :=
  rfl

@[simp]
theorem terminal_append : (terminal t after).append f = terminal t (after.append f) :=
  rfl

@[simp]
theorem rule_append : (rule r body after).append f = rule r body (after.append f) :=
  rfl

@[simp]
theorem size_nil : nil.size = 0 :=
  rfl

@[simp]
theorem size_terminal : (terminal t after).size = after.size + 1 :=
  rfl

@[simp]
theorem size_rule : (rule r body after).size = body.size + after.size + 1 :=
  rfl

end

@[simp]
theorem append_nil (f : Forest) : f.append nil = f := by
  induction f with
  | nil => rfl
  | terminal t after ih => simp [ih]
  | rule r body after _ ih => simp [ih]

theorem append_assoc (f f' f'' : Forest) :
    (f.append f').append f'' = f.append (f'.append f'') := by
  induction f with
  | nil => rfl
  | terminal t after ih => simp [ih]
  | rule r body after _ ih => simp [ih]

@[simp]
theorem symbols_append (f f' : Forest) : (f.append f').symbols = f.symbols ++ f'.symbols := by
  induction f with
  | nil => rfl
  | terminal t after ih => simp [ih]
  | rule r body after _ ih => simp [ih]

@[simp]
theorem word_append (f f' : Forest) : (f.append f').word = f.word ++ f'.word := by
  induction f with
  | nil => rfl
  | terminal t after ih => simp [ih]
  | rule r body after _ ih => simp [ih]

@[simp]
theorem size_append (f f' : Forest) : (f.append f').size = f.size + f'.size := by
  induction f with
  | nil => simp
  | terminal t after ih =>
    simp only [terminal_append, size_terminal, ih]
    omega
  | rule r body after _ ih =>
    simp only [rule_append, size_rule, ih]
    omega

theorem isValid_append {isTerminal : Term → Bool} {rules : List Rule} {f f' : Forest} :
    (f.append f').IsValid isTerminal rules ↔
      f.IsValid isTerminal rules ∧ f'.IsValid isTerminal rules := by
  induction f with
  | nil => simp
  | terminal t after ih => simp [ih, and_assoc]
  | rule r body after _ ih => simp [ih, and_assoc]

/-- A forest can be cut into two anywhere. -/
theorem exists_append (f : Forest) {n : Nat} (h : n ≤ f.symbols.length) :
    ∃ left right, f = append left right ∧ right.symbols.length = n := by
  induction f with
  | nil => exact ⟨nil, nil, rfl, (Nat.le_zero.mp h).symm⟩
  | terminal t after ih =>
    by_cases hn : n = after.symbols.length + 1
    · exact ⟨nil, terminal t after, rfl, by simp [hn]⟩
    · obtain ⟨left, right, rfl, hright⟩ := ih (by simp at h; omega)
      exact ⟨terminal t left, right, rfl, hright⟩
  | rule r body after _ ih =>
    by_cases hn : n = after.symbols.length + 1
    · exact ⟨nil, rule r body after, rfl, by simp [hn]⟩
    · obtain ⟨left, right, rfl, hright⟩ := ih (by simp at h; omega)
      exact ⟨rule r body left, right, rfl, hright⟩

/-- There is only one way to cut a forest into two of given lengths. -/
theorem append_inj {f f' right right' : Forest} (h : append f right = append f' right')
    (hlength : right.symbols.length = right'.symbols.length) : f = f' ∧ right = right' := by
  have hsymbols := congrArg (fun f => f.symbols.length) h
  simp only [symbols_append, List.length_append] at hsymbols
  induction f generalizing f' with
  | nil =>
    cases f' with
    | nil => exact ⟨rfl, h⟩
    | terminal t after => simp at hsymbols; omega
    | rule r body after => simp at hsymbols; omega
  | terminal t after ih =>
    cases f' with
    | nil => simp at hsymbols; omega
    | terminal t' after' =>
      simp only [terminal_append, terminal.injEq] at h
      obtain ⟨rfl, h⟩ := h
      obtain ⟨rfl, rfl⟩ := ih h (by simp at hsymbols; omega)
      exact ⟨rfl, rfl⟩
    | rule r body after' => simp at h
  | rule r body after _ ih =>
    cases f' with
    | nil => simp at hsymbols; omega
    | terminal t' after' => simp at h
    | rule r' body' after' =>
      simp only [rule_append, rule.injEq] at h
      obtain ⟨rfl, rfl, h⟩ := h
      obtain ⟨rfl, rfl⟩ := ih h (by simp at hsymbols; omega)
      exact ⟨rfl, rfl⟩

/-- A derivation tree of a symbol for a word. -/
structure IsTree (g : Grammar) (t : Term) (word : List Term) (f : Forest) : Prop where
  valid : f.IsValid g.isTerminal g.rules
  root : f.symbols = [t]
  leaves : f.word = word

/-- Below the root of a tree of a symbol with rules are the trees for one of its
rules. -/
theorem IsTree.exists_rule {g : Grammar} {t : Term} {word : List Term} {f : Forest}
    (h : f.IsTree g t word) (ht : g.isTerminal t = false) :
    ∃ r body, f = .rule r body .nil ∧ r ∈ g.rules ∧ r.name = t ∧ body.symbols = r.parts ∧
      body.IsValid g.isTerminal g.rules ∧ body.word = word := by
  obtain ⟨hvalid, hroot, hleaves⟩ := h
  have hnil : ∀ {f : Forest}, f.symbols = [] → f = .nil := by
    intro f hf
    cases f with
    | nil => rfl
    | terminal => simp at hf
    | rule => simp at hf
  cases f with
  | nil => simp at hroot
  | terminal u after =>
    obtain ⟨rfl, _⟩ := List.cons.inj hroot
    rw [hvalid.1] at ht
    cases ht
  | rule r body after =>
    obtain ⟨rfl, hafter⟩ := List.cons.inj hroot
    obtain ⟨hr, _, hsymbols, hbody, _⟩ := hvalid
    obtain rfl := hnil hafter
    exact ⟨r, body, rfl, hr, rfl, hsymbols, hbody, by simpa using hleaves⟩

end Forest

/-! ## §2 Steps -/

namespace Automaton

/-- `a.Builds (c, f) (d, f')`: a step from `c` to `d`, when `f` has been built so far.
Reading a terminal adds a leaf, and a reduction puts the last trees, as many as its
rule has parts, under a new node. -/
inductive Builds (a : Automaton) : Config × Forest → Config × Forest → Prop where
  | shift {s q : Nat} {t : Term} {stack : List Nat} {rest : List Term} {f : Forest}
      (listed : .shift t q ∈ (a.state s).actions) :
      Builds a (⟨s :: stack, t :: rest⟩, f) (⟨q :: s :: stack, rest⟩, f.append (.terminal t .nil))
  | reduce {s : Nat} {r : Rule} {stack next : List Nat} {rest : List Term} {left body : Forest}
      (listed : .reduce (rest.headD .eof) r ∈ (a.state s).actions)
      (reduces : a.Reduces r (s :: stack) next) (fits : body.symbols.length = r.parts.length) :
      Builds a (⟨s :: stack, rest⟩, left.append body)
        (⟨next, rest⟩, left.append (.rule r body .nil))

variable {a : Automaton} {c d : Config × Forest}

theorem Builds.step (h : a.Builds c d) : a.Step c.1 d.1 := by
  cases h with
  | shift listed => exact .shift listed
  | reduce listed reduces _ => exact .reduce listed reduces

/-- Every step adds a node. -/
theorem Builds.size_eq (h : a.Builds c d) : d.2.size = c.2.size + 1 := by
  cases h with
  | shift _ => simp
  | reduce _ _ _ =>
    simp only [Forest.size_append, Forest.size_rule, Forest.size_nil]
    omega

theorem steps_of_builds (h : Relation.ReflTransGen a.Builds c d) :
    Relation.ReflTransGen a.Step c.1 d.1 :=
  h.lift Prod.fst fun _ _ => Builds.step

/-- The trees never become fewer nodes. -/
theorem size_le_of_builds (h : Relation.ReflTransGen a.Builds c d) : c.2.size ≤ d.2.size := by
  induction h with
  | refl => exact Nat.le_refl _
  | tail _ last ih =>
    have := last.size_eq
    omega

/-- Where there is at most one step, trees are built in one way. -/
theorem Determined.builds_eq (h : a.Determined) {d' : Config × Forest} (hd : a.Builds c d)
    (hd' : a.Builds c d') : d = d' := by
  obtain ⟨c, f⟩ := c
  generalize hf : f = f₀ at hd
  cases hd with
  | shift listed =>
    subst hf
    cases hd' with
    | shift listed' =>
      cases h.action_eq listed listed' rfl
      rfl
    | reduce listed' _ _ => cases h.action_eq listed listed' rfl
  | reduce listed reduces fits =>
    cases hd' with
    | shift listed' => cases h.action_eq listed listed' rfl
    | reduce listed' reduces' fits' =>
      cases h.action_eq listed listed' rfl
      obtain ⟨rfl, rfl⟩ := Forest.append_inj hf (fits'.trans fits.symm)
      rw [h.next_eq reduces reduces']

end Automaton

/-! ## §3 Runs -/

/-- What has been built on the way to a configuration: trees of the grammar, one
for each state that was entered, with what has been read at their leaves. -/
structure HasBuilt (g : Grammar) (seeds : Array Seed) (start : Nat) (word : List Term)
    (c : Config × Forest) : Prop where
  path : Path g seeds start c.1.stack c.2.symbols.reverse
  valid : c.2.IsValid g.isTerminal g.rules
  leaves : c.2.word ++ c.1.rest = word

section

variable {g : Grammar} {table : FirstTable} {noSkip : Term} {starts : List Term} {a : Automaton}
  {seeds : Array Seed} {start : Nat} {t : Term} {word : List Term} {c d : Config × Forest}

theorem hasBuilt_start (g : Grammar) (seeds : Array Seed) (start : Nat) (word : List Term) :
    HasBuilt g seeds start word (⟨[start], word⟩, .nil) where
  path := .entry
  valid := trivial
  leaves := rfl

/-- The last trees, as many as a complete rule has parts, are trees of the
parts. -/
theorem HasBuilt.exists_body (h : HasBuilt g seeds start word c)
    (hb : Built g table noSkip starts a seeds) (hs : (a.state start).start = some t) {s : Nat}
    {stack : List Nat} (hstack : c.1.stack = s :: stack) {k : Item} (hk : k ∈ (a.state s).items)
    (hend : k.atEnd = true) :
    ∃ left body, c.2 = Forest.append left body ∧ body.symbols = k.rule.parts := by
  have hpath := hstack ▸ h.path
  have hd : k.dot = k.rule.parts.length := by simpa [Dotted.atEnd] using hend
  obtain ⟨htake, _⟩ := hb.exists_origin hs hpath hk
  rw [hd, List.take_length] at htake
  have hsymbols := reverse_eq_of_take htake
  rw [List.reverse_reverse] at hsymbols
  obtain ⟨left, body, heq, hlength⟩ := c.2.exists_append (n := k.rule.parts.length)
    (by rw [hsymbols, List.length_append]; exact Nat.le_add_left _ _)
  refine ⟨left, body, heq, ?_⟩
  rw [heq, Forest.symbols_append] at hsymbols
  exact (List.append_inj' hsymbols hlength).2

/-- Steps build trees of the grammar. -/
theorem HasBuilt.builds (h : HasBuilt g seeds start word c)
    (hb : Built g table noSkip starts a seeds) (hs : (a.state start).start = some t)
    (hstep : a.Builds c d) : HasBuilt g seeds start word d := by
  cases hstep with
  | @shift s q u stack rest f listed =>
    obtain ⟨hu, _⟩ := (hb.fits s (Automaton.lt_size_of_mem_actions listed)).actions _ listed
    refine ⟨?_, Forest.isValid_append.mpr ⟨h.valid, hu, trivial⟩, ?_⟩
    · simpa using hb.path_shift h.path listed
    · simpa using h.leaves
  | @reduce s r stack next rest left body listed reduces fits =>
    have hlt := Automaton.lt_size_of_mem_actions listed
    obtain ⟨k, hk, rfl, hend, _⟩ := (hb.fits s hlt).actions _ listed
    obtain ⟨left', body', heq, hbody⟩ := h.exists_body hb hs rfl hk hend
    obtain ⟨rfl, rfl⟩ := Forest.append_inj heq (fits.trans (congrArg List.length hbody).symm)
    obtain ⟨hleft, hvalid⟩ := Forest.isValid_append.mp h.valid
    have hpath := hb.path_reduce h.path reduces
    have hn : g.isTerminal k.rule.name = false := by
      cases reduces with
      | intro _ leads =>
        exact ((hb.fits _ (Automaton.lt_size_of_mem_gotos leads)).gotos _ leads).1
    refine ⟨?_, Forest.isValid_append.mpr ⟨hleft, hb.rule_mem hk, hn, hbody, hvalid, trivial⟩, ?_⟩
    · have hdrop : (left.append body).symbols.reverse.drop k.rule.parts.length =
          left.symbols.reverse := by
        rw [Forest.symbols_append, List.reverse_append, ← hbody, ← List.length_reverse,
          List.drop_left]
      rw [hdrop] at hpath
      simpa using hpath
    · simpa using h.leaves

/-- Every step goes on building. -/
theorem HasBuilt.exists_builds (h : HasBuilt g seeds start word c)
    (hb : Built g table noSkip starts a seeds) (hs : (a.state start).start = some t)
    {d : Config} (hstep : a.Step c.1 d) : ∃ f, a.Builds c (d, f) := by
  obtain ⟨c, f⟩ := c
  cases hstep with
  | shift listed => exact ⟨_, .shift listed⟩
  | @reduce s r stack next rest listed reduces =>
    have hlt := Automaton.lt_size_of_mem_actions listed
    obtain ⟨k, hk, rfl, hend, _⟩ := (hb.fits s hlt).actions _ listed
    obtain ⟨left, body, heq, hbody⟩ := h.exists_body hb hs rfl hk hend
    obtain rfl : f = left.append body := heq
    exact ⟨_, .reduce listed reduces (congrArg List.length hbody)⟩

/-- Every run builds trees of the grammar. -/
theorem HasBuilt.exists_of_steps (h : HasBuilt g seeds start word c)
    (hb : Built g table noSkip starts a seeds) (hs : (a.state start).start = some t)
    {d : Config} (hsteps : Relation.ReflTransGen a.Step c.1 d) :
    ∃ f, Relation.ReflTransGen a.Builds c (d, f) ∧ HasBuilt g seeds start word (d, f) := by
  induction hsteps with
  | refl => exact ⟨c.2, .refl, h⟩
  | tail _ last ih =>
    obtain ⟨f, before, hd⟩ := ih
    obtain ⟨f', hbuilds⟩ := hd.exists_builds hb hs last
    exact ⟨f', before.tail hbuilds, hd.builds hb hs hbuilds⟩

/-- Where a rule of the start symbol is complete at the end of the input, the trees
stand below the root of a tree of the whole. -/
theorem HasBuilt.exists_tree {s : Nat} {stack : List Nat} {f : Forest}
    (h : HasBuilt g seeds start word (⟨s :: stack, []⟩, f))
    (hb : Built g table noSkip starts a seeds)
    (htop : ∀ r ∈ g.rules, ∀ t ∈ r.parts, g.terms.isTop t = false)
    (hs : (a.state start).start = some t) (hacc : (a.state s).accepting g = true) :
    ∃ r, (Forest.rule r f .nil).IsTree g t word := by
  obtain ⟨r, hr, hname, hn, hparts⟩ := hb.exists_rule_of_accepting htop hs h.path hacc
  rw [List.reverse_reverse] at hparts
  refine ⟨r, ⟨hr, hname ▸ hn, hparts, h.valid, trivial⟩, by rw [Forest.symbols, hname]; rfl, ?_⟩
  simpa using h.leaves

end

end GrammarCompiler
