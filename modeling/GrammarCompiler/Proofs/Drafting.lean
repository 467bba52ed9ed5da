/-
GrammarCompiler.Proofs.Drafting — what working through declarations keeps.

Symbols are only ever created, and stay the kind of symbol that they are. Only
symbols that are no terminals get rules, and only the symbol of a rule that is
just being entered is marked for inlining. The symbol of a top rule is not
remembered by any name, so no rule refers to it.

  §1 Drafts       — what holds of every draft, and since an earlier one.
  §2 Actions      — those that keep it, and how they combine.
  §3 Tokens       — tokens, literals and specializations.
  §4 Rules        — rules for symbols and the phrases of expressions.
  §5 Declarations — all of them, in order.
-/
import GrammarCompiler.Draft.Declarations
import GrammarCompiler.Proofs.Creating
import GrammarCompiler.Proofs.Lists

namespace GrammarCompiler

/-! ## §1 Drafts -/

namespace Draft

/-- A symbol that is no terminal and is not marked for inlining. -/
structure Stays (d : Draft) (t : Term) : Prop where
  isTerminal : d.terms.isTerminal t = false
  inlined : (d.terms.info t).inlined = false

/-- A symbol that rules can refer to: it is there, and not at the top. -/
structure Inner (d : Draft) (t : Term) : Prop where
  lt_size : t.index < d.terms.size
  isTop : d.terms.isTop t = false

/-- The symbols that rules refer to, or that are remembered so that rules can refer to
them. -/
def mentioned (d : Draft) : List Term :=
  d.rules.flatMap (fun r => r.parts) ++ d.ruleInstances.map RuleInstance.term ++
    d.repeatInstances.map RepeatInstance.term ++ d.tokenInstances.map TokenInstance.term ++
    (d.externalTokens ++ d.externalSpecializers).flatMap (fun e => e.tokens.map Prod.snd) ++
    d.specializations.flatMap fun s => s.cases.map Specialization.term

theorem mem_mentioned {d : Draft} {t : Term} : t ∈ d.mentioned ↔
    (∃ r ∈ d.rules, t ∈ r.parts) ∨ (∃ i ∈ d.ruleInstances, i.term = t) ∨
      (∃ i ∈ d.repeatInstances, i.term = t) ∨ (∃ i ∈ d.tokenInstances, i.term = t) ∨
      (∃ e ∈ d.externalTokens ++ d.externalSpecializers, ∃ token ∈ e.tokens, token.2 = t) ∨
      ∃ s ∈ d.specializations, ∃ c ∈ s.cases, c.term = t := by
  simp only [mentioned, List.mem_append, List.mem_flatMap, List.mem_map, or_assoc]

/-- Phrases of symbols that rules can refer to. -/
def InnerParts (d : Draft) (phrases : List Phrase) : Prop :=
  ∀ p ∈ phrases, ∀ t ∈ p.parts, d.Inner t

theorem Inner.innerParts_single {d : Draft} {t : Term} (ht : d.Inner t) :
    d.InnerParts [.single t] := by
  simpa [InnerParts, Phrase.single] using ht

theorem InnerParts.cons_empty {d : Draft} {phrases : List Phrase} (hp : d.InnerParts phrases) :
    d.InnerParts (.empty :: phrases) := by
  simpa [InnerParts, Phrase.empty] using hp

theorem InnerParts.sequencePhrases {d : Draft} {elements : List (List Phrase)}
    {gaps : List GapMarks} {done : Phrase} {atEnd : Marks}
    (helements : ∀ phrases ∈ elements, d.InnerParts phrases) (hdone : ∀ t ∈ done.parts, d.Inner t) :
    d.InnerParts (sequencePhrases elements gaps done atEnd) := by
  induction elements generalizing gaps done atEnd with
  | nil =>
    intro p hp
    obtain rfl := List.mem_singleton.mp hp
    exact hdone
  | cons phrases elements ih =>
    intro p hp
    obtain ⟨phrase, hphrase, hp⟩ := List.mem_flatMap.mp hp
    refine ih (fun _ h => helements _ (.tail _ h)) (fun t ht => ?_) p hp
    rcases List.mem_append.mp ht with h | h
    · exact hdone t h
    · exact helements _ (.head _) phrase hphrase t h

/-- The rules of a draft, and those that can still be entered. -/
def ruled (d : Draft) :=
  (d.rules, d.scope)

/-- What holds of every draft: its table of symbols is one that creating symbols leads
to. Symbols with rules are no terminals, and those that are skipped or at the top are not
marked for inlining either. Rules do not refer to symbols at the top, and what is skipped
in them is no terminal. They are numbered in order. -/
structure Sound (d : Draft) : Prop where
  made : d.terms.IsMade
  isTerminal_name : ∀ r ∈ d.rules, d.terms.isTerminal r.name = false
  stays : ∀ t ∈ d.skipTerms ++ d.terms.tops, d.Stays t
  inner : ∀ t ∈ Term.eof :: d.mentioned, d.Inner t
  ids : d.rules.map Rule.id = List.range d.rules.length
  skip : ∀ r ∈ d.rules, d.terms.isTerminal r.skip = false
  scope : ∀ s ∈ d.scope, d.terms.isTerminal s.skip = false

/-- What holds of a draft and an earlier one: the symbols of the earlier one
are there, of the same kind. -/
structure Since (base d : Draft) : Prop where
  size_le : base.terms.size ≤ d.terms.size
  isTerminal_eq : ∀ t : Term, t.index < base.terms.size →
    d.terms.isTerminal t = base.terms.isTerminal t
  isTop_eq : ∀ t : Term, t.index < base.terms.size → d.terms.isTop t = base.terms.isTop t
  inlined_eq : ∀ t : Term, t.index < base.terms.size →
    (d.terms.info t).inlined = (base.terms.info t).inlined
  sound : d.Sound

namespace Since

variable {base d : Draft}

theorem refl (hd : d.Sound) : d.Since d :=
  ⟨Nat.le_refl _, fun _ _ => rfl, fun _ _ => rfl, fun _ _ => rfl, hd⟩

theorem trans {d' : Draft} (h : base.Since d) (h' : d.Since d') : base.Since d' where
  size_le := Nat.le_trans h.size_le h'.size_le
  isTerminal_eq t ht :=
    (h'.isTerminal_eq t (Nat.lt_of_lt_of_le ht h.size_le)).trans (h.isTerminal_eq t ht)
  isTop_eq t ht := (h'.isTop_eq t (Nat.lt_of_lt_of_le ht h.size_le)).trans (h.isTop_eq t ht)
  inlined_eq t ht :=
    (h'.inlined_eq t (Nat.lt_of_lt_of_le ht h.size_le)).trans (h.inlined_eq t ht)
  sound := h'.sound

theorem isTerminal_eq_false (h : base.Since d) {t : Term}
    (ht : base.terms.isTerminal t = false) : d.terms.isTerminal t = false := by
  rw [h.isTerminal_eq t (TermTable.lt_size_of_isTerminal ht), ht]

theorem stays (h : base.Since d) {t : Term} (ht : base.Stays t) : d.Stays t where
  isTerminal := h.isTerminal_eq_false ht.isTerminal
  inlined := by
    rw [h.inlined_eq t (TermTable.lt_size_of_isTerminal ht.isTerminal), ht.inlined]

theorem inner (h : base.Since d) {t : Term} (ht : base.Inner t) : d.Inner t where
  lt_size := Nat.lt_of_lt_of_le ht.lt_size h.size_le
  isTop := (h.isTop_eq t ht.lt_size).trans ht.isTop

theorem innerParts (h : base.Since d) {phrases : List Phrase} (hp : base.InnerParts phrases) :
    d.InnerParts phrases :=
  fun p hmem t ht => h.inner (hp p hmem t ht)

/-- Changes to anything but the symbols, their rules and what is skipped, where only
symbols are remembered that rules can refer to. -/
theorem remember (hb : base.Sound) (hterms : d.terms = base.terms) (hruled : d.ruled = base.ruled)
    (hskips : d.skipTerms = base.skipTerms)
    (hmentioned : ∀ t ∈ d.mentioned, t ∈ base.mentioned ∨ base.Inner t) : base.Since d where
  size_le := Nat.le_of_eq (congrArg TermTable.size hterms.symm)
  isTerminal_eq _ _ := by rw [hterms]
  isTop_eq _ _ := by rw [hterms]
  inlined_eq _ _ := by rw [hterms]
  sound := by
    obtain ⟨hrules, hscope⟩ := Prod.mk.inj hruled
    refine ⟨hterms ▸ hb.made, fun r hr => ?_, fun t ht => ?_, fun t ht => ?_, hrules ▸ hb.ids,
      fun r hr => ?_, fun s hs => ?_⟩
    · rw [hterms]
      exact hb.isTerminal_name r (hrules ▸ hr)
    · rw [hskips, hterms] at ht
      have hstays := hb.stays t ht
      exact ⟨hterms ▸ hstays.isTerminal, hterms ▸ hstays.inlined⟩
    · have hinner : base.Inner t := by
        rcases List.mem_cons.mp ht with rfl | ht
        · exact hb.inner _ (.head _)
        · exact (hmentioned t ht).elim (fun h => hb.inner t (.tail _ h)) id
      exact ⟨hterms ▸ hinner.lt_size, hterms ▸ hinner.isTop⟩
    · exact hterms ▸ hb.skip r (hrules ▸ hr)
    · exact hterms ▸ hb.scope s (hscope ▸ hs)

/-- Changes to anything but the symbols, their rules, what is skipped and what is
remembered of symbols. -/
theorem of_eq (hb : base.Sound) (hterms : d.terms = base.terms) (hruled : d.ruled = base.ruled)
    (hskips : d.skipTerms = base.skipTerms) (hmentioned : d.mentioned = base.mentioned) :
    base.Since d :=
  .remember hb hterms hruled hskips fun _ ht => .inl (hmentioned ▸ ht)

theorem isTerminal_add (d : Draft) (info : TermInfo) {t : Term}
    (ht : t.index < d.terms.size) :
    (d.terms.add info).2.isTerminal t = d.terms.isTerminal t := by
  rw [TermTable.isTerminal, TermTable.info_add_of_lt info ht, TermTable.isTerminal]

theorem isTop_add (d : Draft) (info : TermInfo) {t : Term} (ht : t.index < d.terms.size) :
    (d.terms.add info).2.isTop t = d.terms.isTop t := by
  rw [TermTable.isTop, TermTable.info_add_of_lt info ht, TermTable.isTop]

/-- A new symbol that is not marked for inlining. -/
theorem add (hb : d.Sound) {info : TermInfo} (hinfo : info.inlined = false) :
    d.Since { d with terms := (d.terms.add info).2 } where
  size_le := by
    rw [TermTable.size_add]
    exact Nat.le_succ _
  isTerminal_eq _ ht := isTerminal_add d info ht
  isTop_eq _ ht := isTop_add d info ht
  inlined_eq t ht := by rw [TermTable.info_add_of_lt info ht]
  sound := by
    have hkept {t : Term} (ht : d.terms.isTerminal t = false) :
        (d.terms.add info).2.isTerminal t = false :=
      (isTerminal_add d info (TermTable.lt_size_of_isTerminal ht)).trans ht
    refine ⟨hb.made.add info, fun r hr => hkept (hb.isTerminal_name r hr), fun t ht => ?_,
      fun t ht => ?_, hb.ids, fun r hr => hkept (hb.skip r hr), fun s hs => hkept (hb.scope s hs)⟩
    · have hcases : t ∈ d.skipTerms ++ d.terms.tops ∨ info.kind = .top ∧ t = ⟨d.terms.size⟩ := by
        simp only [TermTable.add, beq_iff_eq] at ht
        split at ht
        next htop => simpa [← or_assoc, htop] using ht
        next => exact .inl ht
      rcases hcases with h | ⟨htop, rfl⟩
      · have hstays := hb.stays t h
        have hlt := TermTable.lt_size_of_isTerminal hstays.isTerminal
        refine ⟨(isTerminal_add d info hlt).trans hstays.isTerminal, ?_⟩
        rw [TermTable.info_add_of_lt info hlt, hstays.inlined]
      · refine ⟨?_, ?_⟩
        · rw [TermTable.isTerminal, TermTable.info_add_self, htop]
          rfl
        · rw [TermTable.info_add_self, hinfo]
    · obtain ⟨hlt, htop⟩ := hb.inner t ht
      refine ⟨?_, (isTop_add d info hlt).trans htop⟩
      rw [TermTable.size_add]
      exact Nat.lt_succ_of_lt hlt

/-- Tokens that are declared together can be referred to. -/
theorem declare (h : base.Since d) {tokens : List (String × Term)}
    (htokens : ∀ token ∈ tokens, base.Inner token.2) :
    d.Since { d with externalTokens := d.externalTokens ++ [⟨tokens⟩] } ∧
      d.Since { d with externalSpecializers := d.externalSpecializers ++ [⟨tokens⟩] } := by
  have hinner : ∀ token ∈ tokens, d.Inner token.2 := fun token ht => h.inner (htokens token ht)
  constructor <;>
  · refine .remember h.sound rfl rfl rfl fun u hu => ?_
    rw [mem_mentioned] at hu ⊢
    grind

/-- A change to a symbol that was not there at first, which is neither skipped
nor at the top. -/
theorem mark (h : base.Since d) {t : Term} (ht : base.terms.size ≤ t.index)
    (hfresh : t ∉ d.skipTerms ++ d.terms.tops) {f : TermInfo → TermInfo}
    (hkind : ∀ i, (f i).kind = i.kind) (hmade : (d.terms.modify t f).IsMade) :
    base.Since { d with terms := d.terms.modify t f } := by
  have hterminal : ∀ other, (d.terms.modify t f).isTerminal other = d.terms.isTerminal other :=
    TermTable.isTerminal_modify hkind
  have htop : ∀ other, (d.terms.modify t f).isTop other = d.terms.isTop other :=
    TermTable.isTop_modify hkind
  refine ⟨?_, fun other ho => ?_, fun other ho => ?_, fun other ho => ?_,
    ⟨hmade, fun r hr => ?_, ?_, fun other ho => ?_, h.sound.ids,
      fun r hr => (hterminal r.skip).trans (h.sound.skip r hr),
      fun s hs => (hterminal s.skip).trans (h.sound.scope s hs)⟩⟩
  · rw [TermTable.size_modify]
    exact h.size_le
  · exact (hterminal other).trans (h.isTerminal_eq other ho)
  · exact (htop other).trans (h.isTop_eq other ho)
  · have hne : other ≠ t := by
      rintro rfl
      omega
    rw [TermTable.info_modify_of_ne hne]
    exact h.inlined_eq other ho
  · exact (hterminal r.name).trans (h.sound.isTerminal_name r hr)
  · intro other ho
    have hstays := h.sound.stays other ho
    refine ⟨(hterminal other).trans hstays.isTerminal, ?_⟩
    have hne : other ≠ t := by
      rintro rfl
      exact hfresh ho
    rw [TermTable.info_modify_of_ne hne, hstays.inlined]
  · obtain ⟨hlt, hother⟩ := h.sound.inner other ho
    exact ⟨(TermTable.size_modify d.terms t f).symm ▸ hlt, (htop other).trans hother⟩

/-- A change to a symbol that leaves its kind and its mark alone. -/
theorem modify (hb : d.Sound) {t : Term} {f : TermInfo → TermInfo}
    (hkind : ∀ i, (f i).kind = i.kind) (hinlined : ∀ i, (f i).inlined = i.inlined)
    (hmade : (d.terms.modify t f).IsMade) : d.Since { d with terms := d.terms.modify t f } := by
  have hterminal : ∀ other, (d.terms.modify t f).isTerminal other = d.terms.isTerminal other :=
    TermTable.isTerminal_modify hkind
  have htop : ∀ other, (d.terms.modify t f).isTop other = d.terms.isTop other :=
    TermTable.isTop_modify hkind
  have hmark : ∀ other, ((d.terms.modify t f).info other).inlined =
      (d.terms.info other).inlined :=
    TermTable.apply_info_modify hinlined
  refine ⟨Nat.le_of_eq (TermTable.size_modify ..).symm, fun other _ => hterminal other,
    fun other _ => htop other, fun other _ => hmark other,
    ⟨hmade, fun r hr => ?_, fun other ho => ?_, fun other ho => ?_, hb.ids,
      fun r hr => (hterminal r.skip).trans (hb.skip r hr),
      fun s hs => (hterminal s.skip).trans (hb.scope s hs)⟩⟩
  · exact (hterminal r.name).trans (hb.isTerminal_name r hr)
  · have hstays := hb.stays other ho
    exact ⟨(hterminal other).trans hstays.isTerminal, (hmark other).trans hstays.inlined⟩
  · obtain ⟨hlt, hother⟩ := hb.inner other ho
    exact ⟨(TermTable.size_modify d.terms t f).symm ▸ hlt, (htop other).trans hother⟩

/-- New rules for a symbol that is no terminal. -/
theorem addRules (hb : d.Sound) {t : Term} (ht : d.terms.isTerminal t = false) {rules : List Rule}
    (hrules : ∀ r ∈ rules, r.name = t) (hparts : ∀ r ∈ rules, ∀ u ∈ r.parts, d.Inner u)
    (hids : rules.map Rule.id = List.range' d.rules.length rules.length)
    (hskip : ∀ r ∈ rules, d.terms.isTerminal r.skip = false) :
    d.Since { d with rules := d.rules ++ rules } where
  size_le := Nat.le_refl _
  isTerminal_eq _ _ := rfl
  isTop_eq _ _ := rfl
  inlined_eq _ _ := rfl
  sound := by
    refine ⟨hb.made, fun r hr => ?_,
      fun t ht => ⟨(hb.stays t ht).isTerminal, (hb.stays t ht).inlined⟩, fun u hu => ?_, ?_,
      fun r hr => (List.mem_append.mp hr).elim (hb.skip r) (hskip r), hb.scope⟩
    · rcases List.mem_append.mp hr with h | h
      · exact hb.isTerminal_name r h
      · rw [hrules r h]
        exact ht
    · have hinner : d.Inner u := by
        rcases List.mem_cons.mp hu with rfl | hu
        · exact hb.inner _ (.head _)
        rcases mem_mentioned.mp hu with ⟨r, hr, hpart⟩ | hother
        · rcases List.mem_append.mp hr with h | h
          · exact hb.inner u (.tail _ (mem_mentioned.mpr (.inl ⟨r, h, hpart⟩)))
          · exact hparts r h u hpart
        · exact hb.inner u (.tail _ (mem_mentioned.mpr (.inr hother)))
      exact ⟨hinner.lt_size, hinner.isTop⟩
    · rw [List.map_append, List.length_append, List.range_eq_range', ← List.range'_append_1,
        Nat.zero_add, hb.ids, hids, List.range_eq_range']

/-- Other things to skip, which stay, and rules that can be entered where they are
skipped. -/
theorem skip (hb : d.Sound) {skips : List Term} {scope : List ScopedRule}
    (hskips : ∀ t ∈ skips, t ∈ d.skipTerms ∨ d.Stays t)
    (hscope : ∀ s ∈ scope, d.terms.isTerminal s.skip = false) :
    d.Since { d with skipTerms := skips, scope } where
  size_le := Nat.le_refl _
  isTerminal_eq _ _ := rfl
  isTop_eq _ _ := rfl
  inlined_eq _ _ := rfl
  sound := by
    refine ⟨hb.made, hb.isTerminal_name, fun t ht => ?_, fun t ht => ?_, hb.ids, hb.skip, hscope⟩
    · have hstays : d.Stays t := by
        rcases List.mem_append.mp ht with h | h
        · exact (hskips t h).elim (fun h => hb.stays t (List.mem_append_left _ h)) id
        · exact hb.stays t (List.mem_append_right _ h)
      exact ⟨hstays.isTerminal, hstays.inlined⟩
    · have hinner := hb.inner t ht
      exact ⟨hinner.lt_size, hinner.isTop⟩

end Since

end Draft

/-! ## §2 Actions -/

namespace Build

variable {α β : Type} {base : Draft}

theorem exists_ok_of_bind {m : Build α} {f : α → Build β} {ctx : Declared} {d d' : Draft}
    {b : β} (h : (m >>= f) ctx d = .ok b d') :
    ∃ a d₁, m ctx d = .ok a d₁ ∧ f a ctx d₁ = .ok b d' := by
  have h : EStateM.bind (m ctx) (fun a => f a ctx) d = .ok b d' := h
  rw [EStateM.bind] at h
  cases hm : m ctx d with
  | ok a d₁ =>
    rw [hm] at h
    exact ⟨a, d₁, rfl, h⟩
  | error e d₁ =>
    rw [hm] at h
    cases h

/-- An action that leads from drafts since `base` to drafts since `base`, and to
results for which `Q` holds. -/
def Leads (base : Draft) (m : Build α) (Q : Draft → α → Prop) : Prop :=
  ∀ ctx d a d', base.Since d → m ctx d = .ok a d' → base.Since d' ∧ Q d' a

/-- An action that leads from drafts since `base` to drafts since `base`. -/
def Keeps (base : Draft) (m : Build α) : Prop :=
  ∀ ctx d a d', base.Since d → m ctx d = .ok a d' → base.Since d'

theorem Leads.keeps {m : Build α} {Q : Draft → α → Prop} (h : Leads base m Q) : Keeps base m :=
  fun ctx d a d' hd hm => (h ctx d a d' hd hm).1

/-- What comes after an action may build on the draft that the action leads
to. -/
theorem Leads.bind {m : Build α} {f : α → Build β} {Q : Draft → α → Prop}
    {R : Draft → β → Prop} (hm : Leads base m Q)
    (hf : ∀ base' a, base.Since base' → Q base' a → Leads base' (f a) R) :
    Leads base (m >>= f) R := by
  intro ctx d b d' hd h
  obtain ⟨a, d₁, h₁, h₂⟩ := exists_ok_of_bind h
  obtain ⟨hd₁, hq⟩ := hm ctx d a d₁ hd h₁
  obtain ⟨hd', hr⟩ := hf d₁ a hd₁ hq ctx d₁ b d' (.refl hd₁.sound) h₂
  exact ⟨hd₁.trans hd', hr⟩

theorem leads_pure {a : α} {Q : Draft → α → Prop} (hq : ∀ d, base.Since d → Q d a) :
    Leads base (pure a) Q := by
  intro _ d _ _ hd h
  cases h
  exact ⟨hd, hq d hd⟩

theorem leads_get : Leads base get fun d found => found = d := by
  intro _ _ _ _ hd h
  cases h
  exact ⟨hd, rfl⟩

theorem leads_raise (fault : GrammarFault) (start : Option Nat) {Q : Draft → α → Prop} :
    Leads base (Build.raise fault start) Q := by
  intro _ _ _ _ _ h
  cases h

theorem Leads.then {m : Build α} {f : α → Build β} {Q : Draft → α → Prop}
    (hm : Leads base m Q)
    (hf : ∀ base' a, base.Since base' → Q base' a → Keeps base' (f a)) :
    Keeps base (m >>= f) := by
  intro ctx d b d' hd h
  obtain ⟨a, d₁, h₁, h₂⟩ := exists_ok_of_bind h
  obtain ⟨hd₁, hq⟩ := hm ctx d a d₁ hd h₁
  exact hd₁.trans (hf d₁ a hd₁ hq ctx d₁ b d' (.refl hd₁.sound) h₂)

/-- What comes after the draft has been looked at. -/
theorem leads_get_bind {f : Draft → Build β} {R : Draft → β → Prop}
    (hf : ∀ d, base.Since d → Leads d (f d) R) : Leads base (get >>= f) R := by
  refine leads_get.bind fun d found hd hfound => ?_
  subst hfound
  exact hf found hd

/-- What holds of all results, where it stays true. -/
theorem Leads.mapM {l : List α} {f : α → Build β} {Q : Draft → β → Prop}
    (hmono : ∀ d d' b, Draft.Since d d' → Q d b → Q d' b)
    (hf : ∀ d a, d = base ∨ base.Since d → Leads d (f a) Q) :
    Leads base (l.mapM f) fun d bs => ∀ b ∈ bs, Q d b := by
  induction l generalizing base with
  | nil => exact leads_pure fun _ _ _ h => nomatch h
  | cons a l ih =>
    rw [List.mapM_cons]
    refine (hf base a (.inl rfl)).bind fun base₁ b hd₁ hb => ?_
    have hf₁ (d : Draft) (a : α) (hd : d = base₁ ∨ base₁.Since d) : Leads d (f a) Q :=
      hf d a (.inr (hd.elim (fun heq => heq ▸ hd₁) hd₁.trans))
    refine (ih hf₁).bind fun base₂ bs hd₂ hbs => leads_pure fun d hd₃ c hc => ?_
    rcases List.mem_cons.mp hc with rfl | hc
    · exact hmono _ _ _ (hd₂.trans hd₃) hb
    · exact hmono _ _ _ hd₃ (hbs c hc)

/-- What each step keeps, where it stays true. -/
theorem Leads.foldlM {l : List α} {f : β → α → Build β} {Q : Draft → β → Prop}
    (hmono : ∀ d d' b, Draft.Since d d' → Q d b → Q d' b)
    (hf : ∀ base b a, Q base b → Leads base (f b a) Q) {b : β} (hb : Q base b) :
    Leads base (l.foldlM f b) Q := by
  induction l generalizing base b with
  | nil => exact leads_pure fun d hd => hmono base d b hd hb
  | cons a l ih =>
    rw [List.foldlM_cons]
    exact (hf base b a hb).bind fun _ _ _ hc => ih hc

/-- A value that one of two actions makes. -/
theorem Leads.either {c : Prop} {_ : Decidable c} {m m' : Build α} {f : α → Build β}
    {Q : Draft → α → Prop} (hm : Leads base m Q) (hm' : Leads base m' Q)
    (hf : ∀ base' a, base.Since base' → Q base' a → Keeps base' (f a)) :
    Keeps base (if c then m >>= f else m' >>= f) := by
  split
  · exact hm.then hf
  · exact hm'.then hf

namespace Keeps

theorem pure (a : α) : Keeps base (Pure.pure a : Build α) := by
  intro _ _ _ _ hd h
  cases h
  exact hd

theorem bind {m : Build α} {f : α → Build β} (hm : Keeps base m)
    (hf : ∀ a, Keeps base (f a)) : Keeps base (m >>= f) := by
  intro ctx d b d' hd h
  obtain ⟨a, d₁, h₁, h₂⟩ := exists_ok_of_bind h
  exact hf a ctx d₁ b d' (hm ctx d a d₁ hd h₁) h₂

theorem ite {c : Prop} {_ : Decidable c} {m m' : Build α} (h : Keeps base m) (h' : Keeps base m') :
    Keeps base (if c then m else m') := by
  split
  · exact h
  · exact h'

theorem leads {m : Build α} {f : α → Build β} {Q : Draft → β → Prop} (hm : Keeps base m)
    (hf : ∀ a, Leads base (f a) Q) : Leads base (m >>= f) Q := by
  intro ctx d b d' hd h
  obtain ⟨a, d₁, h₁, h₂⟩ := exists_ok_of_bind h
  exact hf a ctx d₁ b d' (hm ctx d a d₁ hd h₁) h₂

/-- A step that is only taken under a condition. -/
theorem when {c : Prop} {_ : Decidable c} {m : Build PUnit} {f : PUnit → Build α}
    (hm : Keeps base m) (hf : ∀ u, Keeps base (f u)) :
    Keeps base (if c then m >>= f else f ⟨⟩) :=
  .ite (hm.bind hf) (hf ⟨⟩)

theorem get : Keeps base (MonadState.get : Build Draft) := by
  intro _ _ _ _ hd h
  cases h
  exact hd

theorem read : Keeps base (MonadReader.read : Build Declared) := by
  intro _ _ _ _ hd h
  cases h
  exact hd

theorem of_modify {f : Draft → Draft} (hf : ∀ d : Draft, base.Since d → d.Since (f d)) :
    Keeps base (modify f : Build PUnit) := by
  intro _ d _ _ hd h
  cases h
  exact hd.trans (hf d hd)

/-- Changes to anything but the symbols, their rules, what is skipped and what is
remembered of symbols. -/
theorem of_eq {f : Draft → Draft} (hf : ∀ d, (f d).terms = d.terms ∧ (f d).ruled = d.ruled ∧
    (f d).skipTerms = d.skipTerms ∧ (f d).mentioned = d.mentioned) :
    Keeps base (modify f : Build PUnit) := by
  refine of_modify fun d hd => ?_
  obtain ⟨hterms, hruled, hskips, hmentioned⟩ := hf d
  exact .of_eq hd.sound hterms hruled hskips hmentioned

/-- Remembering a symbol that rules can refer to. -/
theorem remember {f : Draft → Draft} {t : Term} (ht : base.Inner t)
    (hf : ∀ d, (f d).terms = d.terms ∧ (f d).ruled = d.ruled ∧ (f d).skipTerms = d.skipTerms)
    (hmentioned : ∀ d, ∀ u ∈ (f d).mentioned, u ∈ d.mentioned ∨ u = t) :
    Keeps base (modify f : Build PUnit) := by
  refine of_modify fun d hd => ?_
  obtain ⟨hterms, hruled, hskips⟩ := hf d
  refine .remember hd.sound hterms hruled hskips fun u hu => ?_
  rcases hmentioned d u hu with h | rfl
  · exact .inl h
  · exact .inr (hd.inner ht)

theorem raise (fault : GrammarFault) (start : Option Nat) :
    Keeps base (Build.raise fault start : Build α) := by
  intro _ _ _ _ _ h
  cases h

theorem check (result : Except FaultAt α) : Keeps base (Build.check result) := by
  cases result with
  | ok a => exact .pure a
  | error e => exact .raise e.1 e.2

theorem forM {l : List α} {f : α → Build PUnit} (hf : ∀ a ∈ l, Keeps base (f a)) :
    Keeps base (l.forM f) := by
  induction l with
  | nil => exact .pure _
  | cons a l ih =>
    exact (hf a List.mem_cons_self).bind fun _ => ih fun b hb => hf b (List.mem_cons_of_mem a hb)

theorem forIn {l : List α} {b : β} {f : α → β → Build (ForInStep β)}
    (hf : ∀ a b, Keeps base (f a b)) : Keeps base (ForIn.forIn l b f) := by
  induction l generalizing b with
  | nil => exact .pure b
  | cons a l ih =>
    rw [List.forIn_cons]
    refine (hf a b).bind fun step => ?_
    cases step with
    | done b => exact .pure b
    | yield b => exact ih

theorem mapM {l : List α} {f : α → Build β} (hf : ∀ a, Keeps base (f a)) :
    Keeps base (l.mapM f) := by
  induction l with
  | nil => exact .pure _
  | cons a l ih =>
    rw [List.mapM_cons]
    exact (hf a).bind fun b => ih.bind fun bs => .pure (b :: bs)

theorem foldlM {l : List α} {f : β → α → Build β} (hf : ∀ b a, Keeps base (f b a)) (b : β) :
    Keeps base (l.foldlM f b) := by
  induction l generalizing b with
  | nil => exact .pure b
  | cons a l ih =>
    rw [List.foldlM_cons]
    exact (hf b a).bind fun c => ih c

end Keeps

/-- A step that is only taken under a condition. -/
theorem Leads.when {c : Prop} {_ : Decidable c} {m : Build PUnit} {f : PUnit → Build α}
    {Q : Draft → α → Prop} (hm : Keeps base m) (hf : ∀ u, Leads base (f u) Q) :
    Leads base (if c then m >>= f else f ⟨⟩) Q := by
  split
  · exact hm.leads hf
  · exact hf ⟨⟩

/-- A new symbol that is not marked for inlining. -/
theorem leads_newTerm {info : TermInfo} (hinfo : info.inlined = false) :
    Leads base (newTerm info) fun d t =>
      d.terms.isTerminal t = (info.kind == .terminal) ∧ (d.terms.info t).inlined = false ∧
        (info.kind ≠ .top → d.Inner t) := by
  intro _ d _ _ hd h
  cases h
  have hself := TermTable.info_add_self d.terms { info with name := d.terms.freshName info.name }
  refine ⟨hd.trans (.add hd.sound hinfo), congrArg (fun i => i.kind == .terminal) hself,
    (congrArg TermInfo.inlined hself).trans hinfo, fun hkind => ⟨?_, ?_⟩⟩
  · exact (TermTable.size_add ..).symm ▸ Nat.lt_succ_self d.terms.size
  · exact (congrArg (fun i => i.kind == .top) hself).trans (beq_eq_false_iff_ne.mpr hkind)

theorem keeps_modifyTerm {t : Term} {f : TermInfo → TermInfo}
    (hkind : ∀ i, (f i).kind = i.kind) (hinlined : ∀ i, (f i).inlined = i.inlined)
    (hmade : ∀ terms : TermTable, terms.IsMade → (terms.modify t f).IsMade) :
    Keeps base (modifyTerm t f) :=
  .of_modify fun d hd => .modify hd.sound hkind hinlined (hmade d.terms hd.sound.made)

/-- Rules that are created one after another are numbered in order. -/
theorem map_id_zipIdx (next : Nat) (phrases : List Phrase) (name skip : Term) :
    (phrases.zipIdx.map fun p =>
      ({ toPhrase := p.1, id := next + p.2, name, skip } : Rule)).map Rule.id =
      List.range' next phrases.length := by
  have hids : (phrases.zipIdx.map Prod.snd).map (next + ·) = List.range' next phrases.length := by
    rw [List.zipIdx_map_snd, List.map_add_range', Nat.add_zero]
  rw [← hids, List.map_map, List.map_map]
  rfl

theorem keeps_addRules {name skip : Term} {phrases : List Phrase}
    (hname : base.terms.isTerminal name = false) (hskip : base.terms.isTerminal skip = false)
    (hparts : base.InnerParts phrases) : Keeps base (addRules name skip phrases) := by
  refine .of_modify fun d hd => .addRules hd.sound (hd.isTerminal_eq_false hname)
    (fun r hr => ?_) (fun r hr t ht => ?_) ?_ fun r hr => ?_
  · obtain ⟨_, _, rfl⟩ := List.mem_map.mp hr
    rfl
  · obtain ⟨⟨p, i⟩, hp, rfl⟩ := List.mem_map.mp hr
    exact hd.inner (hparts p (List.fst_mem_of_mem_zipIdx hp) t ht)
  · rw [List.length_map, List.length_zipIdx]
    exact map_id_zipIdx d.rules.length phrases name skip
  · obtain ⟨_, _, rfl⟩ := List.mem_map.mp hr
    exact hd.isTerminal_eq_false hskip

theorem keeps_warn (warning : Warning) (start : Option Nat) : Keeps base (warn warning start) :=
  Keeps.read.bind fun _ => .of_eq fun _ => ⟨rfl, rfl, rfl, rfl⟩

theorem keeps_markUsed (name : String) : Keeps base (markUsed name) :=
  .of_eq fun _ => ⟨rfl, rfl, rfl, rfl⟩

theorem keeps_nameTerm (name : String) (t : Term) : Keeps base (nameTerm name t) :=
  .of_eq fun _ => ⟨rfl, rfl, rfl, rfl⟩

theorem keeps_setOrigin (t : Term) (origin : TokenOrigin) : Keeps base (setOrigin t origin) :=
  .of_eq fun _ => ⟨rfl, rfl, rfl, rfl⟩

theorem keeps_declareName (id : Ident) : Keeps base (declareName id) := by
  refine Keeps.get.bind fun d => .ite (.bind (.raise _ _) fun _ => ?_) ?_ <;>
    exact .of_eq fun _ => ⟨rfl, rfl, rfl, rfl⟩

/-! ## §3 Tokens -/

theorem keeps_restrictToDialect (dialect : Option Nat) (t : Term) :
    Keeps base (restrictToDialect dialect t) := by
  cases dialect with
  | none => exact .pure ()
  | some id => exact .of_eq fun _ => ⟨rfl, rfl, rfl, rfl⟩

theorem keeps_onTokens (action : TokenBuild.Action Unit) : Keeps base (onTokens action) := by
  refine Keeps.get.bind fun _ => (Keeps.check _).bind fun _ => .bind ?_ fun _ => ?_
  · exact .of_eq fun _ => ⟨rfl, rfl, rfl, rfl⟩
  · exact .forM fun name _ => keeps_markUsed name

theorem keeps_tokenEnd (t : Term) : Keeps base (tokenEnd t) := by
  intro _ _ _ _ hd h
  cases h
  exact hd.trans (.of_eq hd.sound rfl rfl rfl rfl)

theorem keeps_rememberToken (key : TokenKey) {t : Term} (ht : base.Inner t) :
    Keeps base (rememberToken key t) := by
  refine .remember ht (fun _ => ⟨rfl, rfl, rfl⟩) fun d u hu => ?_
  rw [Draft.mem_mentioned] at hu ⊢
  grind

theorem leads_newTerminal (name : String) (info : NodeInfo) :
    Leads base (newTerminal name info) fun d t => d.Inner t :=
  (leads_newTerm rfl).bind fun _ _ _ ht => (keeps_restrictToDialect _ _).leads fun _ =>
    leads_pure fun _ hd => hd.inner (ht.2.2 nofun)

/-- A symbol is kept. -/
theorem keeps_preserve (t : Term) :
    Keeps base (modifyTerm t fun i => { i with preserved := true }) :=
  keeps_modifyTerm (fun _ => rfl) (fun _ => rfl) fun _ hmade => hmade.preserve t

theorem keeps_exportNode (info : NodeInfo) (t : Term) : Keeps base (exportNode info t) := by
  rw [exportNode]
  split
  · exact .pure ()
  · exact .ite ((keeps_preserve t).bind fun _ => keeps_nameTerm _ _) (keeps_nameTerm _ _)

theorem keeps_tokenFuel (e : Expr) : Keeps base (tokenFuel e) :=
  Keeps.read.bind fun _ => .pure _

end Build

namespace Draft.Sound

variable {d : Draft} {t : Term}

theorem inner_of_tokenFor? (hd : d.Sound) {key : TokenKey} (h : d.tokenFor? key = some t) :
    d.Inner t := by
  obtain ⟨i, hi, rfl⟩ := Option.map_eq_some_iff.mp h
  refine hd.inner _ (.tail _ (mem_mentioned.mpr ?_))
  exact .inr (.inr (.inr (.inl ⟨i, List.mem_of_find?_eq_some hi, rfl⟩)))

theorem inner_of_externalToken? (hd : d.Sound) {name : String}
    (h : Build.externalToken? d name = some t) : d.Inner t := by
  obtain ⟨e, he, hlookup⟩ := List.exists_of_findSome?_eq_some h
  obtain ⟨before, after, hsplit, _⟩ := List.lookup_eq_some_iff.mp hlookup
  have htoken : (name, t) ∈ e.tokens := hsplit ▸ List.mem_append_right before (.head after)
  refine hd.inner _ (.tail _ (mem_mentioned.mpr ?_))
  exact .inr (.inr (.inr (.inr (.inl ⟨e, he, _, htoken, rfl⟩))))

theorem inner_of_mem_casesOf (hd : d.Sound) {s : Specialization} (h : s ∈ d.casesOf t) :
    d.Inner s.term := by
  rw [casesOf] at h
  cases hfind : d.specializations.find? fun table => table.base == t with
  | none =>
    rw [hfind] at h
    cases h
  | some table =>
    rw [hfind] at h
    refine hd.inner _ (.tail _ (mem_mentioned.mpr ?_))
    exact .inr (.inr (.inr (.inr (.inr ⟨table, List.mem_of_find?_eq_some hfind, s, h, rfl⟩))))

end Draft.Sound

namespace Build

variable {α β : Type} {base : Draft}

theorem leads_token? (start : Nat) (name : String) (args : List Expr) :
    Leads base (token? start name args) fun d found => ∀ t ∈ found, d.Inner t := by
  refine leads_get_bind fun base hbase => ?_
  split
  next t hknown =>
    refine leads_pure fun d hd u hu => ?_
    cases hu
    exact hd.inner (hbase.sound.inner_of_tokenFor? hknown)
  refine Keeps.read.leads fun ctx => ?_
  dsimp only
  split
  next rule _ =>
    refine (Keeps.check _).leads fun info => (leads_newTerminal _ info).bind fun base t _ ht => ?_
    refine .when (keeps_exportNode info t) fun _ => (keeps_tokenEnd t).leads fun _ => ?_
    refine (keeps_tokenFuel _).leads fun _ => (keeps_onTokens _).leads fun _ => ?_
    refine (keeps_rememberToken _ ht).leads fun _ => leads_pure fun d hd u hu => ?_
    cases hu
    exact hd.inner ht
  next => exact leads_pure fun _ _ _ h => nomatch h

theorem leads_literalToken (value : String) :
    Leads base (literalToken value) fun d t => d.Inner t := by
  have hbuild (base : Draft) {t : Term} (ht : base.Inner t) : Leads base (do
      let target ← tokenEnd t
      onTokens (TokenBuild.addLiteral value Draft.tokenStart target)
      rememberToken (.literal value) t
      return t) fun d t => d.Inner t :=
    (keeps_tokenEnd t).leads fun _ => (keeps_onTokens _).leads fun _ =>
      (keeps_rememberToken _ ht).leads fun _ => leads_pure fun _ hd => hd.inner ht
  refine leads_get_bind fun base hbase => ?_
  split
  next t hknown => exact leads_pure fun d hd => hd.inner (hbase.sound.inner_of_tokenFor? hknown)
  refine Keeps.read.leads fun ctx => ?_
  dsimp only
  split <;> refine Keeps.leads ?_ fun info => (leads_newTerminal _ info).bind fun base t _ ht => ?_
  case h_1.refine_1 => exact .check _
  case h_2.refine_1 => exact .pure _
  all_goals
    split
    · exact (keeps_nameTerm _ t).leads fun _ => hbuild base ht
    · exact hbuild base ht

theorem keeps_withTable (t : Term) : Keeps base (modify fun d => d.withTable t) := by
  refine .of_modify fun d hd => ?_
  rw [Draft.withTable]
  split
  · exact .refl hd.sound
  · refine .remember hd.sound rfl rfl rfl fun u hu => .inl ?_
    simpa [Draft.mem_mentioned, or_and_right, exists_or] using hu

theorem keeps_addCase (t : Term) (s : Specialization) (hs : base.Inner s.term) :
    Keeps base (modify fun d => d.addCase t s) := by
  refine .remember hs (fun _ => ⟨rfl, rfl, rfl⟩) fun d u hu => ?_
  rw [Draft.mem_mentioned] at hu ⊢
  rcases hu with h | h | h | h | h | ⟨table, htable, c, hc, rfl⟩
  on_goal 6 =>
    obtain ⟨known, hknown, rfl⟩ := List.mem_map.mp htable
    split at hc
    · rcases List.mem_append.mp hc with h | h
      · exact .inl (.inr (.inr (.inr (.inr (.inr ⟨known, hknown, c, h, rfl⟩)))))
      · obtain rfl := List.mem_singleton.mp h
        exact .inr rfl
    · exact .inl (.inr (.inr (.inr (.inr (.inr ⟨known, hknown, c, hc, rfl⟩)))))
  all_goals grind [Draft.addCase]

theorem leads_specializeValue (start : Nat) (kind : SpecializeKind) (info : NodeInfo) (t : Term)
    {made : Option Term} (hmade : ∀ u ∈ made, base.Inner u) (value : String) :
    Leads base (specializeValue start kind info t made value) fun d found =>
      ∀ u ∈ found, d.Inner u := by
  refine leads_get_bind fun base hbase => ?_
  dsimp only
  split
  next known hknown =>
    split
    · exact leads_raise _ _
    · refine leads_pure fun d hd u hu => ?_
      cases hu
      exact hd.inner (hbase.sound.inner_of_mem_casesOf (List.mem_of_find?_eq_some hknown))
  next =>
    have hadd (base : Draft) {u : Term} (hu : base.Inner u) : Leads base (do
        modify fun d => d.addCase t ⟨value, u, kind, info.dialect, info.name⟩
        setOrigin u (.specializes t)
        exportNode info u
        return some u) fun d found => ∀ u ∈ found, d.Inner u := by
      refine (keeps_addCase _ _ hu).leads fun _ => (keeps_setOrigin _ _).leads fun _ =>
        (keeps_exportNode _ _).leads fun _ => leads_pure fun d hd v hv => ?_
      cases hv
      exact hd.inner hu
    split
    next u => exact hadd base (hbase.inner (hmade u rfl))
    next => exact (leads_newTerminal _ _).bind fun base _ _ hu => hadd base hu

theorem leads_specializeToken (start : Nat) (kind : SpecializeKind) (info : NodeInfo)
    (token content : Expr) (phrases : List Phrase) :
    Leads base (specializeToken start kind info token content phrases) fun d t => d.Inner t := by
  refine Keeps.get.leads fun d => ?_
  split
  next t _ =>
    split
    next =>
      refine (keeps_withTable t).leads fun _ => (Leads.foldlM (b := none)
        (Q := fun d found => ∀ u ∈ found, d.Inner u)
        (fun _ _ _ hd hfound u hu => hd.inner (hfound u hu))
        (fun _ _ value hmade => leads_specializeValue start kind info t hmade value)
        (fun _ h => nomatch h)).bind fun base found _ hfound => ?_
      cases found with
      | none => exact leads_raise _ _
      | some term => exact leads_pure fun d hd => hd.inner (hfound term rfl)
    next => exact leads_raise _ _
  next => exact leads_raise _ _

/-! ## §4 Rules -/

theorem keeps_delimiterToken (depth : Nat) (e : Expr) : Keeps base (delimiterToken depth e) := by
  induction depth generalizing e with
  | zero =>
    rw [delimiterToken.eq_def]
    split
    · exact (leads_literalToken _).keeps.bind fun _ => .pure _
    next h => cases h
    · exact .pure _
  | succ depth ih =>
    rw [delimiterToken.eq_def]
    split
    · exact (leads_literalToken _).keeps.bind fun _ => .pure _
    next h =>
      cases h
      refine Keeps.read.bind fun ctx => ?_
      dsimp only
      split
      · exact ih _
      · split
        · exact .pure _
        · exact (leads_token? _ _ _).keeps.bind fun _ => .pure _
    · exact .pure _

/-- The end of the input has no node name. -/
theorem leads_hasNodeName (t : Term) :
    Leads base (hasNodeName t) fun _ named => named = true → t ≠ .eof := by
  refine leads_get_bind fun d hd => leads_pure fun _ _ hnamed => ?_
  refine hd.sound.made.holdsReserved.ne_eof_of_isNode ?_
  simp [TermInfo.isNode, hnamed]

/-- The delimiters of a node have node names, so neither is the end of the input. -/
theorem leads_delimiters? (e : Expr) :
    Leads base (delimiters? e) fun _ found => ∀ p ∈ found, p.1 ≠ .eof ∧ p.2 ≠ .eof := by
  have hnone {base : Draft} : Leads base (pure none) fun _ (found : Option (Term × Term)) =>
      ∀ p ∈ found, p.1 ≠ .eof ∧ p.2 ≠ .eof := leads_pure fun _ _ _ h => nomatch h
  unfold delimiters?
  split
  · refine (keeps_delimiterToken 8 _).leads fun found => ?_
    split
    · refine (leads_hasNodeName _).bind fun base named _ hclosing => ?_
      split
      · exact hnone
      next hnamed =>
        split
        · refine (keeps_delimiterToken 8 _).leads fun found => ?_
          split
          · refine (leads_hasNodeName _).bind fun base named' _ hopening => ?_
            split
            next hboth =>
              refine leads_pure fun _ _ p hp => ?_
              cases hp
              rw [Bool.and_eq_true] at hboth
              exact ⟨hopening hboth.1, hclosing (by simpa using hnamed)⟩
            next => exact hnone
          · exact hnone
        · exact hnone
    · exact hnone
  · exact hnone

/-- Props with a word added to one of them, if it is not among its words. -/
def withWord (props : NameMap String) (prop word : String) : NameMap String :=
  match props.get? prop with
  | none => props.insert prop word
  | some value =>
    if (value.splitOn " ").contains word then props
    else props.insert prop (value ++ " " ++ word)

theorem addPropWord_eq (t : Term) (prop word : String) : addPropWord t prop word =
    modifyTerm t fun i => { i with props := withWord i.props prop word } := by
  refine congrArg (modifyTerm t) (funext fun i => ?_)
  cases hvalue : i.props.get? prop with
  | none => simp only [withWord, hvalue]
  | some value =>
    simp only [withWord, hvalue]
    split <;> rfl

theorem keeps_addPropWord {t : Term} (ht : t ≠ .eof) (prop word : String) :
    Keeps base (addPropWord t prop word) := by
  rw [addPropWord_eq]
  exact keeps_modifyTerm (fun _ => rfl) (fun _ => rfl) fun _ hmade =>
    hmade.prop ht (withWord · prop word)

theorem keeps_markDelimiters (info : NodeInfo) (body : Expr) :
    Keeps base (markDelimiters info body) := by
  refine Keeps.read.bind fun ctx =>
    .ite ((leads_delimiters? body).then fun base found _ hfound => ?_) (.pure _)
  split
  next opening closing =>
    obtain ⟨hopening, hclosing⟩ := hfound _ rfl
    exact Keeps.get.bind fun _ => (keeps_addPropWord hopening _ _).bind fun _ =>
      keeps_addPropWord hclosing _ _
  next => exact .pure _

theorem keeps_ruleInfo (place : NodePlace) (rule : RuleDecl) (args : List Expr) :
    Keeps base (ruleInfo place rule args) :=
  Keeps.read.bind fun _ => (Keeps.check _).bind fun _ =>
    (keeps_markDelimiters _ _).bind fun _ => .check _

/-- A change to a new symbol, which is neither skipped nor at the top. -/
theorem since_when_modifyTerm {t : Term} {g : TermInfo → TermInfo} {f : PUnit → Build α}
    {c : Prop} [Decidable c] {ctx : Declared} {d d' : Draft} {a : α} (hd : base.Since d)
    (hnew : base.terms.size ≤ t.index) (hfresh : t ∉ d.skipTerms ++ d.terms.tops)
    (ht : d.terms.isTerminal t = false) (hinner : d.Inner t) (hg : ∀ i, (g i).kind = i.kind)
    (hmade : (d.terms.modify t g).IsMade) (hf : ∀ base u, Keeps base (f u))
    (h : (if c then modifyTerm t g >>= f else f ⟨⟩) ctx d = .ok a d') :
    base.Since d' ∧ d'.terms.isTerminal t = false ∧ d'.Inner t := by
  split at h
  next =>
    obtain ⟨_, d₁, h₁, h₂⟩ := exists_ok_of_bind h
    cases h₁
    have hmark := hd.mark hnew hfresh hg hmade
    have hd' := hf _ _ ctx _ a d' (.refl hmark.sound) h₂
    refine ⟨hmark.trans hd', hd'.isTerminal_eq_false ?_, hd'.inner ⟨?_, ?_⟩⟩
    · exact (TermTable.isTerminal_modify hg t).trans ht
    · exact (TermTable.size_modify d.terms t g).symm ▸ hinner.lt_size
    · exact (TermTable.isTop_modify hg t).trans hinner.isTop
  next =>
    have hd' := hf d _ ctx d a d' (.refl hd.sound) h
    exact ⟨hd.trans hd', hd'.isTerminal_eq_false ht, hd'.inner hinner⟩

/-- Registering the symbol of a rule may mark it, but only if it is new. -/
theorem since_registerRule {rule : RuleDecl} {inPlace : Bool} {node : NodeInfo} {t : Term}
    {ctx : Declared} {d d' : Draft} {u : Unit} (hd : base.Since d)
    (hnew : base.terms.size ≤ t.index) (hfresh : t ∉ d.skipTerms ++ d.terms.tops)
    (ht : d.terms.isTerminal t = false) (hinner : d.Inner t)
    (h : registerRule rule inPlace node t ctx d = .ok u d') :
    base.Since d' ∧ d'.terms.isTerminal t = false ∧ d'.Inner t := by
  have hname (base : Draft) : Keeps base (do
      let isNode := ((← get).terms.info t).isNode
      if (isNode || node.exported.isSome) && rule.params.isEmpty then
        if node.name.isNone then modifyTerm t fun i => { i with preserved := true }
        if !inPlace then nameTerm (node.exported.getD rule.id.name) t) :=
    Keeps.get.bind fun d =>
      .ite (.when (keeps_preserve t) fun _ => .ite (keeps_nameTerm _ t) (.pure _)) (.pure _)
  rw [registerRule] at h
  refine since_when_modifyTerm hd hnew hfresh ht hinner ?_ (hd.sound.made.inline t)
    (fun base _ => ?_) h
  · exact fun _ => rfl
  · refine .ite (.bind ?_ fun _ => (keeps_preserve t).bind fun _ => hname base) (hname base)
    exact .of_eq fun _ => ⟨rfl, rfl, rfl, rfl⟩

/-- Entering a rule: its symbol is created and registered. -/
theorem leads_enter {info : TermInfo} (hkind : info.kind = .nonterminal)
    (hinfo : info.inlined = false) (rule : RuleDecl) (inPlace : Bool) (node : NodeInfo)
    {f : Term → PUnit → Build α} {Q : Draft → α → Prop}
    (hf : ∀ base' t u, base.Since base' → base'.terms.isTerminal t = false → base'.Inner t →
      Leads base' (f t u) Q) :
    Leads base (newTerm info >>= fun t => registerRule rule inPlace node t >>= f t) Q := by
  intro ctx d a d' hd h
  obtain ⟨t, d₁, h₁, h₂⟩ := exists_ok_of_bind h
  obtain ⟨u, d₂, hregister, h₃⟩ := exists_ok_of_bind h₂
  obtain ⟨hd₁, hnew, _, hinner⟩ := leads_newTerm hinfo ctx d t d₁ hd h₁
  rw [hkind] at hnew hinner
  cases h₁
  have hfresh : (⟨d.terms.size⟩ : Term) ∉ d.skipTerms ++ d.terms.tops := by
    intro hmem
    have hlt := TermTable.lt_size_of_isTerminal (hd.sound.stays _ hmem).isTerminal
    exact Nat.lt_irrefl _ hlt
  obtain ⟨hd₂, ht, hinner⟩ := since_registerRule hd₁ hd.size_le
    (by simpa [hkind, TermTable.size] using hfresh) hnew (hinner nofun) hregister
  exact (hf d₂ _ u hd₂ ht hinner ctx d₂ a d' (.refl hd₂.sound) h₃).imp_left hd₂.trans

theorem keeps_rememberRule (name : String) (args : List Expr) {t : Term} (ht : base.Inner t) :
    Keeps base (modify fun d => { d with
      ruleInstances := d.ruleInstances ++ [⟨name, args, t⟩] }) := by
  refine .remember ht (fun _ => ⟨rfl, rfl, rfl⟩) fun d u hu => ?_
  rw [Draft.mem_mentioned] at hu ⊢
  grind

theorem keeps_rememberRepeat (body : Expr) (skip : Term) {t : Term} (ht : base.Inner t) :
    Keeps base (modify fun d => { d with
      repeatInstances := d.repeatInstances ++ [⟨body, skip, t⟩] }) := by
  refine .remember ht (fun _ => ⟨rfl, rfl, rfl⟩) fun d u hu => ?_
  rw [Draft.mem_mentioned] at hu ⊢
  grind

section Expressions

variable {again : Normalizer}
  (hagain : ∀ (base : Draft) skip e, base.terms.isTerminal skip = false →
    Leads base (again skip e) fun d phrases => d.InnerParts phrases)
include hagain

theorem leads_buildRule (rule : RuleDecl) (args : List Expr) {skip : Term}
    (hskip : base.terms.isTerminal skip = false) (inPlace : Bool) :
    Leads base (buildRule again rule args skip inPlace) fun d t => d.Inner t := by
  refine (Keeps.check _).leads fun body => (keeps_ruleInfo _ _ _).leads fun node => ?_
  refine .when (keeps_warn _ _) fun _ => .when (keeps_warn _ _) fun _ => ?_
  refine leads_enter rfl rfl rule inPlace node fun base t _ hbase ht hinner => ?_
  have hskip := hbase.isTerminal_eq_false hskip
  refine .when (keeps_rememberRule _ _ hinner) fun _ => ?_
  refine (hagain base skip body hskip).bind fun base phrases hd hphrases => ?_
  refine .when (keeps_warn _ _) fun _ => ?_
  refine (keeps_addRules (hd.isTerminal_eq_false ht) (hd.isTerminal_eq_false hskip)
    hphrases).leads fun _ => ?_
  have hdone : Leads base (pure t) fun d t => d.Inner t :=
    leads_pure fun d hd' => hd'.inner (hd.inner hinner)
  split
  · exact Keeps.leads (.of_eq fun _ => ⟨rfl, rfl, rfl, rfl⟩)
      fun _ => hdone
  · exact hdone

theorem leads_resolve (start : Nat) (name : String) (args : List Expr) :
    Leads base (resolve again start name args) fun d t => d.Inner t := by
  refine leads_get_bind fun base hbase => ?_
  dsimp only
  split
  next i hi =>
    refine leads_pure fun d hd => hd.inner (hbase.sound.inner _ (.tail _ ?_))
    exact Draft.mem_mentioned.mpr (.inr (.inl ⟨i, List.mem_of_find?_eq_some hi, rfl⟩))
  refine (leads_token? start name args).bind fun base found _ hfound => ?_
  split
  next t => exact leads_pure fun d hd => hd.inner (hfound t rfl)
  refine leads_get_bind fun base hbase => ?_
  split
  next t ht =>
    refine (keeps_markUsed name).leads fun _ => leads_pure fun d hd => hd.inner ?_
    exact hbase.sound.inner_of_externalToken? ht
  split
  · exact leads_raise _ _
  next hscope =>
    refine .when ?_ fun _ => (keeps_markUsed name).leads fun _ =>
      leads_buildRule hagain _ args (hbase.sound.scope _ (List.mem_of_find?_eq_some hscope)) false
    exact .raise _ _

theorem leads_repeatTerm {skip : Term} (hskip : base.terms.isTerminal skip = false) (body : Expr) :
    Leads base (repeatTerm again skip body) fun d t => d.Inner t := by
  refine leads_get_bind fun base hbase => ?_
  dsimp only
  split
  next i hi =>
    refine leads_pure fun d hd => hd.inner (hbase.sound.inner _ (.tail _ ?_))
    exact Draft.mem_mentioned.mpr (.inr (.inr (.inl ⟨i, List.mem_of_find?_eq_some hi, rfl⟩)))
  refine (leads_newTerm rfl).bind fun base t hnew ht => ?_
  have hinner : base.Inner t := ht.2.2 nofun
  have hskip := hnew.isTerminal_eq_false (hbase.isTerminal_eq_false hskip)
  refine (keeps_rememberRepeat body skip hinner).leads fun _ => ?_
  refine (hagain base skip body hskip).bind fun base phrases hd hphrases => ?_
  refine (keeps_addRules (hd.isTerminal_eq_false ht.1) (hd.isTerminal_eq_false hskip)
    fun p hp u hu => ?_).leads fun _ => leads_pure fun d hd' => hd'.inner (hd.inner hinner)
  rcases List.mem_append.mp hp with h | h
  · exact hphrases p h u hu
  · obtain rfl := List.mem_singleton.mp h
    obtain rfl : u = t := by simpa using hu
    exact hd.inner hinner

theorem leads_normalizeWith {skip : Term} (hskip : base.terms.isTerminal skip = false) (e : Expr) :
    Leads base (normalizeWith again skip e) fun d phrases => d.InnerParts phrases := by
  have hinner (e : Expr) := hagain base skip e hskip
  have hsingle {base : Draft} {m : Build Term} (hm : Leads base m fun d t => d.Inner t) :
      Leads base (do return [.single (← m)]) fun d phrases => d.InnerParts phrases :=
    hm.bind fun _ _ _ ht => leads_pure fun d hd => (hd.inner ht).innerParts_single
  have hall {l : List Expr} : Leads base (l.mapM (again skip)) fun d found =>
      ∀ phrases ∈ found, d.InnerParts phrases :=
    .mapM (fun _ _ _ hd hp => hd.innerParts hp) fun d e hd =>
      hagain d skip e (hd.elim (fun heq => heq ▸ hskip) fun hd => hd.isTerminal_eq_false hskip)
  unfold normalizeWith
  split
  · refine (hinner _).bind fun _ _ _ hp => leads_pure fun d hd => ?_
    exact .cons_empty (hd.innerParts hp)
  · exact hsingle (leads_repeatTerm hagain hskip _)
  · refine (leads_repeatTerm hagain hskip _).bind fun _ _ _ ht => leads_pure fun d hd => ?_
    exact .cons_empty (hd.inner ht).innerParts_single
  · refine hall.bind fun _ found _ hp => leads_pure fun d hd p hmem => ?_
    obtain ⟨phrases, hphrases, hmem⟩ := List.mem_flatten.mp hmem
    exact hd.innerParts (hp phrases hphrases) p hmem
  · refine hall.bind fun _ _ _ hp => Keeps.read.leads fun _ => (Keeps.check _).leads fun _ =>
      leads_pure fun d hd => ?_
    exact .sequencePhrases (fun phrases h => hd.innerParts (hp phrases h)) fun _ h => nomatch h
  · exact hsingle (leads_literalToken _)
  · exact hsingle (leads_resolve hagain _ _ _)
  · refine Keeps.read.leads fun _ => (Keeps.check _).leads fun _ =>
      (hinner _).keeps.leads fun _ => ?_
    exact hsingle (leads_specializeToken _ _ _ _ _ _)
  · exact hsingle (leads_buildRule hagain _ _ hskip true)
  · exact leads_pure fun d hd => (hd.sound.inner _ (.head _)).innerParts_single
  all_goals exact leads_raise _ _

end Expressions

theorem leads_normalizeTo (fuel : Nat) (base : Draft) (skip : Term) (e : Expr)
    (hskip : base.terms.isTerminal skip = false) :
    Leads base (normalizeTo fuel skip e) fun d phrases => d.InnerParts phrases := by
  induction fuel generalizing base skip e with
  | zero => exact leads_raise _ _
  | succ fuel ih => exact leads_normalizeWith ih hskip e

theorem leads_normalize (base : Draft) (skip : Term) (e : Expr)
    (hskip : base.terms.isTerminal skip = false) :
    Leads base (normalize skip e) fun d phrases => d.InnerParts phrases :=
  Keeps.read.leads fun _ => leads_normalizeTo _ base skip e hskip

/-! ## §5 Declarations -/

theorem leads_declareExternal (token : ExternalToken) :
    Leads base (declareExternal token) fun d found => d.Inner found.2 :=
  (keeps_declareName _).leads fun _ => Keeps.read.leads fun _ => (Keeps.check _).leads fun _ =>
    (leads_newTerminal _ _).bind fun _ _ _ ht => (keeps_nameTerm _ _).leads fun _ =>
      leads_pure fun _ hd => hd.inner ht

theorem keeps_declareExternals : Keeps base declareExternals := by
  have hmono (d d' : Draft) (token : String × Term) (hd : d.Since d') (h : d.Inner token.2) :
      d'.Inner token.2 := hd.inner h
  refine Keeps.read.bind fun ctx =>
    (Keeps.forM fun entry _ => ?_).bind fun _ => .forM fun decl _ => ?_
  · refine (Leads.mapM hmono fun base token _ => ?_).then fun base tokens _ htokens => ?_
    · exact (leads_declareExternal token).bind fun _ _ _ ht => (keeps_setOrigin _ _).leads fun _ =>
        leads_pure fun _ hd => hd.inner ht
    · exact .of_modify fun d hd => (hd.declare htokens).1
  · refine (Leads.mapM hmono fun base token _ => leads_declareExternal token).then
      fun base tokens _ htokens => ?_
    exact .of_modify fun d hd => (hd.declare htokens).2

theorem keeps_resolveSpecializer {noSkip : Term} (hno : base.terms.isTerminal noSkip = false)
    (entry : ExternalSpecializerDecl × ExternalGroup) :
    Keeps base (resolveSpecializer noSkip entry) := by
  refine (leads_normalize base noSkip _ hno).keeps.bind fun phrases => Keeps.get.bind fun d => ?_
  split
  · refine .bind ?_ fun _ => .forM fun _ _ => keeps_setOrigin _ _
    exact .of_eq fun _ => ⟨rfl, rfl, rfl, rfl⟩
  · exact .raise _ _

theorem leads_newSkip (name : String) : Leads base (newSkip name) fun d t => d.Stays t :=
  fun ctx d t d' hd h =>
    have hnew := leads_newTerm rfl ctx d t d' hd h
    ⟨hnew.1, hnew.2.1, hnew.2.2.1⟩

theorem leads_scopeSkips (main : Option Expr) {mainSkip noSkip : Term}
    (hmain : base.Stays mainSkip) (hno : base.Stays noSkip) (known : List (Expr × Term))
    (hknown : ∀ k ∈ known, base.Stays k.2) (scopes : List ScopedSkip) :
    Leads base (scopeSkips main mainSkip noSkip known scopes) fun d skips =>
      ∀ t ∈ skips, d.Stays t := by
  induction scopes generalizing base known with
  | nil => exact leads_pure fun _ _ _ h => nomatch h
  | cons s scopes ih =>
    have hrest (base' : Draft) (skip : Term) (hd : base.Since base') (hskip : base'.Stays skip) :
        Leads base' (do
          return skip :: (← scopeSkips main mainSkip noSkip (known ++ [(s.expr, skip)]) scopes))
          fun d skips => ∀ t ∈ skips, d.Stays t := by
      refine (ih (hd.stays hmain) (hd.stays hno) _ fun k hk => ?_).bind
        fun base₂ skips hd₂ hskips => leads_pure fun d hd₃ t ht => ?_
      · rcases List.mem_append.mp hk with h | h
        · exact hd.stays (hknown k h)
        · obtain rfl := List.mem_singleton.mp h
          exact hskip
      · rcases List.mem_cons.mp ht with rfl | ht
        · exact hd₃.stays (hd₂.stays hskip)
        · exact hd₃.stays (hskips t ht)
    have hsome {skip : Term} (hskip : base.Stays skip) :
        Leads base (pure skip) fun d t => d.Stays t :=
      leads_pure fun _ hd => hd.stays hskip
    rw [scopeSkips]
    split
    next k hk => exact (hsome (hknown _ (List.mem_of_find?_eq_some hk))).bind hrest
    next =>
      split
      · exact (hsome hmain).bind hrest
      · split
        · exact (hsome hno).bind hrest
        · exact (leads_newSkip _).bind hrest

theorem keeps_buildScopeSkip {noSkip : Term} (hno : base.terms.isTerminal noSkip = false)
    {entry : ScopedSkip × Term} (hskip : base.Stays entry.2) :
    Keeps base (buildScopeSkip noSkip entry) := by
  refine Keeps.get.bind fun d => .ite (.bind ?_ fun _ => .ite ?_ (.pure _)) (.pure _)
  · refine .of_modify fun d hd => .skip hd.sound (fun t ht => ?_) hd.sound.scope
    rcases List.mem_append.mp ht with h | h
    · exact .inl h
    · obtain rfl := List.mem_singleton.mp h
      exact .inr (hd.stays hskip)
  · exact (leads_normalize base _ _ hno).then fun _ _ hd hparts =>
      keeps_addRules (hd.stays hskip).isTerminal (hd.isTerminal_eq_false hno) hparts

theorem keeps_buildTop {entry : ScopedRule} (hskip : base.terms.isTerminal entry.skip = false) :
    Keeps base (buildTop entry) := by
  refine (keeps_declareName _).bind fun _ => (keeps_markUsed _).bind fun _ =>
    (keeps_ruleInfo _ _ _).bind fun info => ?_
  refine Leads.then (Q := fun d t => d.terms.isTerminal t = false) ?_ fun base t hbase ht => ?_
  · intro _ d _ _ hd h
    cases h
    have hself := TermTable.info_add_self d.terms
      { name := "@top", kind := .top, nodeName := info.name, props := info.props }
    exact ⟨hd.trans (.add hd.sound rfl), congrArg (fun i => i.kind == .terminal) hself⟩
  have hskip := hbase.isTerminal_eq_false hskip
  dsimp only
  split
  on_goal 1 => refine (keeps_nameTerm _ t).bind fun _ => ?_
  all_goals exact (leads_normalize base _ _ hskip).then fun _ _ hd hparts =>
    keeps_addRules (hd.isTerminal_eq_false ht) (hd.isTerminal_eq_false hskip) hparts

theorem keeps_buildExported {entry : ScopedRule}
    (hskip : base.terms.isTerminal entry.skip = false) : Keeps base (buildExported entry) :=
  Keeps.get.bind fun _ => .ite
    ((leads_buildRule leads_normalize _ _ hskip _).keeps.bind fun _ =>
      .ite (keeps_markUsed _) (.pure _))
    (.pure _)

/-- What is skipped in the rules of a grammar and of its scopes. -/
theorem stays_scoped {mainSkip : Term} (hmain : base.Stays mainSkip) {skips : List Term}
    (hskips : ∀ t ∈ skips, base.Stays t) (main : List RuleDecl) (scopes : List ScopedSkip)
    (rules : ScopedSkip → List RuleDecl) :
    ∀ entry ∈ main.map (ScopedRule.mk mainSkip) ++
      (scopes.zip skips).flatMap (fun p => (rules p.1).map (ScopedRule.mk p.2)),
      base.Stays entry.skip := by
  intro entry h
  rcases List.mem_append.mp h with h | h
  · obtain ⟨rule, _, rfl⟩ := List.mem_map.mp h
    exact hmain
  · obtain ⟨p, hp, h⟩ := List.mem_flatMap.mp h
    obtain ⟨rule, _, rfl⟩ := List.mem_map.mp h
    exact hskips p.2 (List.of_mem_zip hp).2

theorem keeps_buildRules : Keeps base buildRules := by
  refine Keeps.read.bind fun ctx => (leads_newSkip _).then fun base noSkip _ hno => ?_
  refine Leads.either (leads_newSkip _) (leads_pure fun _ hd => hd.stays hno)
    fun base mainSkip hd hmain => ?_
  have hno := hd.stays hno
  refine (leads_scopeSkips _ hmain hno [] (fun _ h => nomatch h) _).then
    fun base skips hd hskips => ?_
  have hmain := hd.stays hmain
  have hno := hd.stays hno
  have hrules := stays_scoped hmain hskips ctx.decl.rules ctx.decl.scopedSkips ScopedSkip.rules
  have htops := stays_scoped hmain hskips ctx.decl.topRules ctx.decl.scopedSkips ScopedSkip.topRules
  refine (Keeps.forM fun _ _ => keeps_declareName _).bind fun _ => .bind ?_ fun _ => ?_
  · refine .of_modify fun d hd => ?_
    have hskips : ∀ t ∈ (if mainSkip = noSkip then [mainSkip] else [noSkip, mainSkip]),
        t ∈ d.skipTerms ∨ d.Stays t := by
      intro t ht
      split at ht
      · obtain rfl := List.mem_singleton.mp ht
        exact .inr (hd.stays hmain)
      · rcases List.mem_pair.mp ht with rfl | rfl
        · exact .inr (hd.stays hno)
        · exact .inr (hd.stays hmain)
    have hskip := Draft.Since.skip hd.sound hskips fun s hs => (hd.stays (hrules s hs)).isTerminal
    exact hskip.trans (.of_eq hskip.sound rfl rfl rfl rfl)
  dsimp only
  split
  on_goal 1 =>
    refine (leads_normalize base _ _ hno.isTerminal).then fun base _ hd hparts => ?_
    have hno := hd.stays hno
    have hskips : ∀ t ∈ skips, base.Stays t := fun t ht => hd.stays (hskips t ht)
    have hrules := fun s hs => hd.stays (hrules s hs)
    have htops := fun s hs => hd.stays (htops s hs)
    refine (keeps_addRules (hd.stays hmain).isTerminal hno.isTerminal hparts).bind fun _ => ?_
  all_goals
    refine (Keeps.forM fun entry hentry => ?_).bind fun _ => .when (.raise _ _) fun _ =>
      (Keeps.forM fun s hs => keeps_buildTop (htops s (List.mem_mergeSort.mp hs)).isTerminal).bind
        fun _ => Keeps.get.bind fun _ =>
      (Keeps.forM fun _ _ => keeps_resolveSpecializer hno.isTerminal _).bind fun _ =>
      .forM fun s hs => keeps_buildExported (hrules s hs).isTerminal
    exact keeps_buildScopeSkip hno.isTerminal (hskips _ (List.of_mem_zip hentry).2)

theorem keeps_warnUnused : Keeps base warnUnused := by
  refine Keeps.get.bind fun d => .forM fun n _ => ?_
  split
  · exact .pure ()
  · exact keeps_warn _ _

theorem keeps_readPrecedence (ranks : List TokenRank) (decl : TokenPrecedence) :
    Keeps base (readPrecedence ranks decl) := by
  refine Keeps.get.bind fun d => (Keeps.foldlM (fun state item => ?_) _).bind fun _ => .pure _
  exact .when (keeps_warn _ _) fun _ => .pure _

theorem keeps_readConflict (decl : TokenConflictDecl) : Keeps base (readConflict decl) := by
  have htoken (e : Expr) : Keeps base (conflictToken e) :=
    Keeps.get.bind fun d => .when (keeps_warn _ _) fun _ => .pure _
  exact (htoken _).bind fun _ => (htoken _).bind fun _ => .pure _

/-- The members of a group are nodes. -/
theorem isNode_of_mem_membersFrom {d : Draft} {group : GroupDef} {fuel : Nat}
    {within found : List Term} {t : Term} (h : d.membersFrom group fuel within t = .ok found) :
    ∀ u ∈ found, (d.terms.info u).isNode = true := by
  induction fuel generalizing within t found with
  | zero => cases h
  | succ fuel ih =>
    rw [Draft.membersFrom] at h
    split at h
    next hnamed =>
      cases h
      simp [TermInfo.isNode, hnamed]
    split at h
    next => cases h
    obtain ⟨choices, hchoices, h⟩ := GrammarCompiler.exists_ok_of_bind h
    cases h
    intro u hu
    obtain ⟨members, hmembers, hu⟩ := List.mem_flatten.mp hu
    obtain ⟨r, -, hr⟩ := exists_of_mem_forall₂ (forall₂_of_mapM hchoices).flip hmembers
    obtain ⟨parts, hparts, hr⟩ := GrammarCompiler.exists_ok_of_bind hr
    split at hr
    next =>
      cases hr
      cases hu
    next only hfilter =>
      cases hr
      have hmem : members ∈ parts := List.mem_of_mem_filter (hfilter ▸ List.mem_singleton_self _)
      obtain ⟨part, -, hpart⟩ := exists_of_mem_forall₂ (forall₂_of_mapM hparts).flip hmem
      exact ih hpart u hu
    next => cases hr

/-- Marking the members of a group only changes the props of nodes. -/
theorem since_markGroup {d d' : Draft} {group : GroupDef} (hd : d.Sound)
    (h : d.markGroup group = .ok d') : d.Since d' := by
  rw [Draft.markGroup] at h
  cases hm : d.members group with
  | error e =>
    rw [hm] at h
    cases h
  | ok members =>
    rw [hm] at h
    cases h
    have hne : ∀ t ∈ members, t ≠ .eof := fun t ht =>
      hd.made.holdsReserved.ne_eof_of_isNode (isNode_of_mem_membersFrom hm t ht)
    clear hm
    induction members generalizing d with
    | nil => exact .refl hd
    | cons t members ih =>
      obtain ⟨ht, hne⟩ := List.forall_mem_cons.mp hne
      let change (props : NameMap String) : NameMap String :=
        (Draft.addGroup group.group { (default : TermInfo) with props }).props
      have hmark : d.Since { d with terms := d.terms.modify t (Draft.addGroup group.group) } :=
        .modify hd (fun _ => rfl) (fun _ => rfl) (hd.made.prop ht change)
      exact hmark.trans (ih hmark.sound hne)

theorem keeps_defineGroups : Keeps base defineGroups := by
  refine Keeps.get.bind fun d => (Keeps.forIn fun group _ => ?_).bind fun _ =>
    Keeps.get.bind fun _ => .forM fun _ _ => keeps_warn _ _
  intro ctx d step d' hd h
  obtain ⟨_, _, h₁, h⟩ := exists_ok_of_bind h
  cases h₁
  obtain ⟨marked, d₁, h₂, h⟩ := exists_ok_of_bind h
  cases hm : d.markGroup group with
  | error e =>
    rw [hm] at h₂
    cases h₂
  | ok found =>
    rw [hm] at h₂
    cases h₂
    cases h
    exact hd.trans (since_markGroup hd.sound hm)

/-- The draft that all declarations lead to. -/
theorem leads_blueprint : Leads base blueprint fun _ b => base.Since b.draft := by
  refine Keeps.read.leads fun ctx => (Keeps.forM fun _ _ => keeps_declareName _).leads fun _ => ?_
  refine keeps_declareExternals.leads fun _ => keeps_buildRules.leads fun _ => ?_
  refine keeps_warnUnused.leads fun _ => (Keeps.foldlM keeps_readPrecedence _).leads fun ranks => ?_
  refine (Keeps.mapM keeps_readConflict).leads fun conflicts => keeps_defineGroups.leads fun _ => ?_
  refine Keeps.leads ?_ fun _ => leads_get_bind fun d hd => leads_pure fun _ _ => hd
  exact .of_eq fun _ => ⟨rfl, rfl, rfl, rfl⟩

end Build

/-- The symbols that are there from the start are there in the end, of the same kind. -/
theorem Blueprint.since_of_ofSource {source : Text.Source} {b : Blueprint} {journal : Journal}
    (h : Blueprint.ofSource source = (.ok b, journal)) : ({} : Draft).Since b.draft := by
  have hempty : ({} : Draft).Sound := by
    refine ⟨.initial, fun _ h => (nomatch h), fun _ h => (nomatch h), fun t ht => ?_, rfl,
      fun _ h => (nomatch h), fun _ h => (nomatch h)⟩
    obtain rfl := List.mem_singleton.mp ht
    exact ⟨by decide, by decide⟩
  rw [ofSource] at h
  split at h
  next => cases h
  next decl _ =>
    split at h
    next hrun =>
      cases h
      exact (Build.leads_blueprint ⟨source, decl⟩ {} b _ (.refl hempty) hrun).2
    next => cases h

/-- What holds of the draft that declarations lead to. -/
theorem Blueprint.sound_of_ofSource {source : Text.Source} {b : Blueprint} {journal : Journal}
    (h : Blueprint.ofSource source = (.ok b, journal)) : b.draft.Sound :=
  (since_of_ofSource h).sound

end GrammarCompiler
