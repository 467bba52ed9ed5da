/-
GrammarCompiler.Proofs.Pairing — which tokens are found to overlap, and which of
the two is then preferred.

The search comes across the same two tokens in many places: in states where both
end, and in states where one ends and from which a word leads to the end of the
other. There is one entry for all of these findings. It is soft only if they
agree, so the preferred token is the longer one wherever both can be read.

  §1 Findings — what the entries that were added so far sum up.
  §2 Searches — the findings of a search.
  §3 Words    — findings as words that the tokens are read from.
  §4 Entries  — what an entry says about words.
-/
import GrammarCompiler.Proofs.Classifying
import GrammarCompiler.Proofs.Tabling
import GrammarCompiler.Tokenizer.Overlap

namespace GrammarCompiler

namespace Overlap

/-! ## §1 Findings -/

/-- Two tokens of which one ends where the other one does, or goes on from there. -/
structure Finding where
  longer : Term
  shorter : Term
  soft : Int

namespace Finding

variable {ids : Term → Nat} {f : Finding}

/-- The tokens in the order of their entry. -/
def key (ids : Term → Nat) (f : Finding) : Term × Term :=
  if ids f.longer < ids f.shorter then (f.shorter, f.longer) else (f.longer, f.shorter)

/-- Which of the two is preferred, in the order of their entry. -/
def sign (ids : Term → Nat) (f : Finding) : Int :=
  if ids f.longer < ids f.shorter then -f.soft else f.soft

/-- A finding is one of two tokens. -/
def Of (f : Finding) (x y : Term) : Prop :=
  (f.longer = x ∧ f.shorter = y) ∨ (f.longer = y ∧ f.shorter = x)

theorem key_cases (ids : Term → Nat) (f : Finding) :
    (f.key ids = (f.longer, f.shorter) ∧ f.sign ids = f.soft) ∨
      (f.key ids = (f.shorter, f.longer) ∧ f.sign ids = -f.soft) := by
  rw [key, sign]
  split
  · exact .inr ⟨rfl, rfl⟩
  · exact .inl ⟨rfl, rfl⟩

theorem sign_eq_zero (h : f.soft = 0) : f.sign ids = 0 := by
  rcases f.key_cases ids with ⟨_, hsign⟩ | ⟨_, hsign⟩ <;> simp [hsign, h]

/-- Tokens with different numbers have one entry for all findings of them. -/
theorem key_eq_of_of {g : Finding} {x y : Term} (hne : ids x ≠ ids y) (hf : f.Of x y)
    (hg : g.Of x y) : f.key ids = g.key ids := by
  obtain ⟨rfl, rfl⟩ | ⟨rfl, rfl⟩ := hf <;> obtain ⟨hl, hs⟩ | ⟨hl, hs⟩ := hg <;>
    simp only [key, hl, hs] <;> split <;> split <;> first | rfl | omega

end Finding

/-- The tokens of an entry. -/
def key (o : Overlap) : Term × Term :=
  (o.first, o.second)

theorem involves_iff {o : Overlap} {x y : Term} :
    o.involves x y = true ↔ o.key = (x, y) ∨ o.key = (y, x) := by
  simp [involves, key]

/-- An entry that is not soft any more if a finding does not agree with it. -/
def settle (key : Term × Term) (sign : Int) (o : Overlap) : Overlap :=
  if o.first == key.1 && o.second == key.2 && o.soft != sign then { o with soft := 0 } else o

@[simp] theorem key_settle (k : Term × Term) (sign : Int) (o : Overlap) :
    (o.settle k sign).key = o.key := by
  rw [settle]
  split <;> rfl

theorem soft_settle (k : Term × Term) (sign : Int) (o : Overlap) :
    (o.settle k sign).soft = 0 ∨
      ((o.settle k sign).soft = o.soft ∧ (o.key = k → o.soft = sign)) := by
  rw [settle]
  split
  next => exact .inl rfl
  next h =>
    refine .inr ⟨rfl, fun hkey => ?_⟩
    simpa [← hkey, key] using h

theorem add_eq (ids : Term → Nat) (found : List Overlap) (f : Finding) (text : List Nat)
    (longer : Option (List Nat)) :
    add ids found f.longer f.shorter f.soft text longer =
      if found.any fun o => o.first == (f.key ids).1 && o.second == (f.key ids).2 then
        found.map (settle (f.key ids) (f.sign ids))
      else found ++ [⟨(f.key ids).1, (f.key ids).2, f.sign ids, textOf text, longer.map textOf⟩] := by
  by_cases h : ids f.longer < ids f.shorter
  · simp only [add, Finding.key, Finding.sign, if_pos h]
    rfl
  · simp only [add, Finding.key, Finding.sign, if_neg h]
    rfl

/-- Entries sum up findings: each two tokens that were found have one entry, and
if it is soft, all findings of the two agree with it. -/
structure Sums (ids : Term → Nat) (fs : Set Finding) (found : List Overlap) : Prop where
  apart : (found.map key).Nodup
  isFound : ∀ o ∈ found, ∃ f ∈ fs, f.key ids = o.key
  agree : ∀ f ∈ fs, ∃ o ∈ found, o.key = f.key ids ∧ (o.soft = 0 ∨ o.soft = f.sign ids)

variable {ids : Term → Nat} {fs : Set Finding} {found : List Overlap}

theorem sums_nil (ids : Term → Nat) : Sums ids ∅ [] where
  apart := .nil
  isFound := by simp
  agree := by simp

/-- There is one entry for a key. -/
theorem Sums.eq_of_key_eq (h : Sums ids fs found) {o o' : Overlap} (ho : o ∈ found)
    (ho' : o' ∈ found) (hkey : o.key = o'.key) : o = o' :=
  List.inj_on_of_nodup_map h.apart ho ho' hkey

theorem Sums.add (h : Sums ids fs found) (f : Finding) (text : List Nat)
    (longer : Option (List Nat)) :
    Sums ids (fs ∪ {f}) (Overlap.add ids found f.longer f.shorter f.soft text longer) := by
  rw [add_eq]
  split
  next hany =>
    obtain ⟨known, hknown, hkey⟩ := List.any_eq_true.mp hany
    replace hkey : known.key = f.key ids := by simpa [key, Prod.ext_iff] using hkey
    constructor
    · simpa [Function.comp_def] using h.apart
    · simp only [List.forall_mem_map, key_settle]
      exact fun o ho => (h.isFound o ho).imp fun g hg => ⟨.inl hg.1, hg.2⟩
    · rintro g (hg | rfl)
      · obtain ⟨o, ho, hog, hsoft⟩ := h.agree g hg
        refine ⟨_, List.mem_map_of_mem ho, by simpa using hog, ?_⟩
        rcases soft_settle (f.key ids) (f.sign ids) o with hzero | ⟨heq, _⟩
        · exact .inl hzero
        · rwa [heq]
      · refine ⟨_, List.mem_map_of_mem hknown, by simpa using hkey, ?_⟩
        exact (soft_settle (g.key ids) (g.sign ids) known).imp_right fun ⟨heq, hsign⟩ =>
          heq.trans (hsign hkey)
  next hany =>
    have hnew : ∀ o ∈ found, o.key ≠ f.key ids := by
      intro o ho hkey
      exact hany (List.any_eq_true.mpr ⟨o, ho, by simp [← hkey, key]⟩)
    constructor
    · rw [List.map_append, List.map_singleton, ← List.concat_eq_append]
      refine h.apart.concat fun hmem => ?_
      obtain ⟨o, ho, hkey⟩ := List.mem_map.mp hmem
      exact hnew o ho hkey
    · intro o ho
      rcases List.mem_append.mp ho with ho | ho
      · exact (h.isFound o ho).imp fun g hg => ⟨.inl hg.1, hg.2⟩
      · exact ⟨f, .inr rfl, by rw [List.mem_singleton.mp ho]; rfl⟩
    · rintro g (hg | rfl)
      · obtain ⟨o, ho, hog⟩ := h.agree g hg
        exact ⟨o, List.mem_append_left _ ho, hog⟩
      · exact ⟨_, List.mem_append_right _ List.mem_cons_self, rfl, .inr rfl⟩

/-- A step of a search adds findings. -/
def Adds (ids : Term → Nat) (step : List Overlap → List Overlap) (fs : Set Finding) : Prop :=
  ∀ fs' found, Sums ids fs' found → Sums ids (fs' ∪ fs) (step found)

namespace Adds

variable {step step' : List Overlap → List Overlap} {fs' : Set Finding}

theorem none : Adds ids (fun found => found) ∅ := by
  intro fs' found h
  rwa [Set.union_empty]

theorem single (f : Finding) (text : List Nat) (longer : Option (List Nat)) :
    Adds ids (fun found => Overlap.add ids found f.longer f.shorter f.soft text longer) {f} :=
  fun _ _ h => h.add f text longer

theorem comp (h : Adds ids step fs) (h' : Adds ids step' fs') :
    Adds ids (fun found => step' (step found)) (fs ∪ fs') := by
  intro fs₀ found h₀
  rw [← Set.union_assoc]
  exact h' _ _ (h _ _ h₀)

theorem foldl {α : Type} {step : List Overlap → α → List Overlap} {fs : α → Set Finding}
    {l : List α} (h : ∀ x ∈ l, Adds ids (step · x) (fs x)) :
    Adds ids (fun found => l.foldl step found) {f | ∃ x ∈ l, f ∈ fs x} := by
  induction l with
  | nil => simpa using none
  | cons x l ih =>
    obtain ⟨hx, hl⟩ := List.forall_mem_cons.mp h
    have hsplit : {f | ∃ y ∈ x :: l, f ∈ fs y} = fs x ∪ {f | ∃ y ∈ l, f ∈ fs y} := by
      ext f
      simp
    rw [hsplit]
    exact hx.comp (ih hl)

end Adds

end Overlap

namespace Dfa

open Overlap

/-! ## §2 Searches -/

variable {a : Dfa} {ids : Term → Nat} {together : Term → Term → Bool} {unbounded : List Term}

/-- The findings in a state where several tokens end. -/
def sameFindings (tokens : List Term) : Set Finding :=
  {f | [f.longer, f.shorter].Sublist tokens ∧ f.soft = 0}

/-- The findings of tokens that end `here` and those that end `there`. -/
def longerFindings (unbounded : List Term) (together : Term → Term → Bool)
    (here there : List Term) : Set Finding :=
  {f | f.longer ∈ there ∧ f.shorter ∈ here ∧ f.longer ≠ f.shorter ∧
    f.soft = if here.contains f.longer || unbounded.contains f.longer ||
      !together f.longer f.shorter then 0 else 1}

/-- The findings from a state on. -/
def findingsFrom (a : Dfa) (together : Term → Term → Bool) (i : Nat) : Set Finding :=
  sameFindings (a.state i).accepting ∪ {f | ∃ second ∈ a.reachable i, second.node ≠ i ∧
    f ∈ longerFindings a.unboundedTokens together (a.state i).accepting
      (a.state second.node).accepting}

/-- All findings of a search. -/
def findings (a : Dfa) (together : Term → Term → Bool) : Set Finding :=
  {f | ∃ first ∈ a.reachable 0, f ∈ a.findingsFrom together first.node}

theorem adds_addSame (text : List Nat) (tokens : List Term) :
    Adds ids (addSame ids text tokens) (sameFindings tokens) := by
  induction tokens with
  | nil => simpa [addSame, sameFindings] using Adds.none
  | cons token later ih =>
    have hsplit : sameFindings (token :: later) =
        {f | ∃ other ∈ later, f ∈ ({⟨token, other, 0⟩} : Set Finding)} ∪ sameFindings later := by
      ext ⟨longer, shorter, soft⟩
      simp only [sameFindings, Set.mem_ofPred_eq, Set.mem_union, Set.mem_singleton_iff,
        Finding.mk.injEq, List.sublist_cons_iff, List.cons.injEq]
      grind
    rw [hsplit]
    exact (Adds.foldl fun other _ => Adds.single ⟨token, other, 0⟩ text none).comp ih

theorem adds_addLonger (text rest : List Nat) (here there : List Term) :
    Adds ids (addLonger ids unbounded together text rest here there)
      (longerFindings unbounded together here there) := by
  have hsplit : longerFindings unbounded together here there =
      {f | ∃ token ∈ there, f ∈ {f | ∃ other ∈ here, f ∈ {f : Finding | f.longer = token ∧
        f.shorter = other ∧ f ∈ longerFindings unbounded together here there}}} := by
    ext f
    simp only [Set.mem_ofPred_eq]
    exact ⟨fun hf => ⟨_, hf.1, _, hf.2.1, rfl, rfl, hf⟩, fun ⟨_, _, _, _, _, _, hf⟩ => hf⟩
  rw [hsplit]
  refine Adds.foldl fun token htoken => Adds.foldl fun other hother => ?_
  by_cases heq : token = other
  · subst heq
    have hnone : {f : Finding | f.longer = token ∧ f.shorter = token ∧
        f ∈ longerFindings unbounded together here there} = ∅ := by
      ext f
      simp only [longerFindings, Set.mem_ofPred_eq, Set.mem_empty_iff_false, iff_false]
      rintro ⟨rfl, hshorter, -, -, hne, -⟩
      exact hne hshorter.symm
    simpa [hnone] using Adds.none
  · have hsingle : {f : Finding | f.longer = token ∧ f.shorter = other ∧
        f ∈ longerFindings unbounded together here there} =
        {⟨token, other, if here.contains token || unbounded.contains token ||
          !together token other then 0 else 1⟩} := by
      ext ⟨longer, shorter, soft⟩
      simp only [longerFindings, Set.mem_ofPred_eq, Set.mem_singleton_iff, Finding.mk.injEq]
      constructor
      · rintro ⟨rfl, rfl, _, _, _, hsoft⟩
        exact ⟨rfl, rfl, hsoft⟩
      · rintro ⟨rfl, rfl, hsoft⟩
        exact ⟨rfl, rfl, htoken, hother, heq, hsoft⟩
    rw [hsingle]
    simpa [heq] using @Adds.single ids ⟨token, other, _⟩ text (some (text ++ rest))

theorem adds_later (a : Dfa) (i : Nat) (text : List Nat) :
    Adds ids (fun found => (a.reachable i).foldl (fun found second =>
        if second.node = i || (a.state second.node).accepting.isEmpty then found
        else addLonger ids a.unboundedTokens together text second.path (a.state i).accepting
          (a.state second.node).accepting found) found)
      {f | ∃ second ∈ a.reachable i, second.node ≠ i ∧
        f ∈ longerFindings a.unboundedTokens together (a.state i).accepting
          (a.state second.node).accepting} := by
  refine @Adds.foldl ids Walk.Stop _ (fun second => {f | second.node ≠ i ∧
    f ∈ longerFindings a.unboundedTokens together (a.state i).accepting
      (a.state second.node).accepting}) _ fun second _ => ?_
  by_cases hnode : second.node = i
  · simpa [hnode] using Adds.none
  · by_cases hempty : (a.state second.node).accepting = []
    · simpa [hnode, hempty, longerFindings] using Adds.none
    · simpa [hnode, hempty] using adds_addLonger text second.path _ _

/-- The entries that a search ends with sum up all of its findings. -/
theorem sums_overlaps (a : Dfa) (ids : Term → Nat) (together : Term → Term → Bool) :
    Sums ids (a.findings together) (a.overlaps ids together) := by
  have hfirst (first : Walk.Stop) (_ : first ∈ a.reachable 0) : Adds ids (fun found =>
      if (a.state first.node).accepting.isEmpty then found
      else (a.reachable first.node).foldl (fun found second =>
        if second.node = first.node || (a.state second.node).accepting.isEmpty then found
        else addLonger ids a.unboundedTokens together first.path second.path
          (a.state first.node).accepting (a.state second.node).accepting found)
        (addSame ids first.path (a.state first.node).accepting found))
      (a.findingsFrom together first.node) := by
    rw [findingsFrom]
    by_cases hempty : (a.state first.node).accepting = []
    · simpa [hempty, sameFindings, longerFindings] using Adds.none
    · simpa [hempty] using (adds_addSame first.path _).comp (adds_later a first.node first.path)
  have hsums := Adds.foldl hfirst ∅ [] (sums_nil ids)
  rwa [Set.empty_union] at hsums

/-! ## §3 Words -/

/-- A word that is read as one token goes on to one that is read as the other, or
is itself one. -/
def LeadsOn (a : Dfa) (x y : Term) : Prop :=
  ∃ u v, u ≠ [] ∧ u <+: v ∧ x ∈ a.accepted u ∧ y ∈ a.accepted v

theorem mem_accepted_iff {word : List Nat} {t : Term} :
    t ∈ a.accepted word ↔ ∃ i, a.run? 0 word = some i ∧ t ∈ (a.state i).accepting := by
  rw [accepted]
  cases a.run? 0 word <;> simp

/-- What a walk finds are the states that words lead to. -/
theorem exists_run?_of_mem_reachable (h : a.IsOrdered)
    (hfull : ∀ i, ∀ e ∈ (a.state i).edges, e.lo < e.hi) {i j : Nat}
    (hj : j ∈ (a.reachable i).map Walk.Stop.node) : ∃ word, a.run? i word = some j := by
  have hinside (p q : Nat) (hway : Walk.HasWay (a.edgeWays id) p q) : p < a.size := by
    obtain ⟨e, he, _⟩ := hasWay_edgeWays.mp hway
    by_contra hp
    rw [state_of_size_le (by omega)] at he
    cases he
  obtain ⟨_, hleads⟩ := (Walk.mem_walk_iff (a.sum_edgeWays id) hinside).mp hj
  exact exists_run?_of_hasEdge h hfull (hleads.lift id fun _ _ hway => hasWay_edgeWays.mp hway)

theorem leadsOn_of_mem_findings (h : a.IsOrdered)
    (hfull : ∀ i, ∀ e ∈ (a.state i).edges, e.lo < e.hi) (hstart : (a.state 0).accepting = [])
    {f : Finding} (hf : f ∈ a.findings together) : a.LeadsOn f.shorter f.longer := by
  obtain ⟨first, hfirst, hf⟩ := hf
  obtain ⟨u, hu⟩ := exists_run?_of_mem_reachable h hfull (List.mem_map_of_mem hfirst)
  have hne {t : Term} (ht : t ∈ (a.state first.node).accepting) : u ≠ [] := by
    rintro rfl
    rw [← Option.some.inj hu, hstart] at ht
    cases ht
  rcases hf with ⟨hboth, _⟩ | ⟨second, hsecond, _, hlonger, hshorter, _⟩
  · have hlonger := hboth.subset (List.mem_cons_self)
    have hshorter := hboth.subset (List.mem_cons_of_mem _ List.mem_cons_self)
    exact ⟨u, u, hne hlonger, List.prefix_rfl, mem_accepted_iff.mpr ⟨_, hu, hshorter⟩,
      mem_accepted_iff.mpr ⟨_, hu, hlonger⟩⟩
  · obtain ⟨rest, hrest⟩ := exists_run?_of_mem_reachable h hfull (List.mem_map_of_mem hsecond)
    refine ⟨u, u ++ rest, hne hshorter, List.prefix_append u rest,
      mem_accepted_iff.mpr ⟨_, hu, hshorter⟩, mem_accepted_iff.mpr ⟨second.node, ?_, hlonger⟩⟩
    rw [run?_append, hu, Option.bind_some, hrest]

theorem exists_mem_reachable (ha : a.IsSound) {i j : Nat} (hi : i < a.size) {word : List Nat}
    (h : a.run? i word = some j) : ∃ stop ∈ a.reachable i, stop.node = j :=
  List.mem_map.mp (Layout.mem_reachable_of_run? ha (Layout.mem_reachable_self hi) h)

/-- Two tokens that a word is read as are found, without a preference. -/
theorem exists_finding_of_both (ha : a.IsSound) {x y : Term} (hne : x ≠ y) {word : List Nat}
    (hx : x ∈ a.accepted word) (hy : y ∈ a.accepted word) :
    ∃ f ∈ a.findings together, f.Of x y ∧ f.soft = 0 := by
  obtain ⟨i, hi, hx⟩ := mem_accepted_iff.mp hx
  obtain ⟨j, hj, hy⟩ := mem_accepted_iff.mp hy
  obtain rfl : i = j := Option.some.inj (hi.symm.trans hj)
  obtain ⟨first, hfirst, rfl⟩ := exists_mem_reachable ha ha.nonempty hi
  have hpair : [x, y].Sublist (a.state first.node).accepting ∨
      [y, x].Sublist (a.state first.node).accepting := by
    obtain ⟨before, after, hsplit⟩ := List.append_of_mem hx
    rw [hsplit] at hy ⊢
    rcases List.mem_append.mp hy with hy | hy
    · exact .inr ((List.singleton_sublist.mpr hy).append
        (List.singleton_sublist.mpr List.mem_cons_self))
    · have hy := (List.mem_cons.mp hy).resolve_left (Ne.symm hne)
      exact .inl (((List.singleton_sublist.mpr hy).cons_cons x).trans (List.sublist_append_right _ _))
  rcases hpair with hpair | hpair
  · exact ⟨⟨x, y, 0⟩, ⟨first, hfirst, .inl ⟨hpair, rfl⟩⟩, .inl ⟨rfl, rfl⟩, rfl⟩
  · exact ⟨⟨y, x, 0⟩, ⟨first, hfirst, .inl ⟨hpair, rfl⟩⟩, .inr ⟨rfl, rfl⟩, rfl⟩

/-- If a word of one token goes on to one of the other, the two are found: without
a preference, or with one for the token that goes on. -/
theorem exists_finding_of_leadsOn (ha : a.IsSound) {x y : Term} (hne : x ≠ y)
    (h : a.LeadsOn x y) :
    ∃ f ∈ a.findings together, f.Of x y ∧
      (f.soft = 0 ∨ (f.longer = y ∧ f.shorter = x ∧ f.soft = 1)) := by
  obtain ⟨u, v, _, ⟨rest, rfl⟩, hx, hy⟩ := h
  obtain ⟨i, hi, hxi⟩ := mem_accepted_iff.mp hx
  obtain ⟨j, hj, hyj⟩ := mem_accepted_iff.mp hy
  by_cases hij : j = i
  · subst hij
    obtain ⟨f, hf, hof, hsoft⟩ := exists_finding_of_both ha hne hx
      (mem_accepted_iff.mpr ⟨j, hi, hyj⟩)
    exact ⟨f, hf, hof, .inl hsoft⟩
  · obtain ⟨first, hfirst, rfl⟩ := exists_mem_reachable ha ha.nonempty hi
    rw [run?_append, hi, Option.bind_some] at hj
    obtain ⟨second, hsecond, rfl⟩ := exists_mem_reachable ha
      (Layout.lt_size_of_mem_reachable (List.mem_map_of_mem hfirst)) hj
    obtain ⟨soft, hsoft⟩ : ∃ soft : Int, soft = if (a.state first.node).accepting.contains y ||
        a.unboundedTokens.contains y || !together y x then 0 else 1 := ⟨_, rfl⟩
    refine ⟨⟨y, x, soft⟩, ⟨first, hfirst, .inr ⟨second, hsecond, hij, hyj, hxi, hne.symm, hsoft⟩⟩,
      .inr ⟨rfl, rfl⟩, ?_⟩
    split at hsoft
    · exact .inl hsoft
    · exact .inr ⟨rfl, rfl, hsoft⟩

/-! ## §4 Entries -/

/-- What two tokens are in an entry for, they were found in. -/
theorem exists_finding_of_involves {x y : Term} {o : Overlap}
    (ho : o ∈ a.overlaps ids together) (hinvolves : o.involves x y = true) :
    ∃ f ∈ a.findings together, f.Of x y ∧ f.key ids = o.key := by
  obtain ⟨f, hf, hkey⟩ := (sums_overlaps a ids together).isFound o ho
  refine ⟨f, hf, ?_, hkey⟩
  rcases f.key_cases ids with ⟨heq, _⟩ | ⟨heq, _⟩ <;>
    rcases involves_iff.mp hinvolves with h | h <;>
    · rw [← hkey, heq, Prod.mk.injEq] at h
      simp [Finding.Of, h.1, h.2]

/-- The entry of a finding is one of its tokens. -/
theorem exists_involves_of_finding {x y : Term} {f : Finding} (hf : f ∈ a.findings together)
    (hof : f.Of x y) : ∃ o ∈ a.overlaps ids together, o.involves x y = true ∧
      o.key = f.key ids ∧ (o.soft = 0 ∨ o.soft = f.sign ids) := by
  obtain ⟨o, ho, hkey, hsoft⟩ := (sums_overlaps a ids together).agree f hf
  refine ⟨o, ho, ?_, hkey, hsoft⟩
  rw [involves_iff, hkey]
  rcases f.key_cases ids with ⟨heq, _⟩ | ⟨heq, _⟩ <;>
    rcases hof with ⟨rfl, rfl⟩ | ⟨rfl, rfl⟩ <;> simp [heq]

section

variable (h : a.IsOrdered) (hfull : ∀ i, ∀ e ∈ (a.state i).edges, e.lo < e.hi)
  (hstart : (a.state 0).accepting = []) (hids : Set.InjOn ids {t | ∃ word, t ∈ a.accepted word})
include h hfull hstart hids

/-- Different tokens that are found have different numbers. -/
theorem ids_ne_of_mem_findings {x y : Term} (hne : x ≠ y) {f : Finding}
    (hf : f ∈ a.findings together) (hof : f.Of x y) : ids x ≠ ids y := by
  obtain ⟨u, v, _, _, hshorter, hlonger⟩ := leadsOn_of_mem_findings h hfull hstart hf
  rcases hof with ⟨rfl, rfl⟩ | ⟨rfl, rfl⟩
  · exact fun heq => hne (hids ⟨v, hlonger⟩ ⟨u, hshorter⟩ heq)
  · exact fun heq => hne (hids ⟨u, hshorter⟩ ⟨v, hlonger⟩ heq)

/-- All findings of two tokens have the entry of the two. -/
theorem key_eq_of_involves {x y : Term} (hne : x ≠ y) {o : Overlap}
    (ho : o ∈ a.overlaps ids together) (hinvolves : o.involves x y = true) {f : Finding}
    (hof : f.Of x y) : f.key ids = o.key := by
  obtain ⟨g, hg, hofg, hkey⟩ := exists_finding_of_involves ho hinvolves
  rw [← hkey]
  exact Finding.key_eq_of_of (ids_ne_of_mem_findings h hfull hstart hids hne hg hofg) hof hofg

theorem countP_involves_le {x y : Term} (hne : x ≠ y) :
    (a.overlaps ids together).countP (·.involves x y) ≤ 1 := by
  by_cases hsome : ∃ o ∈ a.overlaps ids together, o.involves x y = true
  · obtain ⟨o, ho, hinvolves⟩ := hsome
    calc (a.overlaps ids together).countP (·.involves x y)
        ≤ (a.overlaps ids together).countP fun o' => o'.key == o.key := by
          refine List.countP_mono_left fun o' ho' hinvolves' => ?_
          obtain ⟨f, _, hof, hkey⟩ := exists_finding_of_involves ho' hinvolves'
          rw [← hkey, beq_iff_eq]
          exact key_eq_of_involves h hfull hstart hids hne ho hinvolves hof
      _ = ((a.overlaps ids together).map key).count o.key := by
          rw [List.count, List.countP_map]
          rfl
      _ ≤ 1 := List.nodup_iff_count_le_one.mp (sums_overlaps a ids together).apart _
  · have hnone : (a.overlaps ids together).countP (·.involves x y) = 0 :=
      List.countP_eq_zero.mpr fun o ho hinvolves => hsome ⟨o, ho, hinvolves⟩
    omega

/-- A soft entry agrees with all findings of its tokens. -/
theorem soft_eq_sign {o : Overlap} (ho : o ∈ a.overlaps ids together) (hne : o.first ≠ o.second)
    (hsoft : o.soft ≠ 0) {f : Finding} (hf : f ∈ a.findings together)
    (hof : f.Of o.first o.second) : f.key ids = o.key ∧ f.sign ids = o.soft := by
  have hkey := key_eq_of_involves h hfull hstart hids hne ho (involves_iff.mpr (.inl rfl)) hof
  obtain ⟨o', ho', _, hkey', hagrees⟩ := @exists_involves_of_finding a ids together _ _ f hf hof
  obtain rfl := (sums_overlaps a ids together).eq_of_key_eq ho' ho (hkey'.trans hkey)
  exact ⟨hkey, (hagrees.resolve_left hsoft).symm⟩

/-- A soft entry prefers the token that goes on. -/
theorem soft_of_leadsOn (hsound : a.IsSound) {o : Overlap} (ho : o ∈ a.overlaps ids together)
    (hne : o.first ≠ o.second) (hsoft : o.soft ≠ 0) :
    (a.LeadsOn o.first o.second → o.soft = -1) ∧ (a.LeadsOn o.second o.first → o.soft = 1) := by
  have hprefers {p q : Term} (hpq : p ≠ q) (hof : ∀ f : Finding, f.Of p q → f.Of o.first o.second)
      (hleads : a.LeadsOn p q) : (o.key = (q, p) ∧ o.soft = 1) ∨ (o.key = (p, q) ∧ o.soft = -1) := by
    obtain ⟨f, hf, hfof, hgoes⟩ := exists_finding_of_leadsOn hsound hpq hleads
    obtain ⟨hkey, hsign⟩ := soft_eq_sign h hfull hstart hids ho hne hsoft hf (hof f hfof)
    rcases hgoes with hzero | ⟨rfl, rfl, hone⟩
    · exact absurd (hsign.symm.trans (Finding.sign_eq_zero hzero)) hsoft
    · rw [← hkey, ← hsign, ← hone]
      exact f.key_cases ids
  constructor
  · intro hleads
    rcases hprefers hne (fun _ => id) hleads with ⟨hkey, _⟩ | ⟨_, hsign⟩
    · exact absurd (Prod.mk.inj hkey).1 hne
    · exact hsign
  · intro hleads
    rcases hprefers hne.symm (fun _ => Or.symm) hleads with ⟨_, hsign⟩ | ⟨hkey, _⟩
    · exact hsign
    · exact absurd (Prod.mk.inj hkey).1 hne

/-- No word is read as both tokens of a soft entry. -/
theorem not_both_of_soft (hsound : a.IsSound) {o : Overlap} (ho : o ∈ a.overlaps ids together)
    (hne : o.first ≠ o.second) (hsoft : o.soft ≠ 0) (word : List Nat) :
    ¬ (o.first ∈ a.accepted word ∧ o.second ∈ a.accepted word) := by
  rintro ⟨hfirst, hsecond⟩
  obtain ⟨f, hf, hof, hzero⟩ := exists_finding_of_both hsound hne hfirst hsecond
  obtain ⟨_, hsign⟩ := soft_eq_sign h hfull hstart hids ho hne hsoft hf hof
  exact hsoft (hsign.symm.trans (Finding.sign_eq_zero hzero))

end

theorem exists_involves_iff (h : a.IsOrdered) (hsound : a.IsSound)
    (hstart : (a.state 0).accepting = []) {x y : Term} (hne : x ≠ y) :
    (∃ o ∈ a.overlaps ids together, o.involves x y = true) ↔ a.LeadsOn x y ∨ a.LeadsOn y x := by
  constructor
  · rintro ⟨o, ho, hinvolves⟩
    obtain ⟨f, hf, hof, _⟩ := exists_finding_of_involves ho hinvolves
    have hleads := leadsOn_of_mem_findings h hsound.full hstart hf
    rcases hof with ⟨rfl, rfl⟩ | ⟨rfl, rfl⟩
    · exact .inr hleads
    · exact .inl hleads
  · rintro (hleads | hleads)
    · obtain ⟨f, hf, hof, _⟩ := exists_finding_of_leadsOn hsound hne hleads
      obtain ⟨o, ho, hinvolves, _⟩ := exists_involves_of_finding hf hof
      exact ⟨o, ho, hinvolves⟩
    · obtain ⟨f, hf, hof, _⟩ := exists_finding_of_leadsOn hsound hne.symm hleads
      obtain ⟨o, ho, hinvolves, _⟩ := exists_involves_of_finding hf hof.symm
      exact ⟨o, ho, hinvolves⟩

end Dfa

/-- What tokens are compiled to is in order, and no token ends in its first state. -/
theorem Nfa.starts_of_compile {nfa : Nfa} {start : Nat} {terms : TermTable} {compiled a : Dfa}
    (hcompile : nfa.compile start terms = .ok compiled)
    (ha : a = compiled ∨ a = compiled.minimize) :
    a.IsOrdered ∧ a.IsSound ∧ (a.state 0).accepting = [] := by
  have hreads := nfa.compile_reads start terms
  rw [hcompile] at hreads
  obtain ⟨hempty, _, _, hwords⟩ := hreads
  have hordered := isOrdered_of_compile hcompile
  have hsound := isSound_of_compile hcompile
  have hstart : (compiled.state 0).accepting = [] := by
    refine List.eq_nil_iff_forall_not_mem.mpr fun t ht => hempty t ?_
    exact ((hwords []).2 t).mp ht
  rcases ha with rfl | rfl
  · exact ⟨hordered, hsound, hstart⟩
  · refine ⟨Dfa.isOrdered_minimize hordered, Dfa.isSound_minimize hsound, ?_⟩
    exact (Option.some.inj (Dfa.map_accepting_minimize hordered [])).trans hstart

/-- Two different tokens have at most one entry among the overlaps. They have one
exactly if a non-empty word that is read as one of the two is also read as the
other one or goes on to a word that is. If it is soft, no word is read as both of
them, and wherever a word of one goes on to a word of the other, the longer word
is one of the first token of the entry if `soft` is positive, and of the second
if it is negative. -/
theorem Nfa.overlaps_iff {nfa : Nfa} {start : Nat} {terms : TermTable} {compiled a : Dfa}
    (hcompile : nfa.compile start terms = .ok compiled)
    (ha : a = compiled ∨ a = compiled.minimize) {ids : Term → Nat}
    (hids : Set.InjOn ids {t | ∃ word, t ∈ a.accepted word}) (together : Term → Term → Bool)
    {x y : Term} (hne : x ≠ y) :
    (a.overlaps ids together).countP (·.involves x y) ≤ 1 ∧
      ((∃ o ∈ a.overlaps ids together, o.involves x y = true) ↔ a.LeadsOn x y ∨ a.LeadsOn y x) ∧
      ∀ o ∈ a.overlaps ids together, o.involves x y = true → o.soft ≠ 0 →
        (∀ word, ¬ (x ∈ a.accepted word ∧ y ∈ a.accepted word)) ∧
        ((0 < o.soft ∧ a.LeadsOn o.second o.first ∧ ¬ a.LeadsOn o.first o.second) ∨
          (o.soft < 0 ∧ a.LeadsOn o.first o.second ∧ ¬ a.LeadsOn o.second o.first)) := by
  obtain ⟨h, hsound, hstart⟩ := starts_of_compile hcompile ha
  have hiff {x y : Term} (hne : x ≠ y) :
      (∃ o ∈ a.overlaps ids together, o.involves x y = true) ↔ a.LeadsOn x y ∨ a.LeadsOn y x :=
    Dfa.exists_involves_iff h hsound hstart hne
  refine ⟨Dfa.countP_involves_le h hsound.full hstart hids hne, hiff hne, ?_⟩
  intro o ho hinvolves hsoft
  have hne' : o.first ≠ o.second := by
    rcases Overlap.involves_iff.mp hinvolves with hkey | hkey <;>
      obtain ⟨rfl, rfl⟩ := Prod.mk.inj hkey
    · exact hne
    · exact hne.symm
  have hboth := Dfa.not_both_of_soft h hsound.full hstart hids hsound ho hne' hsoft
  obtain ⟨hfirst, hsecond⟩ := Dfa.soft_of_leadsOn h hsound.full hstart hids hsound ho hne' hsoft
  refine ⟨fun word hword => ?_, ?_⟩
  · rcases Overlap.involves_iff.mp hinvolves with hkey | hkey <;>
      obtain ⟨rfl, rfl⟩ := Prod.mk.inj hkey
    · exact hboth word hword
    · exact hboth word hword.symm
  · rcases (hiff hne').mp ⟨o, ho, Overlap.involves_iff.mpr (.inl rfl)⟩ with hleads | hleads
    · have hsign := hfirst hleads
      exact .inr ⟨by omega, hleads, fun hother => by have := hsecond hother; omega⟩
    · have hsign := hsecond hleads
      exact .inl ⟨by omega, hleads, fun hother => by have := hfirst hother; omega⟩

/-- `a` as one token and `ab` as another one. -/
def prefixTokens : Nfa :=
  ⟨#[{ edges := [⟨0x61, 0x62, 1⟩] }, { accepting := [⟨2⟩], edges := [⟨0x62, 0x63, 2⟩] },
    { accepting := [⟨3⟩] }]⟩

/-- The one entry prefers the second token, and only the first one ever ends where
the other goes on. -/
theorem Nfa.overlaps_iff_prefixTokens : ∃ compiled o,
    prefixTokens.compile 0 ⟨#[], []⟩ = .ok compiled ∧
      compiled.minimize.overlaps Term.index (fun _ _ => true) = [o] ∧
      o.involves ⟨2⟩ ⟨3⟩ = true ∧ 0 < o.soft ∧ compiled.minimize.LeadsOn o.second o.first ∧
      ¬ compiled.minimize.LeadsOn o.first o.second := by
  have hcheck : ((prefixTokens.compile 0 ⟨#[], []⟩).toOption.any fun compiled =>
      decide ((compiled.minimize.overlaps Term.index fun _ _ => true).length = 1 ∧
        ∀ o ∈ compiled.minimize.overlaps Term.index (fun _ _ => true),
          o.involves ⟨2⟩ ⟨3⟩ = true ∧ o.soft = 1)) = true := by
    decide +kernel
  obtain ⟨compiled, hcompile, hcheck⟩ := exists_ok_of_any hcheck
  obtain ⟨hlength, hentry⟩ := of_decide_eq_true hcheck
  obtain ⟨o, ho⟩ := List.length_eq_one_iff.mp hlength
  obtain ⟨hinvolves, hsoft⟩ := hentry o (ho ▸ List.mem_singleton_self o)
  have hids : Set.InjOn Term.index {t | ∃ word, t ∈ compiled.minimize.accepted word} :=
    fun _ _ _ _ => Term.eq_of_index_eq
  obtain ⟨_, _, hsoftly⟩ := overlaps_iff hcompile (.inr rfl) hids (fun _ _ => true)
    (show (⟨2⟩ : Term) ≠ ⟨3⟩ by decide)
  obtain ⟨_, hsign⟩ := hsoftly o (ho ▸ List.mem_singleton_self o) hinvolves (by omega)
  obtain ⟨hpos, hleads, hnot⟩ := hsign.resolve_right (by omega)
  exact ⟨compiled, o, hcompile, ho, hinvolves, hpos, hleads, hnot⟩

end GrammarCompiler
