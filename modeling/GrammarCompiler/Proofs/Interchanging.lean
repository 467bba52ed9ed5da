/-
GrammarCompiler.Proofs.Interchanging — expressions that can stand for each other.

Two expressions that come to the same when they are spliced have the same phrases, and
building one of them adds the same symbols and rules as building the other. By
induction on the depth: a sequence is normalized like the pieces it comes to, and a
choice like the alternatives, one after the other.

  §1 Pieces    — runs over the pieces of spliced expressions.
  §2 Sequences — have the phrases of their pieces.
  §3 Choices   — have the phrases of their alternatives.
  §4 Agreement — of expressions that are spliced alike.
  §5 Texts     — of expressions that print alike.
-/
import GrammarCompiler.Proofs.Agreeing

namespace GrammarCompiler

open GrammarCompiler.Expr (outline spliced splice spliceSequence branchesOf barePiece pieces
  piecesOf)
open GrammarCompiler.Phrase (ArePieces arePieces_append arePieces_inl arePieces_inr arePieces_nil
  between phrasesOf)

/-! ## §1 Pieces -/

namespace GrammarDecl

variable (decl : GrammarDecl)

theorem isSorted_gapMarks (m : Marker) : (decl.gapMarks m).here.IsSorted := by
  rw [gapMarks, GapMarks.ofMarker.eq_def]
  split
  · exact List.pairwise_singleton _ _
  · split
    · exact Marks.isSorted_none
    · rw [GapMarks.ofPrecedence.eq_def]
      split <;> exact Marks.isSorted_none

/-- What markers say, if all of them say something. -/
theorem gaps_eq {markers : List (List Marker)} {gaps : List GapMarks}
    (h : markers.mapM (GapMarks.ofMarkers decl.precedenceItems) = .ok gaps) :
    gaps = (markers.map fun gap => gap.map decl.gapMarks).map GapMarks.joinAll := by
  rw [GapMarks.mapM_ofMarkers_eq] at h
  cases hsaid : GapMarks.ofGaps decl.precedenceItems markers with
  | error e =>
    rw [hsaid] at h
    cases h
  | ok said =>
    rw [hsaid] at h
    obtain rfl : said.map GapMarks.joinAll = gaps := Except.ok.inj h
    have hgap (gap : List Marker) (g : List GapMarks)
        (h : gap.mapM (GapMarks.ofMarker decl.precedenceItems) = .ok g) :
        gap.map decl.gapMarks = g := by
      refine List.forall₂_eq_eq_eq ▸ List.forall₂_map_left_iff.mpr ?_
      refine (forall₂_of_mapM h).imp fun m g hm => ?_
      rw [gapMarks, hm]
      rfl
    have hall : markers.map (fun gap => gap.map decl.gapMarks) = said :=
      List.forall₂_eq_eq_eq ▸ List.forall₂_map_left_iff.mpr ((forall₂_of_mapM hsaid).imp hgap)
    rw [hall]

end GrammarDecl

namespace Build

variable {ctx : Declared} {skip : Term} {fuel fuel' : Nat}

/-- A run over pieces, one after the other. Markers say what they say, and an element is the spliced
form of an expression that is normalized, less than `fuel` levels deep. -/
inductive Runs (ctx : Declared) (skip : Term) (fuel : Nat) :
    List (Marker ⊕ Expr) → Draft → List (GapMarks ⊕ List Phrase) → Draft → Prop
  | nil (d : Draft) : Runs ctx skip fuel [] d [] d
  | marker (m : Marker) {ps : List (Marker ⊕ Expr)} {values : List (GapMarks ⊕ List Phrase)}
      {d d' : Draft} (h : Runs ctx skip fuel ps d values d') :
      Runs ctx skip fuel (.inl m :: ps) d (.inl (ctx.decl.gapMarks m) :: values) d'
  | element {depth : Nat} {e : Expr} {phrases : List Phrase} {ps : List (Marker ⊕ Expr)}
      {values : List (GapMarks ⊕ List Phrase)} {d d₁ d' : Draft} (hdepth : depth < fuel)
      (he : normalizeTo depth skip e ctx d = .ok phrases d₁)
      (h : Runs ctx skip fuel ps d₁ values d') :
      Runs ctx skip fuel (.inr (spliced ctx.decl true e) :: ps) d (.inr phrases :: values) d'

namespace Runs

variable {ps ps' : List (Marker ⊕ Expr)} {values values' : List (GapMarks ⊕ List Phrase)}
  {d d₁ d' e e' : Draft}

theorem mono (h : Runs ctx skip fuel ps d values d') (hle : fuel ≤ fuel') :
    Runs ctx skip fuel' ps d values d' := by
  induction h with
  | nil d => exact .nil d
  | marker m _ ih => exact .marker m ih
  | element hdepth he _ ih => exact .element (hdepth.trans_le hle) he ih

theorem append (h : Runs ctx skip fuel ps d values d₁) (h' : Runs ctx skip fuel ps' d₁ values' d') :
    Runs ctx skip fuel (ps ++ ps') d (values ++ values') d' := by
  induction h with
  | nil d => exact h'
  | marker m _ ih => exact .marker m (ih h')
  | element hdepth he _ ih => exact .element hdepth he (ih h')

theorem markers (gap : List Marker) (d : Draft) :
    Runs ctx skip fuel (gap.map .inl) d ((gap.map ctx.decl.gapMarks).map .inl) d := by
  induction gap with
  | nil => exact .nil d
  | cons m gap ih => exact .marker m ih

theorem any_isRight (h : Runs ctx skip fuel ps d values d') :
    values.any Sum.isRight = ps.any Sum.isRight := by
  induction h with
  | nil d => rfl
  | marker m _ ih => simpa using ih
  | element _ _ _ ih => rfl

theorem exists_marker (h : Runs ctx skip fuel ps d values d') {g : GapMarks}
    (hg : .inl g ∈ values) : ∃ m, .inl m ∈ ps ∧ g = ctx.decl.gapMarks m := by
  induction h with
  | nil d => cases hg
  | marker m _ ih =>
    rcases List.mem_cons.mp hg with heq | hg
    · exact ⟨m, List.mem_cons_self, Sum.inl.inj heq⟩
    · obtain ⟨m', hm', rfl⟩ := ih hg
      exact ⟨m', List.mem_cons_of_mem _ hm', rfl⟩
  | element _ _ _ ih =>
    obtain ⟨m', hm', rfl⟩ := ih ((List.mem_cons.mp hg).resolve_left nofun)
    exact ⟨m', List.mem_cons_of_mem _ hm', rfl⟩

theorem arePieces (h : Runs ctx skip fuel ps d values d') : ArePieces values := by
  induction h with
  | nil d => exact arePieces_nil
  | marker m _ ih => exact arePieces_inl.mpr ⟨ctx.decl.isSorted_gapMarks m, ih⟩
  | element _ he _ ih =>
    exact arePieces_inr.mpr ⟨yields_isMarked_normalizeTo _ _ _ _ _ he, ih⟩

/-- Runs over pieces that are the same apart from places do the same, if elements do. -/
theorem agree (hagain : ∀ depth < fuel, ∀ depth' a a',
      outline ctx.decl true a = outline ctx.decl true a' →
      Agree ctx Eq (normalizeTo depth skip a) (normalizeTo depth' skip a'))
    (h : Runs ctx skip fuel ps d values e) (h' : Runs ctx skip fuel' ps' d' values' e')
    (hd : d.Alike d') (hps : ps.map barePiece = ps'.map barePiece) :
    values = values' ∧ e.Alike e' := by
  induction h generalizing ps' d' values' with
  | nil d =>
    obtain rfl := List.map_eq_nil_iff.mp hps.symm
    cases h'
    exact ⟨rfl, hd⟩
  | marker m _ ih =>
    obtain ⟨p, ps', rfl, hp, hrest⟩ := List.map_eq_cons_iff.mp hps.symm
    cases h' with
    | marker m' h' =>
      have hm : ctx.decl.gapMarks m = ctx.decl.gapMarks m' := by
        rw [← GrammarDecl.gapMarks_bare, ← Sum.inl.inj hp, GrammarDecl.gapMarks_bare]
      obtain ⟨rfl, he⟩ := ih h' hd hrest.symm
      exact ⟨by rw [hm], he⟩
    | element => cases hp
  | element hdepth he _ ih =>
    obtain ⟨p, ps', rfl, hp, hrest⟩ := List.map_eq_cons_iff.mp hps.symm
    cases h' with
    | marker => cases hp
    | element _ he' h' =>
      obtain ⟨rfl, hd₁⟩ := hagain _ hdepth _ _ _ (Sum.inr.inj hp).symm hd he he'
      obtain ⟨rfl, he⟩ := ih h' hd₁ hrest.symm
      exact ⟨rfl, he⟩

end Runs

/-! ## §2 Sequences -/

theorem splice_markers (decl : GrammarDecl) (gap : List Marker) (ps : List (Marker ⊕ Expr)) :
    splice decl (gap.map .inl ++ ps) = gap.map .inl ++ splice decl ps := by
  induction gap with
  | nil => rfl
  | cons m gap ih => rw [List.map_cons, List.cons_append, splice, ih, List.cons_append]

theorem any_isRight_pieces (elements : List Expr) (markers : List (List Marker)) :
    (pieces elements markers).any Sum.isRight = (elements.length != 0) := by
  cases elements <;> simp [pieces]

theorem any_isRight_between (choices : List (List Phrase)) (said : List (List GapMarks)) :
    (between choices said).any Sum.isRight = (choices.length != 0) := by
  cases choices <;> simp [between]

theorem arePieces_between {choices : List (List Phrase)} {said : List (List GapMarks)}
    (hchoices : ∀ ps ∈ choices, ∀ p ∈ ps, p.IsMarked)
    (hsaid : ∀ gap ∈ said, ∀ g ∈ gap, g.here.IsSorted) : ArePieces (between choices said) := by
  have hmarks (gaps : List GapMarks) (h : ∀ g ∈ gaps, g.here.IsSorted) :
      ArePieces (gaps.map .inl) := by
    refine ⟨fun g hg => ?_, by simp⟩
    obtain ⟨g', hg', heq⟩ := List.mem_map.mp hg
    exact Sum.inl.inj heq ▸ h g' hg'
  induction choices generalizing said with
  | nil =>
    refine hmarks _ fun g hg => ?_
    obtain ⟨gap, hgap, hg⟩ := List.mem_flatten.mp hg
    exact hsaid gap hgap g hg
  | cons ps choices ih =>
    obtain ⟨hps, hchoices⟩ := List.forall_mem_cons.mp hchoices
    cases said with
    | nil => exact arePieces_inr.mpr ⟨hps, ih hchoices nofun⟩
    | cons gap said =>
      obtain ⟨hgap, hsaid⟩ := List.forall_mem_cons.mp hsaid
      exact arePieces_append.mpr ⟨hmarks gap hgap, arePieces_inr.mpr ⟨hps, ih hchoices hsaid⟩⟩

/-- What the markers of a sequence say, between the phrases of its elements. -/
theorem arePieces_elements {elements : List Expr} {choices : List (List Phrase)} {d d' : Draft}
    (h : elements.mapM (normalizeTo fuel skip) ctx d = .ok choices d')
    (markers : List (List Marker)) : choices.length = elements.length ∧
      ArePieces (between choices (markers.map fun gap => gap.map ctx.decl.gapMarks)) := by
  obtain ⟨hcount, hmarked⟩ := yields_isMarked_mapM
    (fun skip e _ => yields_isMarked_normalizeTo fuel skip e) skip elements _ _ h
  refine ⟨hcount, arePieces_between hmarked fun gap hgap g hg => ?_⟩
  obtain ⟨gap, -, rfl⟩ := List.mem_map.mp hgap
  obtain ⟨m, -, rfl⟩ := List.mem_map.mp hg
  exact ctx.decl.isSorted_gapMarks m

/-- Sequences that are normalized at most `fuel` levels deep have the phrases of their pieces. -/
def Unnests (ctx : Declared) (skip : Term) (fuel : Nat) : Prop :=
  ∀ ⦃e : Expr⦄ ⦃start : Nat⦄ ⦃elements : List Expr⦄ ⦃markers : List (List Marker)⦄
    ⦃phrases : List Phrase⦄ ⦃d d' : Draft⦄,
    spliced ctx.decl true e = .sequence start elements markers →
    markers.length = elements.length + 1 → normalizeTo fuel skip e ctx d = .ok phrases d' →
    ∃ values, Runs ctx skip fuel (pieces elements markers) d values d' ∧
      phrases = phrasesOf values

/-- An element has its phrases, or is a sequence whose pieces can take its place. -/
theorem Unnests.exists_runs_element (h : Unnests ctx skip fuel) {e : Expr} {phrases : List Phrase}
    {d d' : Draft} (he : normalizeTo fuel skip e ctx d = .ok phrases d')
    (behind : List (Marker ⊕ Expr)) {rest : List (GapMarks ⊕ List Phrase)} (hrest : ArePieces rest)
    (hany : rest.any Sum.isRight = behind.any Sum.isRight) :
    ∃ values, Runs ctx skip (fuel + 1)
        (if (spliced ctx.decl true e).joins ctx.decl behind then
          piecesOf (.inr (spliced ctx.decl true e))
        else [.inr (spliced ctx.decl true e)]) d values d' ∧
      ∀ before, ArePieces before →
        phrasesOf (before ++ .inr phrases :: rest) = phrasesOf (before ++ (values ++ rest)) := by
  split
  next hjoins =>
    obtain ⟨start, elements, markers, heq, hne, hlength, hquiet⟩ := Expr.joins_iff.mp hjoins
    obtain ⟨values, hruns, rfl⟩ := h heq hlength he
    have hfull : (Expr.sequence start elements markers).isEmpty = false := by
      simp [Expr.isEmpty, hne]
    have helements : values.any Sum.isRight = true := by
      simp [hruns.any_isRight, any_isRight_pieces, hne]
    rw [heq, Expr.piecesOf_sequence hfull]
    refine ⟨values, hruns.mono (Nat.le_succ fuel), fun before hbefore => ?_⟩
    refine Phrase.phrasesOf_nested hbefore hruns.arePieces hrest helements ?_
    refine hquiet.imp (fun hquiet g hg => ?_) hany.trans
    obtain ⟨m, hm, rfl⟩ := hruns.exists_marker hg
    rw [← Expr.mem_markers_ofPieces, Expr.ofPieces_pieces hlength] at hm
    exact beq_iff_eq.mp (hquiet m hm)
  next =>
    exact ⟨[.inr phrases], .element (Nat.lt_succ_self fuel) he (.nil d'), fun before _ => rfl⟩

/-- The elements of a sequence can be normalized piece by piece. -/
theorem Unnests.exists_runs (h : Unnests ctx skip fuel) {elements : List Expr}
    {choices : List (List Phrase)} {d d' : Draft} (markers : List (List Marker))
    (hrun : elements.mapM (normalizeTo fuel skip) ctx d = .ok choices d') :
    ∃ values, Runs ctx skip (fuel + 1)
        (splice ctx.decl (pieces (elements.map (spliced ctx.decl true)) markers)) d values d' ∧
      ∀ before, ArePieces before → phrasesOf (before ++ between choices
          (markers.map fun gap => gap.map ctx.decl.gapMarks)) = phrasesOf (before ++ values) := by
  induction elements generalizing d choices markers with
  | nil =>
    cases hrun
    rw [List.map_nil, pieces, ← List.append_nil (markers.flatten.map _), splice_markers, splice,
      List.append_nil]
    refine ⟨_, .markers markers.flatten d', fun before _ => ?_⟩
    change phrasesOf (before ++ (List.flatten _).map .inl) = _
    rw [← List.map_flatten]
  | cons e elements ih =>
    rw [List.mapM_cons] at hrun
    obtain ⟨phrases, d₁, he, hrun⟩ := exists_ok_of_bind hrun
    obtain ⟨choices, d₂, hchoices, hrun⟩ := exists_ok_of_bind hrun
    cases hrun
    obtain ⟨rest, hrest, hbehind⟩ := ih markers.tail hchoices
    let said := markers.tail.map fun gap => gap.map ctx.decl.gapMarks
    obtain ⟨hcount, hpieces⟩ := arePieces_elements hchoices markers.tail
    have hany : (between choices said).any Sum.isRight =
        (pieces (elements.map (spliced ctx.decl true)) markers.tail).any Sum.isRight := by
      rw [any_isRight_between, any_isRight_pieces, List.length_map, hcount]
    obtain ⟨here, hhere, hvalues⟩ := h.exists_runs_element he _ hpieces hany
    let gap := markers.head?.getD []
    let said' : List (GapMarks ⊕ List Phrase) := (gap.map ctx.decl.gapMarks).map .inl
    have hgap : Runs ctx skip (fuel + 1) (gap.map .inl) d said' d := .markers gap d
    refine ⟨said' ++ (here ++ rest), ?_, fun before hbefore => ?_⟩
    · rw [List.map_cons, pieces, splice_markers, splice]
      exact hgap.append (hhere.append hrest)
    · have hsplit : between (phrases :: choices) (markers.map fun gap => gap.map ctx.decl.gapMarks) =
          said' ++ .inr phrases :: between choices said := by
        cases markers <;> rfl
      have hfront : ArePieces (before ++ said') := arePieces_append.mpr ⟨hbefore, hgap.arePieces⟩
      calc phrasesOf (before ++ between (phrases :: choices) _)
        _ = phrasesOf ((before ++ said') ++ .inr phrases :: between choices said) := by
          rw [hsplit, List.append_assoc]
        _ = phrasesOf ((before ++ said') ++ (here ++ between choices said)) := hvalues _ hfront
        _ = phrasesOf (((before ++ said') ++ here) ++ between choices said) := by
          rw [List.append_assoc _ here]
        _ = phrasesOf (((before ++ said') ++ here) ++ rest) :=
          hbehind _ (arePieces_append.mpr ⟨hfront, hhere.arePieces⟩)
        _ = phrasesOf (before ++ (said' ++ (here ++ rest))) := by
          simp only [List.append_assoc]

theorem unnests (ctx : Declared) (skip : Term) (fuel : Nat) : Unnests ctx skip fuel := by
  induction fuel with
  | zero =>
    intro e start elements markers phrases d d' _ _ h
    cases h
  | succ fuel ih =>
    intro e start elements markers phrases d d' heq hlength h
    cases e with
    | sequence start' elements' markers' =>
      obtain ⟨choices, gaps, hchoices, hgaps, rfl⟩ := yields_sequence fuel skip _ _ _ _ _ h
      obtain ⟨hcount, hpieces⟩ := arePieces_elements hchoices markers'
      obtain ⟨values, hruns, hvalues⟩ := ih.exists_runs markers' hchoices
      rw [spliced, Expr.splicedAll_eq, if_pos rfl, Expr.sequence.injEq] at heq
      obtain ⟨rfl, rfl, rfl⟩ := heq
      rw [spliceSequence] at hlength ⊢
      split at hlength
      next hguard =>
        rw [if_pos hguard, Expr.pieces_ofPieces]
        refine ⟨values, hruns, ?_⟩
        rw [List.length_map] at hguard
        rw [ctx.decl.gaps_eq hgaps, Phrase.sequencePhrases_eq _ hpieces]
        · exact hvalues [] arePieces_nil
        · rw [List.length_map, hguard, hcount]
      next hguard => exact absurd hlength hguard
    | _ => cases heq

/-! ## §3 Choices -/

/-- The phrases of alternatives, one after the other. -/
def choiceOf (values : List (GapMarks ⊕ List Phrase)) : List Phrase :=
  values.flatMap (Sum.elim (fun _ => []) id)

theorem choiceOf_append (values values' : List (GapMarks ⊕ List Phrase)) :
    choiceOf (values ++ values') = choiceOf values ++ choiceOf values' :=
  List.flatMap_append

/-- A choice that is normalized at most `fuel` levels deep has the phrases of its alternatives, and
what is no choice is its only alternative. -/
def Branches (ctx : Declared) (skip : Term) (fuel : Nat) : Prop :=
  ∀ ⦃e : Expr⦄ ⦃phrases : List Phrase⦄ ⦃d d' : Draft⦄,
    normalizeTo fuel skip e ctx d = .ok phrases d' →
    ∃ values, Runs ctx skip (fuel + 1)
        ((branchesOf (spliced ctx.decl true e)).map .inr) d values d' ∧
      phrases = choiceOf values

theorem Branches.exists_runs (h : Branches ctx skip fuel) {es : List Expr}
    {choices : List (List Phrase)} {d d' : Draft}
    (hrun : es.mapM (normalizeTo fuel skip) ctx d = .ok choices d') :
    ∃ values, Runs ctx skip (fuel + 1)
        (((es.map (spliced ctx.decl true)).flatMap branchesOf).map .inr) d values d' ∧
      choices.flatten = choiceOf values := by
  induction es generalizing d choices with
  | nil =>
    cases hrun
    exact ⟨[], .nil d', rfl⟩
  | cons e es ih =>
    rw [List.mapM_cons] at hrun
    obtain ⟨phrases, d₁, he, hrun⟩ := exists_ok_of_bind hrun
    obtain ⟨choices, d₂, hchoices, hrun⟩ := exists_ok_of_bind hrun
    cases hrun
    obtain ⟨here, hhere, rfl⟩ := h he
    obtain ⟨rest, hrest, hflatten⟩ := ih hchoices
    refine ⟨here ++ rest, ?_, by rw [List.flatten_cons, hflatten, choiceOf_append]⟩
    rw [List.map_cons, List.flatMap_cons, List.map_append]
    exact hhere.append hrest

theorem branches (ctx : Declared) (skip : Term) (fuel : Nat) : Branches ctx skip fuel := by
  induction fuel with
  | zero =>
    intro e phrases d d' h
    cases h
  | succ fuel ih =>
    intro e phrases d d' h
    have hone : ∃ values, Runs ctx skip (fuel + 2) [.inr (spliced ctx.decl true e)] d values d' ∧
        phrases = choiceOf values :=
      ⟨[.inr phrases], .element (Nat.lt_succ_self _) h (.nil d'), (List.append_nil _).symm⟩
    rw [branchesOf]
    split
    next => exact hone
    next =>
      cases e with
      | choice start alternatives =>
        obtain ⟨choices, d₁, hchoices, h⟩ := exists_ok_of_bind h
        cases h
        obtain ⟨values, hruns, hvalues⟩ := ih.exists_runs hchoices
        rw [spliced, Expr.splicedAll_eq]
        exact ⟨values, hruns.mono (Nat.le_succ _), hvalues⟩
      | _ => exact hone

/-! ## §4 Agreement -/

/-- If the gaps do not fit the elements, nothing is spliced in. -/
theorem spliceSequence_eq_of_length_ne {decl : GrammarDecl} {elements : List Expr}
    {markers : List (List Marker)} (h : (spliceSequence decl elements markers).2.length ≠
      (spliceSequence decl elements markers).1.length + 1) :
    spliceSequence decl elements markers = (elements, markers) := by
  rw [spliceSequence] at h ⊢
  split at h
  · exact absurd (Expr.length_ofPieces _) h
  next hguard => exact if_neg hguard

section

variable (hagain : ∀ depth < fuel + 1, ∀ depth' a a',
  outline ctx.decl true a = outline ctx.decl true a' →
    Agree ctx Eq (normalizeTo depth skip a) (normalizeTo depth' skip a'))

include hagain

theorem agree_choice {start start' : Nat} {alternatives alternatives' : List Expr}
    (h : outline ctx.decl true (.choice start alternatives) =
      outline ctx.decl true (.choice start' alternatives')) :
    Agree ctx Eq (normalizeTo (fuel + 1) skip (.choice start alternatives))
      (normalizeTo (fuel' + 1) skip (.choice start' alternatives')) := by
  intro d d' phrases phrases' e e' hd hrun hrun'
  obtain ⟨choices, d₁, hchoices, hrun⟩ := exists_ok_of_bind hrun
  obtain ⟨choices', d₁', hchoices', hrun'⟩ := exists_ok_of_bind hrun'
  cases hrun
  cases hrun'
  obtain ⟨values, hruns, hvalues⟩ := (branches ctx skip fuel).exists_runs hchoices
  obtain ⟨values', hruns', hvalues'⟩ := (branches ctx skip fuel').exists_runs hchoices'
  simp only [outline, spliced, Expr.splicedAll_eq, Expr.bare, Expr.bareAll_eq,
    Expr.choice.injEq, true_and] at h
  have hinr := congrArg (List.map (Sum.inr : Expr → Marker ⊕ Expr)) h
  obtain ⟨rfl, he⟩ := hruns.agree hagain hruns' hd
    (by simpa only [List.map_map, Function.comp_def, Sum.map_inr] using hinr)
  exact ⟨hvalues.trans hvalues'.symm, he⟩

/-- Sequences with elements that are spliced alike, and with the same markers. -/
theorem agree_sequence_kept {start start' : Nat} {elements elements' : List Expr}
    {markers markers' : List (List Marker)}
    (helements : elements.map (outline ctx.decl true) = elements'.map (outline ctx.decl true))
    (hmarkers : markers.map (fun gap => gap.map Marker.bare) =
      markers'.map fun gap => gap.map Marker.bare) :
    Agree ctx Eq (normalizeTo (fuel + 1) skip (.sequence start elements markers))
      (normalizeTo (fuel' + 1) skip (.sequence start' elements' markers')) := by
  intro d d' phrases phrases' e e' hd hrun hrun'
  obtain ⟨choices, gaps, hchoices, hgaps, rfl⟩ := yields_sequence fuel skip _ _ _ _ _ hrun
  obtain ⟨choices', gaps', hchoices', hgaps', rfl⟩ := yields_sequence fuel' skip _ _ _ _ _ hrun'
  have hsame : List.Forall₂ (fun a a' => outline ctx.decl true a = outline ctx.decl true a')
      elements elements' :=
    List.forall₂_map_right_iff.mp
      (List.forall₂_map_left_iff.mp (List.forall₂_eq_eq_eq ▸ helements))
  obtain ⟨hchoice, he⟩ := Agree.mapM (hsame.imp fun a a' ha =>
    hagain fuel (Nat.lt_succ_self fuel) fuel' a a' ha) hd hchoices hchoices'
  rw [List.forall₂_eq_eq_eq] at hchoice
  have hsaid (markers : List (List Marker)) : markers.map (fun gap => gap.map ctx.decl.gapMarks) =
      (markers.map fun gap => gap.map Marker.bare).map fun gap => gap.map ctx.decl.gapMarks := by
    simp [Function.comp_def, GrammarDecl.gapMarks_bare]
  rw [hchoice, ctx.decl.gaps_eq hgaps, ctx.decl.gaps_eq hgaps', hsaid markers, hmarkers,
    ← hsaid markers']
  exact ⟨rfl, he⟩

theorem agree_sequence {start start' : Nat} {elements elements' : List Expr}
    {markers markers' : List (List Marker)}
    (h : outline ctx.decl true (.sequence start elements markers) =
      outline ctx.decl true (.sequence start' elements' markers')) :
    Agree ctx Eq (normalizeTo (fuel + 1) skip (.sequence start elements markers))
      (normalizeTo (fuel' + 1) skip (.sequence start' elements' markers')) := by
  intro d d' phrases phrases' e e' hd hrun hrun'
  obtain ⟨parts, hparts⟩ : ∃ parts, spliceSequence ctx.decl
    (elements.map (spliced ctx.decl true)) markers = parts := ⟨_, rfl⟩
  obtain ⟨parts', hparts'⟩ : ∃ parts', spliceSequence ctx.decl
    (elements'.map (spliced ctx.decl true)) markers' = parts' := ⟨_, rfl⟩
  have heq : spliced ctx.decl true (.sequence start elements markers) =
      .sequence start parts.1 parts.2 := by
    rw [spliced, Expr.splicedAll_eq, if_pos rfl, hparts]
  have heq' : spliced ctx.decl true (.sequence start' elements' markers') =
      .sequence start' parts'.1 parts'.2 := by
    rw [spliced, Expr.splicedAll_eq, if_pos rfl, hparts']
  simp only [outline, heq, heq', Expr.bare, Expr.bareAll_eq, Expr.sequence.injEq, true_and] at h
  obtain ⟨helements, hmarkers⟩ := h
  have hcount := congrArg List.length helements
  have hcount' := congrArg List.length hmarkers
  rw [List.length_map, List.length_map] at hcount hcount'
  by_cases hlength : parts.2.length = parts.1.length + 1
  · have hlength' : parts'.2.length = parts'.1.length + 1 := by rw [← hcount, ← hcount', hlength]
    obtain ⟨values, hruns, rfl⟩ := unnests ctx skip _ heq hlength hrun
    obtain ⟨values', hruns', rfl⟩ := unnests ctx skip _ heq' hlength' hrun'
    have hpieces : (pieces parts.1 parts.2).map barePiece =
        (pieces parts'.1 parts'.2).map barePiece := by
      rw [← Expr.pieces_bare, helements, hmarkers, Expr.pieces_bare]
    obtain ⟨rfl, he⟩ := hruns.agree hagain hruns' hd hpieces
    exact ⟨rfl, he⟩
  · have hlength' : parts'.2.length ≠ parts'.1.length + 1 := by rwa [← hcount, ← hcount']
    rw [← hparts] at hlength
    rw [← hparts'] at hlength'
    obtain rfl := hparts.symm.trans (spliceSequence_eq_of_length_ne hlength)
    obtain rfl := hparts'.symm.trans (spliceSequence_eq_of_length_ne hlength')
    rw [List.map_map, List.map_map] at helements
    exact agree_sequence_kept hagain helements hmarkers hd hrun hrun'

end

/-- Expressions that are spliced alike have the same phrases, and building them adds the same
symbols and rules. -/
theorem agree_normalizeTo (fuel fuel' : Nat) (skip : Term) {e e' : Expr}
    (h : outline ctx.decl true e = outline ctx.decl true e') :
    Agree ctx Eq (normalizeTo fuel skip e) (normalizeTo fuel' skip e') := by
  induction fuel using Nat.strong_induction_on generalizing fuel' skip e e' with
  | _ fuel ih =>
    cases fuel with
    | zero => exact agree_raise _ _
    | succ fuel =>
      cases fuel' with
      | zero => exact agree_raise_right _ _
      | succ fuel' =>
        have hagain (skip : Term) (body body' : Expr)
            (h : outline ctx.decl true body = outline ctx.decl true body') :
            Agree ctx Eq (normalizeTo fuel skip body) (normalizeTo fuel' skip body') :=
          ih fuel (Nat.lt_succ_self fuel) fuel' skip h
        cases e with
        | choice start alternatives =>
          cases e' with
          | choice => exact agree_choice (fun _ hdepth _ _ _ => ih _ hdepth _ skip) h
          | _ => cases h
        | sequence start elements markers =>
          cases e' with
          | sequence => exact agree_sequence (fun _ hdepth _ _ _ => ih _ hdepth _ skip) h
          | _ => cases h
        | repeated start body kind =>
          cases e' with
          | repeated start' body' kind' =>
            rw [Expr.outline_repeated, Expr.outline_repeated, Expr.repeated.injEq] at h
            obtain ⟨-, hbody, rfl⟩ := h
            have hterm := agree_repeatTerm skip hagain hbody
            cases kind with
            | optional => exact (hagain skip _ _ hbody).bind_eq fun _ => agree_pure rfl
            | plus => exact hterm.bind_eq fun _ => agree_pure rfl
            | star => exact hterm.bind_eq fun _ => agree_pure rfl
          | _ => cases h
        | name start id args =>
          cases e' with
          | name start' id' args' =>
            rw [Expr.outline_name, Expr.outline_name, Expr.name.injEq] at h
            obtain ⟨-, rfl, hargs⟩ := h
            exact (agree_resolve hagain start start' id hargs).bind_eq fun _ => agree_pure rfl
          | _ => cases h
        | specialize start kind props token content =>
          cases e' with
          | specialize start' kind' props' token' content' =>
            rw [Expr.outline_specialize, Expr.outline_specialize, Expr.specialize.injEq] at h
            obtain ⟨-, rfl, hprops, htoken, hcontent⟩ := h
            have hargs : [].map (outline ctx.decl true) = [].map (outline ctx.decl true) := rfl
            refine agree_read_bind (Agree.bind_eq (agree_check fun _ _ =>
              NodeInfo.ofDeclaration_eq _ _ _ hargs hprops) fun info => ?_)
            refine (hagain skip _ _ htoken).bind_eq fun phrases => ?_
            exact (agree_specializeToken start start' kind info hcontent phrases).bind_eq fun _ =>
              agree_pure rfl
          | _ => cases h
        | inlineRule start id props body =>
          cases e' with
          | inlineRule start' id' props' body' =>
            rw [Expr.outline_inlineRule, Expr.outline_inlineRule, Expr.inlineRule.injEq] at h
            obtain ⟨-, rfl, hprops, hbody⟩ := h
            have hrule : Agree ctx Eq
                (buildRule (normalizeTo fuel) ⟨⟨start, id⟩, props, [], body⟩ [] skip true)
                (buildRule (normalizeTo fuel') ⟨⟨start', id⟩, props', [], body'⟩ [] skip true) :=
              agree_buildRule skip hagain true rfl rfl hprops rfl hbody (congrArg Except.ok hbody)
            exact hrule.bind_eq fun _ => agree_pure rfl
          | _ => cases h
        | literal start value =>
          cases e' with
          | literal start' value' =>
            obtain rfl : value = value' := (Expr.literal.injEq .. ▸ h).2
            exact (agree_literalToken value).bind_eq fun _ => agree_pure rfl
          | _ => cases h
        | charClass start cls =>
          cases e' with
          | charClass start' cls' =>
            obtain rfl : cls = cls' := (Expr.charClass.injEq .. ▸ h).2
            cases cls with
            | eof => exact agree_pure rfl
            | _ => exact agree_raise _ _
          | _ => cases h
        | set start ranges inverted => exact agree_raise _ _
        | any start => exact agree_raise _ _

theorem agree_normalize (skip : Term) {e e' : Expr}
    (h : outline ctx.decl true e = outline ctx.decl true e') :
    Agree ctx Eq (normalize skip e) (normalize skip e') :=
  agree_read_bind (agree_normalizeTo _ _ skip h)

/-! ## §5 Texts -/

/-- Expressions that can stand for each other, in every state. They have the same phrases, and the
symbols and rules that are built for one of them, for a repeat of it, for what is skipped, or for a
reference with it as an argument, are those that are built for the other one. If delimiters are
detected, it also matters which part of an argument comes first. -/
structure Interchangeable (ctx : Declared) (a b : Expr) : Prop where
  phrases (skip : Term) : Agree ctx Eq (normalize skip a) (normalize skip b)
  repeats (skip : Term) :
    Agree ctx Eq (repeatTerm normalize skip a) (repeatTerm normalize skip b)
  skips (noSkip skip : Term) (s : ScopedSkip) : Agree ctx Eq
    (buildScopeSkip noSkip ({ s with expr := a }, skip))
    (buildScopeSkip noSkip ({ s with expr := b }, skip))
  arguments (start : Nat) (name : String) (front back : List Expr)
    (hdetect : ctx.decl.detectDelimiters = false) : Agree ctx Eq
      (resolve normalize start name (front ++ a :: back))
      (resolve normalize start name (front ++ b :: back))

theorem agree_buildScopeSkip (noSkip skip : Term) (s : ScopedSkip) {a b : Expr}
    (h : outline ctx.decl true a = outline ctx.decl true b) : Agree ctx Eq
      (buildScopeSkip noSkip ({ s with expr := a }, skip))
      (buildScopeSkip noSkip ({ s with expr := b }, skip)) := by
  unfold buildScopeSkip
  refine agree_get.bind fun d d' hd => ?_
  rw [hd.skipTerms]
  refine .ite ?_ (agree_pure rfl)
  refine Agree.bind_eq (agree_modify fun d d' h => { h with skipTerms := ?_ }) fun _ => ?_
  · rw [h.skipTerms]
  · refine .ite ?_ (agree_pure rfl)
    exact (agree_normalize noSkip h).bind_eq fun phrases => agree_addRules skip noSkip phrases

theorem interchangeable_of_outline {a b : Expr}
    (h : outline ctx.decl true a = outline ctx.decl true b) : Interchangeable ctx a b where
  phrases skip := agree_normalize skip h
  repeats skip := agree_repeatTerm skip (fun skip _ _ => agree_normalize skip) h
  skips noSkip skip s := agree_buildScopeSkip noSkip skip s h
  arguments start name front back hdetect := by
    refine agree_resolve (fun skip _ _ => agree_normalize skip) start start name ?_
    rw [List.map_append, List.map_append, List.map_cons, List.map_cons, hdetect]
    exact congrArg (_ ++ · :: _) h

/-- Expressions that count as the same can stand for each other, if their props are read as they
print and no sequence in a sequence is left when they are spliced. -/
theorem interchangeable_of_same {a b : Expr} (ha : a.IsReadable) (hb : b.IsReadable)
    (hprops : a.hasPlainProps = true) (hprops' : b.hasPlainProps = true)
    (hnests : (spliced ctx.decl true a).nestsNoSequence = true)
    (hnests' : (spliced ctx.decl true b).nestsNoSequence = true) (hsame : a.same b = true) :
    Interchangeable ctx a b :=
  interchangeable_of_outline (Expr.outline_eq_of_same ha hb hprops hprops' hnests hnests' hsame)

/-- Two top rules that print alike. In the first one a sequence and a choice have parentheses. -/
def harmlessParens : Text.Source :=
  ⟨"", "@top A \x7b (x ~q \"-\") x* | (\"u\" | x) \x7d " ++
    "@top B \x7b x ~q \"-\" x* | \"u\" | x \x7d x \x7b \"x\" \x7d"⟩

/-- Only one of the bodies is flat, but they can stand for each other. -/
theorem interchangeable_harmlessParens : ∃ g, GrammarDecl.parse harmlessParens = .ok g ∧
    ∃ r ∈ g.topRules, ∃ r' ∈ g.topRules, r.body.isFlat = false ∧ r'.body.isFlat = true ∧
      r.body.same r'.body = true ∧ Interchangeable ⟨harmlessParens, g⟩ r.body r'.body := by
  have hcheck : (GrammarDecl.parse harmlessParens).toOption.any (fun g =>
      g.topRules.any fun r => g.topRules.any fun r' => !r.body.isFlat && (r'.body.isFlat &&
        (r.body.same r'.body && (r.body.hasPlainProps && (r'.body.hasPlainProps &&
          ((spliced g true r.body).nestsNoSequence &&
            (spliced g true r'.body).nestsNoSequence)))))) = true := by
    decide +kernel
  obtain ⟨g, hparse, hcheck⟩ := exists_ok_of_any hcheck
  simp only [List.any_eq_true, Bool.and_eq_true, Bool.not_eq_true'] at hcheck
  obtain ⟨r, hr, r', hr', hlevels, hflat, hsame, hprops, hprops', hnests, hnests'⟩ := hcheck
  have hreadable := (GrammarDecl.isReadable_parse hparse).tops
  exact ⟨g, hparse, r, hr, r', hr', hlevels, hflat, hsame, interchangeable_of_same
    (hreadable r hr) (hreadable r' hr') hprops hprops' hnests hnests' hsame⟩

/-- Two rules whose bodies print alike. In the first one a marker is in parentheses. -/
def markerInParens : Text.Source :=
  ⟨"", "@precedence \x7b p @left \x7d @top T \x7b e s \x7d " ++
    "e \x7b (e !p \"+\") e | \"x\" \x7d s \x7b e !p \"+\" e | \"x\" \x7d"⟩

/-- The marker says nothing about the end of the rule if it is in parentheses, so the phrases of the
bodies differ. -/
theorem phrases_markerInParens : ∃ b journal,
    Blueprint.ofSource markerInParens = (.ok b, journal) ∧
      ∃ r ∈ b.decl.rules, ∃ r' ∈ b.decl.rules, r.body.same r'.body = true ∧
        ∃ phrases d phrases' d',
          normalize b.draft.noSkip r.body ⟨markerInParens, b.decl⟩ b.draft = .ok phrases d ∧
          normalize b.draft.noSkip r'.body ⟨markerInParens, b.decl⟩ b.draft = .ok phrases' d' ∧
          phrases ≠ phrases' := by
  have hcheck : (Blueprint.ofSource markerInParens).1.toOption.any (fun b =>
      b.decl.rules.any fun r => b.decl.rules.any fun r' => r.body.same r'.body &&
        match normalize b.draft.noSkip r.body ⟨markerInParens, b.decl⟩ b.draft,
          normalize b.draft.noSkip r'.body ⟨markerInParens, b.decl⟩ b.draft with
        | .ok phrases _, .ok phrases' _ => phrases != phrases'
        | _, _ => false) = true := by
    decide +kernel
  obtain ⟨b, journal, hsource, hcheck⟩ := exists_ok_fst_of_any hcheck
  simp only [List.any_eq_true, Bool.and_eq_true] at hcheck
  obtain ⟨r, hr, r', hr', hsame, hdiffer⟩ := hcheck
  split at hdiffer
  next phrases d phrases' d' hrun hrun' =>
    exact ⟨b, journal, hsource, r, hr, r', hr', hsame, phrases, d, phrases', d', hrun, hrun',
      bne_iff_ne.mp hdiffer⟩
  next => cases hdiffer

end Build

end GrammarCompiler
