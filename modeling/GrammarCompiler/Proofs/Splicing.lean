/-
GrammarCompiler.Proofs.Splicing — expressions with what stands directly in others spliced in.

What is printed of a sequence in a sequence are its pieces, so it prints like the
sequence with these pieces in its place. Where that makes no difference, the pieces
are spliced in, and likewise the alternatives of choices in choices. It makes a
difference if the sequence in a sequence has no elements, or if its markers say
something about the end of the rule and elements come behind it. If delimiters are
detected, it also matters which element of the body of a rule in place is the first one
and which is the last.

  §1 Markers      — what a marker says about the end of the rule.
  §2 Splicing     — spliced expressions.
  §3 Texts        — they print like the original ones.
  §4 Places       — and do not depend on places.
  §5 Arguments    — arguments that are spliced alike can be exchanged.
  §6 Printing     — what can be told from the text.
-/
import GrammarCompiler.Proofs.Nesting
import GrammarCompiler.Proofs.Rereading

namespace GrammarCompiler

/-! ## §1 Markers -/

namespace GrammarDecl

/-- What a marker says. A marker that names nothing says nothing. -/
def gapMarks (decl : GrammarDecl) (m : Marker) : GapMarks :=
  (GapMarks.ofMarker decl.precedenceItems m).toOption.getD {}

/-- Whether a marker says nothing about the end of the rule. -/
def isQuiet (decl : GrammarDecl) (m : Marker) : Bool :=
  (decl.gapMarks m).atEnd == .none

end GrammarDecl

/-! ## §2 Splicing -/

namespace Expr

/-- Whether the pieces of an expression can take its place in a sequence, with given pieces behind
it. -/
def joins (decl : GrammarDecl) (behind : List (Marker ⊕ Expr)) : Expr → Bool
  | .sequence _ elements markers => !elements.isEmpty && markers.length == elements.length + 1 &&
      (markers.flatten.all decl.isQuiet || !behind.any Sum.isRight)
  | _ => false

/-- The pieces of a sequence, with pieces in place of the sequences that they can take the place
of. -/
def splice (decl : GrammarDecl) : List (Marker ⊕ Expr) → List (Marker ⊕ Expr)
  | [] => []
  | .inl m :: behind => .inl m :: splice decl behind
  | .inr e :: behind =>
    (if e.joins decl behind then piecesOf (.inr e) else [.inr e]) ++ splice decl behind

/-- The elements and markers of a sequence with sequences spliced in. -/
def spliceSequence (decl : GrammarDecl) (elements : List Expr) (markers : List (List Marker)) :
    List Expr × List (List Marker) :=
  if markers.length = elements.length + 1 then ofPieces (splice decl (pieces elements markers))
  else (elements, markers)

/-- The alternatives of a choice, if there are any, or else the expression itself. -/
def branchesOf (e : Expr) : List Expr :=
  if e.alternativesOf.isEmpty then [e] else e.alternativesOf

mutual

/-- An expression with sequences in sequences and choices in choices spliced in. Unless `merge` is
set, a sequence keeps the sequences that stand directly in it. -/
def spliced (decl : GrammarDecl) (merge : Bool) : Expr → Expr
  | name start id args => name start id (splicedAll decl (!decl.detectDelimiters) args)
  | specialize start kind props token content =>
    specialize start kind props (spliced decl true token) (spliced decl true content)
  | inlineRule start id props body =>
    inlineRule start id props (spliced decl (!decl.detectDelimiters) body)
  | choice start alternatives =>
    choice start ((splicedAll decl true alternatives).flatMap branchesOf)
  | sequence start elements markers =>
    let elements := splicedAll decl true elements
    let parts := if merge then spliceSequence decl elements markers else (elements, markers)
    sequence start parts.1 parts.2
  | repeated start body kind => repeated start (spliced decl true body) kind
  | literal start value => literal start value
  | set start ranges inverted => set start ranges inverted
  | any start => any start
  | charClass start cls => charClass start cls

/-- Each expression, spliced. -/
def splicedAll (decl : GrammarDecl) (merge : Bool) : List Expr → List Expr
  | [] => []
  | e :: rest => spliced decl merge e :: splicedAll decl merge rest

end

variable {decl : GrammarDecl}

@[simp] theorem splicedAll_eq (merge : Bool) (es : List Expr) :
    splicedAll decl merge es = es.map (spliced decl merge) := by
  induction es with
  | nil => rfl
  | cons e es ih => rw [splicedAll, ih, List.map_cons]

@[simp] theorem tightness_spliced (merge : Bool) (e : Expr) :
    (spliced decl merge e).tightness = e.tightness := by
  cases e <;> rfl

theorem joins_iff {e : Expr} {behind : List (Marker ⊕ Expr)} : e.joins decl behind = true ↔
    ∃ start elements markers, e = .sequence start elements markers ∧ elements ≠ [] ∧
      markers.length = elements.length + 1 ∧
      ((∀ m ∈ markers.flatten, decl.isQuiet m = true) ∨ behind.any Sum.isRight = false) := by
  cases e with
  | sequence start elements markers =>
    simp only [joins, Bool.and_eq_true, Bool.not_eq_true', List.isEmpty_eq_false_iff, beq_iff_eq,
      Bool.or_eq_true, List.all_eq_true, sequence.injEq]
    constructor
    · rintro ⟨⟨hne, hlength⟩, hquiet⟩
      exact ⟨start, elements, markers, ⟨rfl, rfl, rfl⟩, hne, hlength, hquiet⟩
    · rintro ⟨_, _, _, ⟨rfl, rfl, rfl⟩, hne, hlength, hquiet⟩
      exact ⟨⟨hne, hlength⟩, hquiet⟩
  | _ => simp [joins]

/-! ## §3 Texts -/

theorem pieces_eq_nil_iff {elements : List Expr} {markers : List (List Marker)} :
    pieces elements markers = [] ↔ (elements.isEmpty && markers.all (·.isEmpty)) = true := by
  cases elements with
  | nil => simp [pieces, List.flatten_eq_nil_iff]
  | cons e elements => simp [pieces]

/-- A sequence is printed piece by piece. -/
theorem shown_sequence_pieces (start : Nat) (elements : List Expr) (markers : List (List Marker)) :
    (Expr.sequence start elements markers).shown =
      if pieces elements markers = [] then "()"
      else " ".intercalate ((pieces elements markers).map showPiece) := by
  simp only [shown, pieces_eq_nil_iff, showElements_eq]

end Expr

/-- In a text with separators, a piece can be replaced by pieces that make the same text. -/
theorem intercalate_replace {sep t : String} {seg rest rest' : List String} (hseg : seg ≠ [])
    (ht : sep.intercalate seg = t) (hnil : rest = [] ↔ rest' = [])
    (hrest : sep.intercalate rest = sep.intercalate rest') :
    sep.intercalate (seg ++ rest) = sep.intercalate (t :: rest') := by
  by_cases h : rest = []
  · rw [h, hnil.mp h, List.append_nil, ht]
    simp
  · rw [intercalate_append hseg h, ← List.singleton_append,
      intercalate_append (List.cons_ne_nil _ _) (hnil.not.mp h), ht, hrest]
    simp

namespace Expr

variable {decl : GrammarDecl}

theorem intercalate_splice (decl : GrammarDecl) (ps : List (Marker ⊕ Expr)) :
    (splice decl ps = [] ↔ ps = []) ∧
      " ".intercalate ((splice decl ps).map showPiece) = " ".intercalate (ps.map showPiece) := by
  induction ps with
  | nil => exact ⟨Iff.rfl, rfl⟩
  | cons p ps ih =>
    obtain ⟨hnil, htext⟩ := ih
    have hnil' : (splice decl ps).map showPiece = [] ↔ ps.map showPiece = [] := by
      rw [List.map_eq_nil_iff, List.map_eq_nil_iff, hnil]
    have hone : " ".intercalate ([p].map showPiece) = showPiece p := by simp
    have hseg (seg : List (Marker ⊕ Expr)) (hne : seg ≠ [])
        (hseg : " ".intercalate (seg.map showPiece) = showPiece p)
        (heq : splice decl (p :: ps) = seg ++ splice decl ps) :
        (splice decl (p :: ps) = [] ↔ p :: ps = []) ∧
          " ".intercalate ((splice decl (p :: ps)).map showPiece) =
            " ".intercalate ((p :: ps).map showPiece) := by
      refine ⟨by simp [heq, hne], ?_⟩
      rw [heq, List.map_append, List.map_cons]
      exact intercalate_replace (List.map_eq_nil_iff.not.mpr hne) hseg hnil' htext
    cases p with
    | inl m => exact hseg [.inl m] (List.cons_ne_nil _ _) hone rfl
    | inr e =>
      cases hjoins : e.joins decl ps with
      | false => exact hseg [.inr e] (List.cons_ne_nil _ _) hone (by rw [splice, hjoins]; rfl)
      | true =>
        obtain ⟨start, elements, markers, rfl, hne, -⟩ := joins_iff.mp hjoins
        have hpieces : pieces elements markers ≠ [] := by
          rw [Ne, pieces_eq_nil_iff]
          simp [hne]
        have hfull : (Expr.sequence start elements markers).isEmpty = false := by
          simp [isEmpty, hne]
        refine hseg (pieces elements markers) hpieces ?_ ?_
        · rw [showPiece, tightness, if_neg (Nat.lt_irrefl 2), shown_sequence hfull]
        · rw [splice, hjoins, if_pos rfl, piecesOf_sequence hfull]

/-- Splicing in sequences does not show. -/
theorem shown_spliceSequence (start : Nat) (elements : List Expr) (markers : List (List Marker)) :
    (Expr.sequence start (spliceSequence decl elements markers).1
      (spliceSequence decl elements markers).2).shown =
        (Expr.sequence start elements markers).shown := by
  obtain ⟨hnil, htext⟩ := intercalate_splice decl (pieces elements markers)
  rw [spliceSequence]
  split
  · simp only [shown_sequence_pieces, pieces_ofPieces, hnil, htext]
  · rfl

theorem branchesOf_ne_nil (e : Expr) : e.branchesOf ≠ [] := by
  rw [branchesOf]
  split
  · exact List.cons_ne_nil _ _
  next h => exact fun hnil => h (by rw [hnil]; rfl)

theorem shown_branchesOf (e : Expr) : " | ".intercalate (e.branchesOf.map shown) = e.shown := by
  rw [branchesOf]
  split
  · simp
  · cases e with
    | choice start alternatives => rw [alternativesOf, shown, showAll_eq (Nat.le_refl _)]
    | _ => simp [alternativesOf]

theorem map_showPiece_congr {es es' : List Expr} (h : es'.map shown = es.map shown)
    (htight : es'.map tightness = es.map tightness) (markers : List (List Marker)) :
    (pieces es' markers).map showPiece = (pieces es markers).map showPiece := by
  induction es generalizing es' markers with
  | nil =>
    obtain rfl := List.map_eq_nil_iff.mp h
    rfl
  | cons e es ih =>
    obtain ⟨e', es', rfl, he, hes⟩ := List.map_eq_cons_iff.mp h
    rw [List.map_cons, List.map_cons, List.cons.injEq] at htight
    simp [pieces, showPiece, ih hes htight.2, he, htight.1]

mutual

/-- Spliced expressions print like the original ones. -/
@[simp] theorem shown_spliced (merge : Bool) : ∀ e : Expr, (spliced decl merge e).shown = e.shown
  | name _ id args => by
    have hargs := map_shown_spliced (!decl.detectDelimiters) args
    have hempty : (args.map (spliced decl (!decl.detectDelimiters))).isEmpty = args.isEmpty :=
      List.isEmpty_map
    rw [spliced, splicedAll_eq, shown, shown, showAll_eq (Nat.zero_le _),
      showAll_eq (Nat.zero_le _), hargs, hempty]
  | specialize _ _ _ token content => by
    rw [spliced, shown, shown, shown_spliced true token, shown_spliced true content]
  | inlineRule _ _ _ body => by
    rw [spliced, shown, shown, shown_spliced _ body]
  | choice _ alternatives => by
    rw [spliced, splicedAll_eq, shown, shown, showAll_eq (Nat.le_refl _),
      showAll_eq (Nat.le_refl _), List.map_flatMap,
      intercalate_flatMap fun m _ =>
        ⟨List.map_eq_nil_iff.not.mpr (branchesOf_ne_nil m), shown_branchesOf m⟩,
      map_shown_spliced true alternatives]
  | sequence start elements markers => by
    have hpieces : (pieces (elements.map (spliced decl true)) markers).map showPiece =
        (pieces elements markers).map showPiece :=
      map_showPiece_congr (map_shown_spliced true elements) (by simp [Function.comp_def]) markers
    have hnil := congrArg (· = []) hpieces
    simp only [List.map_eq_nil_iff] at hnil
    have hshown : (sequence start (elements.map (spliced decl true)) markers).shown =
        (sequence start elements markers).shown := by
      simp only [shown_sequence_pieces, hpieces, hnil]
    rw [spliced, splicedAll_eq]
    cases merge with
    | false => exact hshown
    | true => exact (shown_spliceSequence ..).trans hshown
  | repeated _ body _ => by
    rw [spliced, shown, shown, shown_spliced true body, tightness_spliced]
  | literal _ _ => rfl
  | set _ _ _ => rfl
  | any _ => rfl
  | charClass _ _ => rfl

theorem map_shown_spliced (merge : Bool) :
    ∀ es : List Expr, (es.map (spliced decl merge)).map shown = es.map shown
  | [] => rfl
  | e :: es => by
    rw [List.map_cons, List.map_cons, List.map_cons, shown_spliced merge e,
      map_shown_spliced merge es]

end

/-! ## §4 Places -/

end Expr

theorem GrammarDecl.gapMarks_bare (decl : GrammarDecl) (m : Marker) :
    decl.gapMarks m.bare = decl.gapMarks m := by
  obtain ⟨start, kind, id⟩ := m
  cases kind with
  | ambiguity => rfl
  | precedence =>
    simp only [gapMarks, GapMarks.ofMarker, Marker.bare]
    cases decl.precedenceItems.dropWhile fun i => i.id.name != id.name <;> rfl

namespace Expr

/-- A piece of a sequence apart from the places where it and its parts are written. -/
abbrev barePiece : Marker ⊕ Expr → Marker ⊕ Expr :=
  Sum.map Marker.bare bare

theorem pieces_bare (elements : List Expr) (markers : List (List Marker)) :
    pieces (elements.map bare) (markers.map fun gap => gap.map Marker.bare) =
      (pieces elements markers).map barePiece := by
  induction elements generalizing markers with
  | nil => simp [pieces, List.map_flatten, Function.comp_def]
  | cons e elements ih =>
    have htail := ih markers.tail
    rw [List.map_tail] at htail
    cases markers with
    | nil => simpa [pieces] using htail
    | cons gap markers => simpa [pieces, Function.comp_def] using htail

theorem ofPieces_bare (ps : List (Marker ⊕ Expr)) : ofPieces (ps.map barePiece) =
    ((ofPieces ps).1.map bare, (ofPieces ps).2.map fun gap => gap.map Marker.bare) := by
  induction ps with
  | nil => rfl
  | cons p ps ih =>
    obtain ⟨gap, gaps, hgaps⟩ := List.exists_cons_of_length_eq_add_one (length_ofPieces ps)
    cases p <;> simp [ofPieces, ih, hgaps]

theorem joins_bare (e : Expr) (behind : List (Marker ⊕ Expr)) :
    e.bare.joins decl (behind.map barePiece) = e.joins decl behind := by
  have hquiet (m : Marker) : decl.isQuiet m.bare = decl.isQuiet m := by
    rw [GrammarDecl.isQuiet, decl.gapMarks_bare, GrammarDecl.isQuiet]
  have hright (p : Marker ⊕ Expr) : (barePiece p).isRight = p.isRight := by
    cases p <;> rfl
  cases e with
  | sequence start elements markers =>
    rw [bare, bareAll_eq, joins, joins]
    simp [List.all_flatten, List.all_map, List.any_map, Function.comp_def, hquiet, hright]
  | _ => rfl

theorem splice_bare (ps : List (Marker ⊕ Expr)) :
    splice decl (ps.map barePiece) = (splice decl ps).map barePiece := by
  induction ps with
  | nil => rfl
  | cons p ps ih =>
    cases p with
    | inl m => rw [List.map_cons, splice, List.map_cons, ← ih]; rfl
    | inr e =>
      have hpiece : barePiece (.inr e) = .inr e.bare := rfl
      rw [List.map_cons, hpiece, splice, splice, joins_bare, ih, List.map_append]
      refine congrArg (· ++ _) ?_
      split
      next h =>
        obtain ⟨start, elements, markers, rfl, hne, -⟩ := joins_iff.mp h
        have hfull : (Expr.sequence start elements markers).isEmpty = false := by
          simp [isEmpty, hne]
        have hfull' : (Expr.sequence 0 (elements.map bare)
            (markers.map fun gap => gap.map Marker.bare)).isEmpty = false := by
          simp [isEmpty, hne]
        rw [piecesOf_sequence hfull, bare, bareAll_eq, piecesOf_sequence hfull', pieces_bare]
      next => rfl

theorem spliceSequence_bare (elements : List Expr) (markers : List (List Marker)) :
    spliceSequence decl (elements.map bare) (markers.map fun gap => gap.map Marker.bare) =
      ((spliceSequence decl elements markers).1.map bare,
        (spliceSequence decl elements markers).2.map fun gap => gap.map Marker.bare) := by
  rw [spliceSequence, spliceSequence, List.length_map, List.length_map]
  split
  · rw [pieces_bare, splice_bare, ofPieces_bare]
  · rfl

theorem branchesOf_bare (e : Expr) : e.bare.branchesOf = e.branchesOf.map bare := by
  cases e with
  | choice start alternatives =>
    cases alternatives with
    | nil => rfl
    | cons e es => simp [branchesOf, alternativesOf, bare]
  | _ => rfl

/-- An expression apart from places and from the levels that make no difference. -/
def outline (decl : GrammarDecl) (merge : Bool) (e : Expr) : Expr :=
  (spliced decl merge e).bare

theorem shown_outline (merge : Bool) (e : Expr) : (outline decl merge e).shown = e.shown := by
  rw [outline, shown_bare, shown_spliced]

theorem shown_of_outline {merge : Bool} {e e' : Expr}
    (h : outline decl merge e = outline decl merge e') : e.shown = e'.shown := by
  rw [← shown_outline merge e, h, shown_outline]

theorem map_shown_of_outline {merge : Bool} {es es' : List Expr}
    (h : es.map (outline decl merge) = es'.map (outline decl merge)) :
    es.map shown = es'.map shown := by
  have hshown := congrArg (List.map shown) h
  simpa only [List.map_map, Function.comp_def, shown_outline] using hshown

variable (start : Nat) (merge : Bool)

theorem outline_name (id : String) (args : List Expr) : outline decl merge (.name start id args) =
    .name 0 id (args.map (outline decl (!decl.detectDelimiters))) := by
  simp [outline, spliced, bare, Function.comp_def]

theorem outline_specialize (kind : SpecializeKind) (props : List NodeProp) (token content : Expr) :
    outline decl merge (.specialize start kind props token content) =
      .specialize 0 kind (props.map NodeProp.bare) (outline decl true token)
        (outline decl true content) :=
  rfl

theorem outline_inlineRule (id : String) (props : List NodeProp) (body : Expr) :
    outline decl merge (.inlineRule start id props body) =
      .inlineRule 0 id (props.map NodeProp.bare) (outline decl (!decl.detectDelimiters) body) :=
  rfl

theorem outline_choice (alternatives : List Expr) :
    outline decl merge (.choice start alternatives) =
      .choice 0 ((alternatives.map (outline decl true)).flatMap branchesOf) := by
  simp [outline, spliced, bare, List.map_flatMap, List.flatMap_map, branchesOf_bare]

theorem outline_sequence_kept (elements : List Expr) (markers : List (List Marker)) :
    outline decl false (.sequence start elements markers) =
      .sequence 0 (elements.map (outline decl true))
        (markers.map fun gap => gap.map Marker.bare) := by
  simp [outline, spliced, bare, Function.comp_def]

theorem outline_sequence (elements : List Expr) (markers : List (List Marker)) :
    outline decl true (.sequence start elements markers) =
      let parts := spliceSequence decl (elements.map (outline decl true))
        (markers.map fun gap => gap.map Marker.bare)
      .sequence 0 parts.1 parts.2 := by
  have helements : elements.map (outline decl true) =
      (elements.map (spliced decl true)).map bare := by
    simp [outline, Function.comp_def]
  simp only [helements, spliceSequence_bare]
  simp [outline, spliced, bare]

theorem outline_repeated (body : Expr) (kind : RepeatKind) :
    outline decl merge (.repeated start body kind) = .repeated 0 (outline decl true body) kind :=
  rfl

/-- Where levels are kept and it makes no difference, it makes none where they are not. -/
theorem outline_merged {merge : Bool} {e e' : Expr}
    (h : outline decl merge e' = outline decl merge e) :
    outline decl true e' = outline decl true e := by
  cases merge with
  | true => exact h
  | false =>
    cases e with
    | sequence start elements markers =>
      cases e' with
      | sequence start' elements' markers' =>
        rw [outline_sequence_kept, outline_sequence_kept, sequence.injEq] at h
        rw [outline_sequence, outline_sequence, h.2.1, h.2.2]
      | _ => cases h
    | _ =>
      cases e' with
      | sequence => cases h
      | _ => exact h

theorem plainText?_outline (merge : Bool) (e : Expr) :
    (outline decl merge e).plainText? = e.plainText? := by
  cases e with
  | name start id args => cases args <;> rfl
  | _ => rfl

theorem map_outline_merged {merge : Bool} {es es' : List Expr}
    (h : es'.map (outline decl merge) = es.map (outline decl merge)) :
    es'.map (outline decl true) = es.map (outline decl true) := by
  induction es generalizing es' with
  | nil => rw [List.map_eq_nil_iff.mp h]
  | cons e es ih =>
    obtain ⟨e', es', rfl, he, hes⟩ := List.map_eq_cons_iff.mp h
    rw [List.map_cons, List.map_cons, outline_merged he, ih hes]

end Expr

/-! ## §5 Arguments -/

open GrammarCompiler.Expr (outline)

namespace Substitute

theorem argument?_map (params : List Ident) (args : List Expr) (f : Expr → Expr) (name : String) :
    argument? params (args.map f) name = (argument? params args name).map f := by
  rw [argument?, argument?]
  cases params.findIdx? fun p => p.name == name with
  | none => rfl
  | some i => exact List.getElem?_map

variable {decl : GrammarDecl} {params : List Ident} {args args' : List Expr}

section

variable (hargs : args'.map (outline decl (!decl.detectDelimiters)) =
  args.map (outline decl (!decl.detectDelimiters)))
include hargs

variable (params) in
theorem argument?_outline (name : String) :
    (argument? params args' name).map (outline decl (!decl.detectDelimiters)) =
      (argument? params args name).map (outline decl (!decl.detectDelimiters)) := by
  rw [← argument?_map, ← argument?_map, hargs]

theorem inPart_outline (p : PropPart) : inPart params args' p = inPart params args p := by
  cases p with
  | text start value => rfl
  | parameter start name =>
    have harg := argument?_outline params hargs name
    rw [inPart, inPart]
    cases ha : argument? params args name with
    | none =>
      rw [ha, Option.map_none, Option.map_eq_none_iff] at harg
      rw [harg]
    | some arg =>
      rw [ha, Option.map_some, Option.map_eq_some_iff] at harg
      obtain ⟨arg', ha', heq⟩ := harg
      have htext : arg'.plainText? = arg.plainText? := by
        rw [← Expr.plainText?_outline, heq, Expr.plainText?_outline]
      have hshown : arg'.shown = arg.shown := by
        rw [← Expr.shown_outline, heq, Expr.shown_outline]
      simp only [ha', htext, hshown]

theorem inProps_outline (props : List NodeProp) :
    inProps params args' props = inProps params args props := by
  have hparts : inPart params args' = inPart params args := funext (inPart_outline hargs)
  rw [inProps, inProps, hparts]

theorem reference_outline (start : Nat) (name : String) {inner inner' : List Expr}
    (h : inner'.map (outline decl (!decl.detectDelimiters)) =
      inner.map (outline decl (!decl.detectDelimiters))) :
    (reference params args' start name inner').map (outline decl (!decl.detectDelimiters)) =
      (reference params args start name inner).map (outline decl (!decl.detectDelimiters)) := by
  have hname (id : String) : outline decl (!decl.detectDelimiters) (.name start id inner') =
      outline decl (!decl.detectDelimiters) (.name start id inner) := by
    rw [Expr.outline_name, Expr.outline_name, h]
  have harg := argument?_outline params hargs name
  rw [reference.eq_def, reference.eq_def]
  cases ha : argument? params args name with
  | none =>
    rw [ha, Option.map_none, Option.map_eq_none_iff] at harg
    rw [harg]
    exact congrArg Except.ok (hname name)
  | some arg =>
    rw [ha, Option.map_some, Option.map_eq_some_iff] at harg
    obtain ⟨arg', ha', heq⟩ := harg
    rw [ha']
    cases inner with
    | nil =>
      obtain rfl := List.map_eq_nil_iff.mp h
      exact congrArg Except.ok heq
    | cons e rest =>
      obtain ⟨e', rest', rfl, -⟩ := List.map_eq_cons_iff.mp h
      cases arg with
      | name s id as =>
        cases arg' with
        | name s' id' as' =>
          rw [Expr.outline_name, Expr.outline_name, Expr.name.injEq] at heq
          obtain ⟨-, rfl, has⟩ := heq
          cases as with
          | nil =>
            obtain rfl := List.map_eq_nil_iff.mp has
            exact congrArg Except.ok (hname id')
          | cons a as =>
            obtain ⟨a', as', rfl, -⟩ := List.map_eq_cons_iff.mp has
            rfl
        | _ => cases heq
      | _ =>
        cases arg' with
        | name => cases heq
        | _ => rfl

end

mutual

/-- Arguments that come to the same when spliced can be exchanged. -/
theorem inExpr_outline (hargs : args'.map (outline decl (!decl.detectDelimiters)) =
    args.map (outline decl (!decl.detectDelimiters))) : ∀ e : Expr,
    (inExpr params args' e).map (outline decl (!decl.detectDelimiters)) =
      (inExpr params args e).map (outline decl (!decl.detectDelimiters))
  | .name start name inner =>
    map_bind_congr (inExprs_outline hargs inner) fun _ _ h => reference_outline hargs start name h
  | .specialize start kind props token content => by
    rw [inExpr, inExpr, inProps_outline hargs]
    refine map_bind_congr (f := List.map NodeProp.bare) rfl fun _ _ hprops => ?_
    refine map_bind_congr (inExpr_outline hargs token) fun _ _ htoken => ?_
    refine map_bind_congr (inExpr_outline hargs content) fun _ _ hcontent => ?_
    refine congrArg Except.ok ?_
    rw [Expr.outline_specialize, Expr.outline_specialize, hprops, Expr.outline_merged htoken,
      Expr.outline_merged hcontent]
  | .inlineRule start id props body => by
    rw [inExpr, inExpr, inProps_outline hargs]
    refine map_bind_congr (f := List.map NodeProp.bare) rfl fun _ _ hprops => ?_
    refine map_bind_congr (inExpr_outline hargs body) fun _ _ hbody => ?_
    refine congrArg Except.ok ?_
    rw [Expr.outline_inlineRule, Expr.outline_inlineRule, hprops, hbody]
  | .choice start alternatives => by
    refine map_bind_congr (inExprs_outline hargs alternatives) fun _ _ h => ?_
    refine congrArg Except.ok ?_
    rw [Expr.outline_choice, Expr.outline_choice, Expr.map_outline_merged h]
  | .sequence start elements markers => by
    refine map_bind_congr (inExprs_outline hargs elements) fun _ _ h => ?_
    refine congrArg Except.ok ?_
    have h := Expr.map_outline_merged h
    cases !decl.detectDelimiters with
    | false => rw [Expr.outline_sequence_kept, Expr.outline_sequence_kept, h]
    | true => rw [Expr.outline_sequence, Expr.outline_sequence, h]
  | .repeated start body kind => by
    refine map_bind_congr (inExpr_outline hargs body) fun _ _ h => ?_
    refine congrArg Except.ok ?_
    rw [Expr.outline_repeated, Expr.outline_repeated, Expr.outline_merged h]
  | .literal _ _ => rfl
  | .set _ _ _ => rfl
  | .any _ => rfl
  | .charClass _ _ => rfl

theorem inExprs_outline (hargs : args'.map (outline decl (!decl.detectDelimiters)) =
    args.map (outline decl (!decl.detectDelimiters))) : ∀ es : List Expr,
    (inExprs params args' es).map (List.map (outline decl (!decl.detectDelimiters))) =
      (inExprs params args es).map (List.map (outline decl (!decl.detectDelimiters)))
  | [] => rfl
  | e :: es => by
    refine map_bind_congr (inExpr_outline hargs e) fun _ _ h => ?_
    refine map_bind_congr (inExprs_outline hargs es) fun _ _ hs => ?_
    exact congrArg Except.ok (by rw [List.map_cons, List.map_cons, h, hs])

end

end Substitute

theorem RuleDecl.bodyWith_outline {decl : GrammarDecl} {args args' : List Expr} (rule : RuleDecl)
    (hargs : args'.map (outline decl (!decl.detectDelimiters)) =
      args.map (outline decl (!decl.detectDelimiters))) :
    (rule.bodyWith args').map (outline decl (!decl.detectDelimiters)) =
      (rule.bodyWith args).map (outline decl (!decl.detectDelimiters)) := by
  have hempty : args'.isEmpty = args.isEmpty := by
    rw [← List.isEmpty_map, hargs, List.isEmpty_map]
  rw [bodyWith, bodyWith, hempty]
  split
  · rfl
  · exact Substitute.inExpr_outline hargs rule.body

/-! ## §6 Printing -/

namespace Expr

mutual

/-- Whether no sequence that has pieces is a direct element of a sequence in an expression. -/
def nestsNoSequence : Expr → Bool
  | name _ _ args => allNestNoSequence args
  | specialize _ _ _ token content => token.nestsNoSequence && content.nestsNoSequence
  | inlineRule _ _ _ body => body.nestsNoSequence
  | choice _ alternatives => allNestNoSequence alternatives
  | sequence _ elements _ =>
    allNestNoSequence elements && elements.all fun e => !e.isSequence || e.isEmpty
  | repeated _ body _ => body.nestsNoSequence
  | literal _ _ => true
  | set _ _ _ => true
  | any _ => true
  | charClass _ _ => true

/-- Whether the expressions are all like that. -/
def allNestNoSequence : List Expr → Bool
  | [] => true
  | e :: rest => e.nestsNoSequence && allNestNoSequence rest

end

@[simp] theorem allNestNoSequence_iff {es : List Expr} :
    allNestNoSequence es = true ↔ ∀ e ∈ es, e.nestsNoSequence = true := by
  induction es with
  | nil => simp [allNestNoSequence]
  | cons e es ih => simp [allNestNoSequence, ih]

variable {decl : GrammarDecl} {merge : Bool}

/-- What stands in a sequence that nests no sequence. -/
theorem nestsNoSequence_sequence {start : Nat} {elements : List Expr}
    {markers : List (List Marker)} :
    (Expr.sequence start elements markers).nestsNoSequence = true ↔
      ∀ e ∈ elements, e.nestsNoSequence = true ∧ (e.isSequence = true → e.isEmpty = true) := by
  simp only [nestsNoSequence, Bool.and_eq_true, allNestNoSequence_iff, List.all_eq_true,
    Bool.or_eq_true, Bool.not_eq_true', ← Bool.not_eq_true, ← imp_iff_not_or, ← forall₂_and]

theorem nestsNoSequence_of_branchesOf {e : Expr}
    (h : ∀ branch ∈ e.branchesOf, branch.nestsNoSequence = true) : e.nestsNoSequence = true := by
  rw [branchesOf] at h
  split at h
  · exact h e (List.mem_singleton_self e)
  · cases e with
    | choice start alternatives =>
      rw [nestsNoSequence, allNestNoSequence_iff]
      exact h
    | _ => exact h _ (List.mem_singleton_self _)

theorem mem_pieces {elements : List Expr} {markers : List (List Marker)}
    (hlength : markers.length = elements.length + 1) {e : Expr} :
    .inr e ∈ pieces elements markers ↔ e ∈ elements := by
  rw [← mem_ofPieces, ofPieces_pieces hlength]

/-- If splicing leaves no sequence in a sequence, all of them are spliced in. -/
theorem splice_eq_flatMap {ps : List (Marker ⊕ Expr)}
    (h : ∀ e, .inr e ∈ splice decl ps →
      e.nestsNoSequence = true ∧ (e.isSequence = true → e.isEmpty = true)) :
    splice decl ps = ps.flatMap piecesOf ∧ ∀ e, .inr e ∈ ps → e.nestsNoSequence = true := by
  induction ps with
  | nil => exact ⟨rfl, nofun⟩
  | cons p ps ih =>
    cases p with
    | inl m =>
      obtain ⟨heq, hall⟩ := ih fun e he => h e (List.mem_cons_of_mem _ he)
      refine ⟨by rw [splice, heq, List.flatMap_cons]; rfl, fun e he => ?_⟩
      exact hall e ((List.mem_cons.mp he).resolve_left nofun)
    | inr e =>
      rw [splice] at h
      obtain ⟨heq, hall⟩ := ih fun e he => h e (List.mem_append_right _ he)
      have hhere : (if e.joins decl ps then piecesOf (.inr e) else [.inr e]) = piecesOf (.inr e) ∧
          e.nestsNoSequence = true := by
        split at h
        next hjoins =>
          obtain ⟨start, elements, markers, rfl, hne, hlength, -⟩ := joins_iff.mp hjoins
          have hfull : (Expr.sequence start elements markers).isEmpty = false := by
            simp [isEmpty, hne]
          refine ⟨if_pos hjoins, nestsNoSequence_sequence.mpr fun e he => ?_⟩
          rw [piecesOf_sequence hfull] at h
          exact h e (List.mem_append_left _ ((mem_pieces hlength).mpr he))
        next hjoins =>
          obtain ⟨hnests, hseq⟩ := h e (List.mem_append_left _ (List.mem_singleton_self _))
          exact ⟨by rw [if_neg hjoins, piecesOf_eq_singleton hseq], hnests⟩
      refine ⟨by rw [splice, hhere.1, heq, List.flatMap_cons], fun e' he' => ?_⟩
      rcases List.mem_cons.mp he' with heq' | he'
      · exact Sum.inr.inj heq' ▸ hhere.2
      · exact hall e' he'

theorem forall₂_prints {es : List Expr} (h : ∀ e ∈ es, e.Prints (spliced decl merge e)) :
    List.Forall₂ Prints es (es.map (spliced decl merge)) := by
  rw [List.forall₂_map_right_iff, List.forall₂_same]
  exact h

/-- Choices in choices are spliced in as they print. -/
theorem prints_choice_spliced (start : Nat) {es : List Expr} (hlength : 2 ≤ es.length)
    (h : ∀ e ∈ es, e.Prints (spliced decl true e)) :
    Prints (.choice start es) (spliced decl merge (.choice start es)) := by
  have hbranches : (es.map (spliced decl true)).flatMap branchesOf =
      (es.map (spliced decl true)).flatMap alternativesOf := by
    refine List.flatMap_congr fun m hm => ?_
    obtain ⟨e, he, rfl⟩ := List.mem_map.mp hm
    refine if_neg fun hempty => (shown_alternativesOf (h e he).isNormal).1 ?_
    rw [List.isEmpty_iff.mp hempty, List.map_nil]
  rw [spliced, splicedAll_eq, hbranches]
  exact prints_choice (forall₂_prints h) start hlength

/-- Sequences in sequences are spliced in as they print, if none is left. -/
theorem prints_sequence_spliced (start : Nat) {es : List Expr} {markers : List (List Marker)}
    (hlength : markers.length = es.length + 1)
    (hmany : 2 ≤ es.length ∨ markers.flatten ≠ [])
    (hnames : ∀ gap ∈ markers, ∀ m ∈ gap, IsName m.id.name)
    (h : ∀ e ∈ es, (spliced decl true e).nestsNoSequence = true → e.Prints (spliced decl true e))
    (hnests : (spliced decl merge (.sequence start es markers)).nestsNoSequence = true) :
    Prints (.sequence start es markers) (spliced decl merge (.sequence start es markers)) := by
  have hlength' : markers.length = (es.map (spliced decl true)).length + 1 := by
    rw [List.length_map, hlength]
  rw [spliced, splicedAll_eq] at hnests ⊢
  have hall := nestsNoSequence_sequence.mp hnests
  have hchildren (hes : ∀ e ∈ es, (spliced decl true e).nestsNoSequence = true) :=
    prints_sequence (forall₂_prints fun e he => h e he (hes e he)) start hlength hmany hnames
  cases merge with
  | false =>
    have hsettled : ∀ p ∈ pieces (es.map (spliced decl true)) markers, piecesOf p = [p] := by
      rintro (m | e) hp
      · rfl
      · exact piecesOf_eq_singleton (hall e ((mem_pieces hlength').mp hp)).2
    have hkept := hchildren fun e he => (hall _ (List.mem_map_of_mem he)).1
    change Prints _ (.sequence start (ofPieces _).1 (ofPieces _).2) at hkept
    rw [(List.flatMap_congr hsettled).trans (List.flatMap_singleton' _),
      ofPieces_pieces hlength'] at hkept
    exact hkept
  | true =>
    rw [if_pos rfl, spliceSequence, if_pos hlength'] at hall ⊢
    obtain ⟨heq, hes⟩ := splice_eq_flatMap fun e he => hall e (mem_ofPieces.mpr he)
    rw [heq]
    exact hchildren fun e he => hes _ ((mem_pieces hlength').mpr (List.mem_map_of_mem he))

/-- Everything that can be read, with props that are read as they print, prints like what it comes to
when spliced, and that is normal if it nests no sequence. -/
theorem IsReadable.prints_spliced {e : Expr} (h : e.IsReadable) (hprops : e.hasPlainProps = true)
    (hnests : (spliced decl merge e).nestsNoSequence = true) : e.Prints (spliced decl merge e) := by
  induction h generalizing merge with
  | @name start id args hid hany _ ih =>
    rw [hasPlainProps, allHavePlainProps_iff] at hprops
    simp only [spliced, splicedAll_eq, nestsNoSequence, allNestNoSequence_iff,
      List.forall_mem_map] at hnests ⊢
    exact prints_name (forall₂_prints fun a ha => ih a ha (hprops a ha) (hnests a ha)) start hid hany
  | @specialize start kind props token content _ _ htoken hcontent =>
    simp only [hasPlainProps, Bool.and_eq_true, List.all_eq_true] at hprops
    obtain ⟨⟨hplain, ht⟩, hc⟩ := hprops
    rw [spliced, nestsNoSequence, Bool.and_eq_true] at hnests
    rw [spliced]
    have hm := htoken ht hnests.1
    have hm' := hcontent hc hnests.2
    refine ⟨.specialize start kind hplain hm.isNormal hm'.isNormal, ?_, rfl, fun hflat => ?_⟩
    · rw [shown, shown, hm.shown_eq, hm'.shown_eq]
    · rw [isFlat, Bool.and_eq_true] at hflat
      rw [hm.eq_of_isFlat hflat.1, hm'.eq_of_isFlat hflat.2]
  | @inlineRule start id props body hid hany _ ih =>
    simp only [hasPlainProps, Bool.and_eq_true, List.all_eq_true] at hprops
    obtain ⟨hplain, hb⟩ := hprops
    rw [spliced, nestsNoSequence] at hnests
    rw [spliced]
    have hm := ih hb hnests
    refine ⟨.inlineRule start hid hany hplain hm.isNormal, ?_, rfl, fun hflat => ?_⟩
    · rw [shown, shown, hm.shown_eq]
    · rw [hm.eq_of_isFlat hflat]
  | choice start hlength _ ih =>
    rw [hasPlainProps, allHavePlainProps_iff] at hprops
    refine prints_choice_spliced start hlength fun e he => ih e he (hprops e he) ?_
    rw [spliced, splicedAll_eq, nestsNoSequence, allNestNoSequence_iff] at hnests
    exact nestsNoSequence_of_branchesOf fun branch hbranch =>
      hnests branch (List.mem_flatMap.mpr ⟨_, List.mem_map_of_mem he, hbranch⟩)
  | @sequence start elements markers hlength hsingle hnames _ ih =>
    rw [hasPlainProps, allHavePlainProps_iff] at hprops
    by_cases hmany : 2 ≤ elements.length ∨ markers.flatten ≠ []
    · exact prints_sequence_spliced start hlength hmany hnames
        (fun e he hnests => ih e he (hprops e he) hnests) hnests
    · -- Without markers a sequence does not have one element, so it has none.
      obtain ⟨hfew, hnone⟩ := not_or.mp hmany
      rw [not_not] at hnone
      have hone : elements.length ≠ 1 := fun hone => hsingle hone hnone
      obtain rfl := List.eq_nil_of_length_eq_zero (l := elements) (by omega)
      obtain ⟨gap, rfl⟩ := List.length_eq_one_iff.mp hlength
      rw [List.flatten_singleton] at hnone
      subst hnone
      cases merge <;> exact ⟨.empty start, rfl, rfl, fun _ => rfl⟩
  | repeated start kind _ ih =>
    have hm := ih hprops hnests
    refine ⟨.repeated start kind hm.isNormal, ?_, rfl, fun hflat => ?_⟩
    · rw [shown_spliced]
    · rw [spliced, hm.eq_of_isFlat hflat]
  | literal start value => exact ⟨.literal start value, rfl, rfl, fun _ => rfl⟩
  | set start inverted h => exact ⟨.set start inverted h, rfl, rfl, fun _ => rfl⟩
  | any start => exact ⟨.any start, rfl, rfl, fun _ => rfl⟩
  | charClass start cls => exact ⟨.charClass start cls, rfl, rfl, fun _ => rfl⟩

/-- Normal expressions that print alike are the same apart from places. -/
theorem IsNormal.bare_eq {m m' : Expr} (h : m.IsNormal) (h' : m'.IsNormal)
    (hshown : m.shown = m'.shown) : m.bare = m'.bare := by
  have htext := Lexer.are_tokens (Lexer.isText_topRule h.spells)
  have htext' := Lexer.are_tokens (Lexer.isText_topRule h'.spells)
  obtain ⟨g, rest, hread, -, start, body, rfl, hbare⟩ := Reader.reads_grammar h "T" _ htext
  obtain ⟨g', rest', hread', -, start', body', rfl, hbare'⟩ :=
    Reader.reads_grammar h' "T" _ htext'
  rw [hshown, hread'] at hread
  cases hread
  exact hbare.symm.trans hbare'

/-- Where splicing leaves no sequence in a sequence, what prints alike is the same apart from places
and from the levels that make no difference. -/
theorem outline_eq_of_same {a b : Expr} (ha : a.IsReadable) (hb : b.IsReadable)
    (hprops : a.hasPlainProps = true) (hprops' : b.hasPlainProps = true)
    (hnests : (spliced decl true a).nestsNoSequence = true)
    (hnests' : (spliced decl true b).nestsNoSequence = true) (hsame : a.same b = true) :
    outline decl true a = outline decl true b := by
  have hshown : (spliced decl true a).shown = (spliced decl true b).shown := by
    rw [shown_spliced, shown_spliced]
    exact beq_iff_eq.mp hsame
  exact (ha.prints_spliced hprops hnests).isNormal.bare_eq
    (hb.prints_spliced hprops' hnests').isNormal hshown

end Expr

end GrammarCompiler
