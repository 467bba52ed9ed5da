/-
GrammarCompiler.Proofs.Printing — expressions that print without loss.

What is printed of a sequence that stands directly in a sequence are its elements,
and likewise for choices. So two expressions can print alike. Among those that do, one
is normal: it has no more levels than the text shows. It is what the text is read as.

  §1 Shapes    — expressions by their props, flat expressions, and normal ones.
  §2 Pieces    — the markers and elements of a sequence, in one list.
  §3 Texts     — lists of texts with separators between them.
  §4 Splicing  — the normal expression that prints like a given one.
-/
import GrammarCompiler.Declaration.Printer
import GrammarCompiler.Proofs.Lists
import GrammarCompiler.Proofs.Parsing
import Mathlib

namespace GrammarCompiler

open Text

/-! ## §1 Shapes -/

instance : DecidablePred IsName :=
  fun text => inferInstanceAs (Decidable (text ≠ "" ∧ ∀ c ∈ text.toList, isNameChar c = true))

namespace PropPart

/-- Whether a piece of a property value is a name. -/
def isName : PropPart → Bool
  | text _ value => decide (IsName value)
  | parameter _ _ => false

/-- Whether a piece of a property value needs no quotes: it is a name, a dot or a parameter. -/
def isPlain : PropPart → Bool
  | text _ value => value == "." || decide (IsName value)
  | parameter _ name => decide (IsName name)

/-- Whether the pieces of a property value are read as they print: they need no quotes, and no name
comes directly behind a name. -/
def arePlain : List PropPart → Bool
  | [] => true
  | part :: rest => part.isPlain && !(part.isName && rest.head?.any isName) && arePlain rest

end PropPart

/-- Whether a property is read as it prints. -/
def NodeProp.isPlain (p : NodeProp) : Bool :=
  decide (IsName p.name) && PropPart.arePlain p.value

namespace Expr

mutual

/-- Whether the props in an expression, those of inline rules and of specializations, are read as
they print. -/
def hasPlainProps : Expr → Bool
  | name _ _ args => allHavePlainProps args
  | specialize _ _ props token content =>
    props.all NodeProp.isPlain && token.hasPlainProps && content.hasPlainProps
  | inlineRule _ _ props body => props.all NodeProp.isPlain && body.hasPlainProps
  | choice _ alternatives => allHavePlainProps alternatives
  | sequence _ elements _ => allHavePlainProps elements
  | repeated _ body _ => body.hasPlainProps
  | literal _ _ => true
  | set _ _ _ => true
  | any _ => true
  | charClass _ _ => true

/-- Whether the props in each expression are like that. -/
def allHavePlainProps : List Expr → Bool
  | [] => true
  | e :: rest => e.hasPlainProps && allHavePlainProps rest

end

mutual

/-- Whether no inline rule and no specialization in an expression has props. -/
def hasNoProps : Expr → Bool
  | name _ _ args => allHaveNoProps args
  | specialize _ _ props token content => props.isEmpty && token.hasNoProps && content.hasNoProps
  | inlineRule _ _ props body => props.isEmpty && body.hasNoProps
  | choice _ alternatives => allHaveNoProps alternatives
  | sequence _ elements _ => allHaveNoProps elements
  | repeated _ body _ => body.hasNoProps
  | literal _ _ => true
  | set _ _ _ => true
  | any _ => true
  | charClass _ _ => true

/-- Whether there are no props in any of the expressions. -/
def allHaveNoProps : List Expr → Bool
  | [] => true
  | e :: rest => e.hasNoProps && allHaveNoProps rest

end

/-- Whether an expression is a sequence. -/
def isSequence : Expr → Bool
  | .sequence .. => true
  | _ => false

/-- Whether an expression is a choice. -/
def isChoice : Expr → Bool
  | .choice .. => true
  | _ => false

mutual

/-- Whether no sequence in an expression is a direct element of a sequence, and no choice a direct
alternative of a choice. -/
def isFlat : Expr → Bool
  | name _ _ args => allAreFlat args
  | specialize _ _ _ token content => token.isFlat && content.isFlat
  | inlineRule _ _ _ body => body.isFlat
  | choice _ alternatives => allAreFlat alternatives && alternatives.all (!·.isChoice)
  | sequence _ elements _ => allAreFlat elements && elements.all (!·.isSequence)
  | repeated _ body _ => body.isFlat
  | literal _ _ => true
  | set _ _ _ => true
  | any _ => true
  | charClass _ _ => true

/-- Whether the expressions are all like that. -/
def allAreFlat : List Expr → Bool
  | [] => true
  | e :: rest => e.isFlat && allAreFlat rest

end

@[simp] theorem allHaveNoProps_iff {es : List Expr} :
    allHaveNoProps es = true ↔ ∀ e ∈ es, e.hasNoProps = true := by
  induction es with
  | nil => simp [allHaveNoProps]
  | cons e es ih => simp [allHaveNoProps, ih]

@[simp] theorem allHavePlainProps_iff {es : List Expr} :
    allHavePlainProps es = true ↔ ∀ e ∈ es, e.hasPlainProps = true := by
  induction es with
  | nil => simp [allHavePlainProps]
  | cons e es ih => simp [allHavePlainProps, ih]

@[simp] theorem allAreFlat_iff {es : List Expr} :
    allAreFlat es = true ↔ ∀ e ∈ es, e.isFlat = true := by
  induction es with
  | nil => simp [allAreFlat]
  | cons e es ih => simp [allAreFlat, ih]

/-- Expressions that are what their text is read as. The only sequence that can be an element of one
is the empty sequence, which has a text of its own. -/
inductive IsNormal : Expr → Prop
  | name (start : Nat) {id : String} {args : List Expr} (hid : IsName id) (hany : id ≠ "_")
      (h : ∀ a ∈ args, IsNormal a) : IsNormal (.name start id args)
  | specialize (start : Nat) (kind : SpecializeKind) {props : List NodeProp} {token content : Expr}
      (hprops : ∀ p ∈ props, p.isPlain = true) (htoken : IsNormal token)
      (hcontent : IsNormal content) : IsNormal (.specialize start kind props token content)
  | inlineRule (start : Nat) {id : String} {props : List NodeProp} {body : Expr} (hid : IsName id)
      (hany : id ≠ "_") (hprops : ∀ p ∈ props, p.isPlain = true) (h : IsNormal body) :
      IsNormal (.inlineRule start id props body)
  | choice (start : Nat) {alternatives : List Expr} (hlength : 2 ≤ alternatives.length)
      (h : ∀ e ∈ alternatives, IsNormal e) (hdirect : ∀ e ∈ alternatives, e.isChoice = false) :
      IsNormal (.choice start alternatives)
  | empty (start : Nat) : IsNormal (Expr.empty start)
  | sequence (start : Nat) {elements : List Expr} {markers : List (List Marker)}
      (hlength : markers.length = elements.length + 1)
      (hmany : 2 ≤ elements.length ∨ markers.flatten ≠ [])
      (hnames : ∀ gap ∈ markers, ∀ m ∈ gap, IsName m.id.name)
      (h : ∀ e ∈ elements, IsNormal e)
      (hdirect : ∀ e ∈ elements, e.isSequence = true → e.isEmpty = true) :
      IsNormal (.sequence start elements markers)
  | repeated (start : Nat) {body : Expr} (kind : RepeatKind) (h : IsNormal body) :
      IsNormal (.repeated start body kind)
  | literal (start : Nat) (value : String) : IsNormal (.literal start value)
  | set (start : Nat) {ranges : List CodeRange} (inverted : Bool)
      (h : CharSet.IsCanonical ranges) : IsNormal (.set start ranges inverted)
  | any (start : Nat) : IsNormal (.any start)
  | charClass (start : Nat) (cls : CharClass) : IsNormal (.charClass start cls)

theorem one_le_tightness (e : Expr) : 1 ≤ e.tightness := by
  cases e <;> simp [tightness]

/-- Only the elements of sequences and what is repeated ever get parentheses. -/
theorem showAll_eq {least : Nat} (h : least ≤ 1) (es : List Expr) :
    showAll least es = es.map shown := by
  induction es with
  | nil => rfl
  | cons e es ih =>
    have := one_le_tightness e
    rw [showAll, if_neg (by omega), ih, List.map_cons]

/-! ## §2 Pieces -/

/-- The markers and elements of a sequence, in order. -/
def pieces : List Expr → List (List Marker) → List (Marker ⊕ Expr)
  | [], markers => markers.flatten.map .inl
  | e :: rest, markers => (markers.head?.getD []).map .inl ++ .inr e :: pieces rest markers.tail

/-- The elements among the pieces of a sequence, and the markers around them. -/
def ofPieces : List (Marker ⊕ Expr) → List Expr × List (List Marker)
  | [] => ([], [[]])
  | .inl m :: rest =>
    ((ofPieces rest).1, (m :: (ofPieces rest).2.head?.getD []) :: (ofPieces rest).2.tail)
  | .inr e :: rest => (e :: (ofPieces rest).1, [] :: (ofPieces rest).2)

theorem length_ofPieces (ps : List (Marker ⊕ Expr)) :
    (ofPieces ps).2.length = (ofPieces ps).1.length + 1 := by
  induction ps with
  | nil => rfl
  | cons p ps ih =>
    cases p <;> simp [ofPieces, ih]

theorem pieces_ofPieces (ps : List (Marker ⊕ Expr)) :
    pieces (ofPieces ps).1 (ofPieces ps).2 = ps := by
  induction ps with
  | nil => rfl
  | cons p ps ih =>
    cases p with
    | inr e => simp [ofPieces, pieces, ih]
    | inl m =>
      have hlength := length_ofPieces ps
      -- The marker comes before the first gap of what follows, which is there.
      obtain ⟨gap, gaps, hgaps⟩ := List.exists_cons_of_length_eq_add_one hlength
      rw [hgaps] at ih
      rw [ofPieces, hgaps]
      generalize (ofPieces ps).1 = elements at ih
      cases elements <;> simpa [pieces] using ih

theorem ofPieces_append_inl (gap : List Marker) (ps : List (Marker ⊕ Expr)) :
    ofPieces (gap.map .inl ++ ps) =
      ((ofPieces ps).1, (gap ++ (ofPieces ps).2.head?.getD []) :: (ofPieces ps).2.tail) := by
  induction gap with
  | nil =>
    obtain ⟨first, gaps, hgaps⟩ := List.exists_cons_of_length_eq_add_one (length_ofPieces ps)
    rw [List.map_nil, List.nil_append, List.nil_append, hgaps]
    exact Prod.ext rfl hgaps
  | cons m gap ih =>
    rw [List.map_cons, List.cons_append, ofPieces, ih]
    rfl

theorem ofPieces_pieces {elements : List Expr} {markers : List (List Marker)}
    (h : markers.length = elements.length + 1) :
    ofPieces (pieces elements markers) = (elements, markers) := by
  induction elements generalizing markers with
  | nil =>
    obtain ⟨gap, rfl⟩ := List.length_eq_one_iff.mp h
    rw [pieces, List.flatten_singleton, ← List.append_nil (gap.map _), ofPieces_append_inl]
    simp [ofPieces]
  | cons e elements ih =>
    obtain ⟨gap, gaps, rfl⟩ := List.exists_cons_of_length_eq_add_one h
    rw [pieces, ofPieces_append_inl]
    simp [ofPieces, ih (Nat.succ.inj h)]

theorem mem_ofPieces {ps : List (Marker ⊕ Expr)} {e : Expr} :
    e ∈ (ofPieces ps).1 ↔ .inr e ∈ ps := by
  induction ps with
  | nil => simp [ofPieces]
  | cons p ps ih => cases p <;> simp [ofPieces, ih]

theorem mem_markers_ofPieces {ps : List (Marker ⊕ Expr)} {m : Marker} :
    m ∈ (ofPieces ps).2.flatten ↔ .inl m ∈ ps := by
  induction ps with
  | nil => simp [ofPieces]
  | cons p ps ih =>
    cases p with
    | inr e => simp [ofPieces, ih]
    | inl m' =>
      obtain ⟨gap, gaps, hgaps⟩ := List.exists_cons_of_length_eq_add_one (length_ofPieces ps)
      rw [hgaps] at ih
      simp only [ofPieces, hgaps, List.head?_cons, Option.getD_some, List.tail_cons,
        List.flatten_cons, List.cons_append, List.mem_cons, Sum.inl.injEq]
      rw [← ih, List.flatten_cons]

/-- Without markers, all pieces are elements. -/
theorem length_ofPieces_of_no_marker {ps : List (Marker ⊕ Expr)} (h : ∀ m, .inl m ∉ ps) :
    (ofPieces ps).1.length = ps.length := by
  induction ps with
  | nil => rfl
  | cons p ps ih =>
    cases p with
    | inl m => exact absurd List.mem_cons_self (h m)
    | inr e => simp [ofPieces, ih fun m hm => h m (List.mem_cons_of_mem _ hm)]

theorem forall_mem_pieces {P : Marker ⊕ Expr → Prop} {elements : List Expr}
    {markers : List (List Marker)} (hlength : markers.length = elements.length + 1)
    (hmarkers : ∀ gap ∈ markers, ∀ m ∈ gap, P (.inl m)) (h : ∀ e ∈ elements, P (.inr e)) :
    ∀ p ∈ pieces elements markers, P p := by
  intro p hp
  cases p with
  | inl m =>
    rw [← mem_markers_ofPieces, ofPieces_pieces hlength] at hp
    obtain ⟨gap, hgap, hm⟩ := List.mem_flatten.mp hp
    exact hmarkers gap hgap m hm
  | inr e =>
    rw [← mem_ofPieces, ofPieces_pieces hlength] at hp
    exact h e hp

/-- The text of a piece. -/
def showPiece : Marker ⊕ Expr → String
  | .inl m => m.shown
  | .inr e => if e.tightness < 2 then "(" ++ e.shown ++ ")" else e.shown

theorem showElements_eq (elements : List Expr) (markers : List (List Marker)) :
    showElements elements markers = (pieces elements markers).map showPiece := by
  induction elements generalizing markers with
  | nil => simp [showElements, pieces, showPiece, Function.comp_def]
  | cons e elements ih => simp [showElements, pieces, showPiece, ih, Function.comp_def]

theorem shown_sequence {start : Nat} {elements : List Expr} {markers : List (List Marker)}
    (h : (Expr.sequence start elements markers).isEmpty = false) :
    (Expr.sequence start elements markers).shown =
      " ".intercalate ((pieces elements markers).map showPiece) := by
  rw [isEmpty] at h
  rw [shown, h, if_neg Bool.false_ne_true, showElements_eq]

end Expr

/-! ## §3 Texts -/

theorem intercalate_append {sep : String} {as bs : List String} (ha : as ≠ []) (hb : bs ≠ []) :
    sep.intercalate (as ++ bs) = sep.intercalate as ++ sep ++ sep.intercalate bs := by
  obtain ⟨b, bs, rfl⟩ := List.exists_cons_of_ne_nil hb
  induction as with
  | nil => exact absurd rfl ha
  | cons a as ih =>
    cases as with
    | nil =>
      rw [String.ext_iff]
      simp [String.toList_intercalate]
    | cons a' as =>
      have ih := ih (List.cons_ne_nil _ _)
      rw [String.ext_iff] at ih ⊢
      simp only [String.toList_intercalate, String.toList_append, List.map_append, List.cons_append,
        List.map_cons, List.intercalate_cons_cons, List.append_assoc] at ih ⊢
      rw [ih]

/-- A text that is made of texts with separators can be taken for its pieces. -/
theorem intercalate_flatMap {α : Type} {sep : String} {f : α → List String} {g : α → String}
    {as : List α} (h : ∀ a ∈ as, f a ≠ [] ∧ sep.intercalate (f a) = g a) :
    sep.intercalate (as.flatMap f) = sep.intercalate (as.map g) := by
  induction as with
  | nil => rfl
  | cons a as ih =>
    obtain ⟨⟨hne, ha⟩, has⟩ := List.forall_mem_cons.mp h
    cases as with
    | nil => simpa [String.ext_iff, String.toList_intercalate] using String.ext_iff.mp ha
    | cons a' as =>
      have hrest : (a' :: as).flatMap f ≠ [] := by
        rw [List.flatMap_cons]
        exact List.append_ne_nil_of_left_ne_nil (has a' List.mem_cons_self).1 _
      have hmap : sep.intercalate ((a :: a' :: as).map g) =
          g a ++ sep ++ sep.intercalate ((a' :: as).map g) := by
        rw [String.ext_iff]
        simp [String.toList_intercalate]
      rw [List.flatMap_cons, intercalate_append hne hrest, ih has, ha, hmap]

/-! ## §4 Splicing -/

namespace Expr

/-- The alternatives that an alternative of a choice comes to. -/
def alternativesOf : Expr → List Expr
  | .choice _ alternatives => alternatives
  | e => [e]

/-- The pieces that a piece of a sequence comes to. -/
def piecesOf : Marker ⊕ Expr → List (Marker ⊕ Expr)
  | .inr (.sequence start elements markers) =>
    if elements.isEmpty && markers.all (·.isEmpty) then [.inr (.sequence start elements markers)]
    else pieces elements markers
  | p => [p]

/-- `e.Prints m`: the expression `m` is normal and prints like `e`. If that has no more levels
than the text shows, they are the same. -/
structure Prints (e m : Expr) : Prop where
  isNormal : m.IsNormal
  shown_eq : m.shown = e.shown
  tightness_eq : m.tightness = e.tightness
  eq_of_isFlat : e.isFlat = true → m = e

section

variable {es ms : List Expr} (h : List.Forall₂ Prints es ms)
include h

theorem forall_isNormal_of_prints : ∀ m ∈ ms, m.IsNormal := by
  intro m hm
  obtain ⟨e, -, he⟩ := exists_of_mem_forall₂ h.flip hm
  exact he.isNormal

theorem map_shown_of_prints : ms.map shown = es.map shown := by
  induction h with
  | nil => rfl
  | cons h _ ih => rw [List.map_cons, List.map_cons, h.shown_eq, ih]

theorem eq_of_prints (hflat : ∀ e ∈ es, e.isFlat = true) : ms = es := by
  induction h with
  | nil => rfl
  | cons h _ ih =>
    obtain ⟨he, hes⟩ := List.forall_mem_cons.mp hflat
    rw [h.eq_of_isFlat he, ih hes]

theorem map_showPiece_of_prints (markers : List (List Marker)) :
    (pieces ms markers).map showPiece = (pieces es markers).map showPiece := by
  induction h generalizing markers with
  | nil => rfl
  | cons h _ ih => simp [pieces, showPiece, ih, h.shown_eq, h.tightness_eq]

theorem prints_name (start : Nat) {id : String} (hid : IsName id) (hany : id ≠ "_") :
    Prints (.name start id es) (.name start id ms) where
  isNormal := .name start hid hany (forall_isNormal_of_prints h)
  shown_eq := by
    have hempty : ms.isEmpty = es.isEmpty := by
      rw [← List.isEmpty_map, map_shown_of_prints h, List.isEmpty_map]
    rw [shown, shown, showAll_eq (Nat.zero_le _), showAll_eq (Nat.zero_le _), hempty,
      map_shown_of_prints h]
  tightness_eq := rfl
  eq_of_isFlat hflat := by
    rw [isFlat, allAreFlat_iff] at hflat
    rw [eq_of_prints h hflat]

end

/-! ### Choices -/

theorem alternativesOf_eq_singleton {e : Expr} (h : e.isChoice = false) :
    e.alternativesOf = [e] := by
  cases e with
  | choice => cases h
  | _ => rfl

theorem isNormal_of_mem_alternativesOf {m e : Expr} (h : m.IsNormal) (he : e ∈ m.alternativesOf) :
    e.IsNormal ∧ e.isChoice = false := by
  cases hchoice : m.isChoice with
  | false =>
    rw [alternativesOf_eq_singleton hchoice, List.mem_singleton] at he
    rw [he]
    exact ⟨h, hchoice⟩
  | true =>
    cases h with
    | choice start _ h hdirect => exact ⟨h e he, hdirect e he⟩
    | _ => cases hchoice

theorem shown_alternativesOf {m : Expr} (h : m.IsNormal) :
    m.alternativesOf.map shown ≠ [] ∧ " | ".intercalate (m.alternativesOf.map shown) = m.shown := by
  cases hchoice : m.isChoice with
  | false =>
    rw [alternativesOf_eq_singleton hchoice]
    exact ⟨List.cons_ne_nil _ _, by simp⟩
  | true =>
    cases h with
    | @choice start alternatives hlength _ _ =>
      refine ⟨fun hnil => ?_, by rw [alternativesOf, shown, showAll_eq (Nat.le_refl _)]⟩
      rw [alternativesOf, List.map_eq_nil_iff] at hnil
      rw [hnil] at hlength
      cases hlength
    | _ => cases hchoice

theorem prints_choice {es ms : List Expr} (h : List.Forall₂ Prints es ms) (start : Nat)
    (hlength : 2 ≤ es.length) :
    Prints (.choice start es) (.choice start (ms.flatMap alternativesOf)) := by
  have hnormal := forall_isNormal_of_prints h
  have hmem {e : Expr} (he : e ∈ ms.flatMap alternativesOf) : e.IsNormal ∧ e.isChoice = false := by
    obtain ⟨m, hm, he⟩ := List.mem_flatMap.mp he
    exact isNormal_of_mem_alternativesOf (hnormal m hm) he
  have hmany : ms.length ≤ (ms.flatMap alternativesOf).length :=
    length_le_length_flatMap fun m hm hnil =>
      (shown_alternativesOf (hnormal m hm)).1 (by rw [hnil, List.map_nil])
  exact {
    isNormal := .choice start (hlength.trans (h.length_eq.le.trans hmany)) (fun e he => (hmem he).1)
      fun e he => (hmem he).2
    shown_eq := by
      rw [shown, shown, showAll_eq (Nat.le_refl _), showAll_eq (Nat.le_refl _), List.map_flatMap,
        intercalate_flatMap fun m hm => shown_alternativesOf (hnormal m hm), map_shown_of_prints h]
    tightness_eq := rfl
    eq_of_isFlat := fun hflat => by
      simp only [isFlat, Bool.and_eq_true, allAreFlat_iff, List.all_eq_true,
        Bool.not_eq_true'] at hflat
      obtain ⟨hes, hdirect⟩ := hflat
      have hsame : ms = es := eq_of_prints h hes
      subst hsame
      rw [List.flatMap_congr fun m hm => alternativesOf_eq_singleton (hdirect m hm),
        List.flatMap_singleton'] }

/-! ### Sequences -/

/-- The pieces of a sequence as it is read: what stands in it directly does not print as pieces. -/
def IsSettled : Marker ⊕ Expr → Prop
  | .inl m => IsName m.id.name
  | .inr e => e.IsNormal ∧ (e.isSequence = true → e.isEmpty = true)

/-- A sequence is made of its pieces. -/
theorem isNormal_sequence {ps : List (Marker ⊕ Expr)} (start : Nat)
    (hps : ∀ p ∈ ps, IsSettled p) (hmany : 2 ≤ ps.length ∨ ∃ m, .inl m ∈ ps) :
    (Expr.sequence start (ofPieces ps).1 (ofPieces ps).2).IsNormal := by
  refine .sequence start (length_ofPieces ps) ?_ (fun gap hgap m hm => ?_)
    (fun e he => (hps _ (mem_ofPieces.mp he)).1) fun e he => (hps _ (mem_ofPieces.mp he)).2
  · by_cases hmarker : ∃ m, .inl m ∈ ps
    · obtain ⟨m, hm⟩ := hmarker
      exact .inr (List.ne_nil_of_mem (mem_markers_ofPieces.mpr hm))
    · rw [length_ofPieces_of_no_marker (not_exists.mp hmarker)]
      exact .inl (hmany.resolve_right hmarker)
  · exact hps (.inl m) (mem_markers_ofPieces.mp (List.mem_flatten_of_mem hgap hm))

theorem shown_sequence_ofPieces {ps : List (Marker ⊕ Expr)} (start : Nat) (h : ps ≠ []) :
    (Expr.sequence start (ofPieces ps).1 (ofPieces ps).2).shown =
      " ".intercalate (ps.map showPiece) := by
  have hfull : (Expr.sequence start (ofPieces ps).1 (ofPieces ps).2).isEmpty = false := by
    cases ps with
    | nil => exact absurd rfl h
    | cons p ps => cases p <;> simp [isEmpty, ofPieces]
  rw [shown_sequence hfull, pieces_ofPieces]

/-- What stands in a normal sequence that has pieces. -/
theorem isSettled_of_mem_pieces {elements : List Expr} {markers : List (List Marker)}
    (hlength : markers.length = elements.length + 1)
    (hnames : ∀ gap ∈ markers, ∀ m ∈ gap, IsName m.id.name)
    (h : ∀ e ∈ elements, e.IsNormal ∧ (e.isSequence = true → e.isEmpty = true)) :
    ∀ p ∈ pieces elements markers, IsSettled p :=
  forall_mem_pieces hlength hnames h

theorem piecesOf_eq_singleton {e : Expr} (h : e.isSequence = true → e.isEmpty = true) :
    piecesOf (.inr e) = [.inr e] := by
  cases e with
  | sequence start elements markers => exact if_pos (h rfl)
  | _ => rfl

theorem piecesOf_sequence {start : Nat} {elements : List Expr} {markers : List (List Marker)}
    (h : (Expr.sequence start elements markers).isEmpty = false) :
    piecesOf (.inr (.sequence start elements markers)) = pieces elements markers :=
  if_neg (by rw [isEmpty] at h; simp [h])

theorem isSettled_of_mem_piecesOf {e : Expr} (h : e.IsNormal) :
    ∀ p ∈ piecesOf (.inr e), IsSettled p := by
  by_cases hsettled : e.isSequence = true → e.isEmpty = true
  · rw [piecesOf_eq_singleton hsettled]
    exact List.forall_mem_singleton.mpr ⟨h, hsettled⟩
  · obtain ⟨hseq, hempty⟩ := Classical.not_imp.mp hsettled
    rw [Bool.not_eq_true] at hempty
    cases h with
    | sequence start hlength _ hnames h hdirect =>
      rw [piecesOf_sequence hempty]
      exact isSettled_of_mem_pieces hlength hnames fun e he => ⟨h e he, hdirect e he⟩
    | empty => cases hempty
    | _ => cases hseq

theorem shown_piecesOf {e : Expr} (h : e.IsNormal) :
    piecesOf (.inr e) ≠ [] ∧
      " ".intercalate ((piecesOf (.inr e)).map showPiece) = showPiece (.inr e) := by
  by_cases hsettled : e.isSequence = true → e.isEmpty = true
  · rw [piecesOf_eq_singleton hsettled]
    exact ⟨List.cons_ne_nil _ _, by simp⟩
  · obtain ⟨hseq, hempty⟩ := Classical.not_imp.mp hsettled
    rw [Bool.not_eq_true] at hempty
    cases h with
    | @sequence start elements markers hlength hmany _ _ _ =>
      rw [piecesOf_sequence hempty]
      refine ⟨fun hnil => ?_, ?_⟩
      · have hnone := ofPieces_pieces hlength
        rw [hnil] at hnone
        cases hnone
        rcases hmany with hmany | hmany
        · cases hmany
        · exact hmany rfl
      · have hshown : showPiece (.inr (.sequence start elements markers)) =
            (Expr.sequence start elements markers).shown := by
          rw [showPiece, tightness, if_neg (Nat.lt_irrefl 2)]
        rw [hshown, shown_sequence hempty]
    | empty => cases hempty
    | _ => cases hseq

theorem prints_sequence {es ms : List Expr} {markers : List (List Marker)}
    (h : List.Forall₂ Prints es ms) (start : Nat) (hlength : markers.length = es.length + 1)
    (hmany : 2 ≤ es.length ∨ markers.flatten ≠ [])
    (hnames : ∀ gap ∈ markers, ∀ m ∈ gap, IsName m.id.name) :
    let ps := (pieces ms markers).flatMap piecesOf
    Prints (.sequence start es markers) (.sequence start (ofPieces ps).1 (ofPieces ps).2) := by
  intro ps
  have hnormal := forall_isNormal_of_prints h
  have hlength' : markers.length = ms.length + 1 := by rw [hlength, h.length_eq]
  have hpiece {e : Expr} (he : .inr e ∈ pieces ms markers) : e.IsNormal := by
    rw [← mem_ofPieces, ofPieces_pieces hlength'] at he
    exact hnormal e he
  have hmarker {m : Marker} : .inl m ∈ pieces ms markers ↔ m ∈ markers.flatten := by
    rw [← mem_markers_ofPieces, ofPieces_pieces hlength']
  have hshown : ∀ p ∈ pieces ms markers,
      (piecesOf p).map showPiece ≠ [] ∧
        " ".intercalate ((piecesOf p).map showPiece) = showPiece p := by
    rintro (m | e) hp
    · exact ⟨List.cons_ne_nil _ _, by simp [piecesOf]⟩
    · obtain ⟨hne, heq⟩ := shown_piecesOf (hpiece hp)
      exact ⟨List.map_eq_nil_iff.not.mpr hne, heq⟩
  have hsettled : ∀ p ∈ ps, IsSettled p := by
    intro q hq
    obtain ⟨m | e, hp, hq⟩ := List.mem_flatMap.mp hq
    · obtain rfl := List.mem_singleton.mp hq
      obtain ⟨gap, hgap, hm⟩ := List.mem_flatten.mp (hmarker.mp hp)
      exact hnames gap hgap m hm
    · exact isSettled_of_mem_piecesOf (hpiece hp) q hq
  -- A sequence has a marker, or it has as many pieces as elements.
  have hmany' : 2 ≤ ps.length ∨ ∃ m, .inl m ∈ ps := by
    by_cases hnone : markers.flatten = []
    · have hcount : ms.length = (pieces ms markers).length := by
        rw [← length_ofPieces_of_no_marker fun m hm => ?_, ofPieces_pieces hlength']
        rw [hmarker, hnone] at hm
        cases hm
      have : (pieces ms markers).length ≤ ps.length := length_le_length_flatMap fun p hp hnil =>
        (hshown p hp).1 (by rw [hnil, List.map_nil])
      have := hmany.resolve_right (absurd hnone)
      have := h.length_eq
      left
      omega
    · obtain ⟨m, hm⟩ := List.exists_mem_of_ne_nil _ hnone
      exact .inr ⟨m, List.mem_flatMap.mpr ⟨_, hmarker.mpr hm, List.mem_singleton_self _⟩⟩
  have hne : ps ≠ [] := by
    rintro hnil
    rcases hmany' with hmany' | ⟨m, hm⟩
    · simp [hnil] at hmany'
    · simp [hnil] at hm
  have hfull : (Expr.sequence start es markers).isEmpty = false := by
    rcases hmany with hmany | hmany
    · have : es.isEmpty = false := List.isEmpty_eq_false_iff.mpr (List.ne_nil_of_length_pos (by omega))
      rw [isEmpty, this, Bool.false_and]
    · have : markers.all (·.isEmpty) = false := by
        rw [← Bool.not_eq_true]
        simpa [List.flatten_eq_nil_iff] using hmany
      rw [isEmpty, this, Bool.and_false]
  exact {
    isNormal := isNormal_sequence start hsettled hmany'
    shown_eq := by
      rw [shown_sequence_ofPieces start hne, List.map_flatMap, intercalate_flatMap hshown,
        map_showPiece_of_prints h, shown_sequence hfull]
    tightness_eq := rfl
    eq_of_isFlat := fun hflat => by
      simp only [isFlat, Bool.and_eq_true, allAreFlat_iff, List.all_eq_true,
        Bool.not_eq_true'] at hflat
      obtain ⟨hes, hdirect⟩ := hflat
      have hsame : ms = es := eq_of_prints h hes
      have hsingle : ∀ p ∈ pieces ms markers, piecesOf p = [p] := by
        rintro (m | e) hp
        · rfl
        · rw [← mem_ofPieces, ofPieces_pieces hlength', hsame] at hp
          exact piecesOf_eq_singleton fun hseq => by simp [hdirect e hp] at hseq
      have hps : ps = pieces ms markers := by
        rw [← List.flatMap_singleton' (pieces ms markers)]
        exact List.flatMap_congr hsingle
      rw [hps, ofPieces_pieces hlength', hsame] }

/-! ### All expressions -/

mutual

theorem hasPlainProps_of_hasNoProps : ∀ e : Expr, e.hasNoProps = true → e.hasPlainProps = true
  | name _ _ args, h => allHavePlainProps_of_allHaveNoProps args h
  | specialize _ _ props token content, h => by
    simp only [hasNoProps, Bool.and_eq_true, List.isEmpty_iff] at h
    obtain ⟨⟨rfl, ht⟩, hc⟩ := h
    simp [hasPlainProps, hasPlainProps_of_hasNoProps token ht,
      hasPlainProps_of_hasNoProps content hc]
  | inlineRule _ _ props body, h => by
    simp only [hasNoProps, Bool.and_eq_true, List.isEmpty_iff] at h
    obtain ⟨rfl, hb⟩ := h
    simp [hasPlainProps, hasPlainProps_of_hasNoProps body hb]
  | choice _ alternatives, h => allHavePlainProps_of_allHaveNoProps alternatives h
  | sequence _ elements _, h => allHavePlainProps_of_allHaveNoProps elements h
  | repeated _ body _, h => hasPlainProps_of_hasNoProps body h
  | literal _ _, _ => rfl
  | set _ _ _, _ => rfl
  | any _, _ => rfl
  | charClass _ _, _ => rfl

theorem allHavePlainProps_of_allHaveNoProps :
    ∀ es : List Expr, allHaveNoProps es = true → allHavePlainProps es = true
  | [], _ => rfl
  | e :: es, h => by
    rw [allHaveNoProps, Bool.and_eq_true] at h
    rw [allHavePlainProps, hasPlainProps_of_hasNoProps e h.1,
      allHavePlainProps_of_allHaveNoProps es h.2, Bool.and_true]

end

/-- For every expression that can be read, with props that are read as they print, there is a normal
one that prints like it. -/
theorem IsReadable.exists_prints_of_plain {e : Expr} (h : e.IsReadable)
    (hprops : e.hasPlainProps = true) : ∃ m, e.Prints m := by
  induction h with
  | @name start id args hid hany _ ih =>
    rw [hasPlainProps, allHavePlainProps_iff] at hprops
    obtain ⟨ms, hms⟩ := exists_forall₂ fun a ha => ih a ha (hprops a ha)
    exact ⟨_, prints_name hms start hid hany⟩
  | @specialize start kind props token content _ _ htoken hcontent =>
    simp only [hasPlainProps, Bool.and_eq_true, List.all_eq_true] at hprops
    obtain ⟨⟨hplain, ht⟩, hc⟩ := hprops
    obtain ⟨m, hm⟩ := htoken ht
    obtain ⟨m', hm'⟩ := hcontent hc
    refine ⟨_, .specialize start kind hplain hm.isNormal hm'.isNormal, ?_, rfl, fun hflat => ?_⟩
    · rw [shown, shown, hm.shown_eq, hm'.shown_eq]
    · rw [isFlat, Bool.and_eq_true] at hflat
      rw [hm.eq_of_isFlat hflat.1, hm'.eq_of_isFlat hflat.2]
  | @inlineRule start id props body hid hany _ ih =>
    simp only [hasPlainProps, Bool.and_eq_true, List.all_eq_true] at hprops
    obtain ⟨hplain, hb⟩ := hprops
    obtain ⟨m, hm⟩ := ih hb
    refine ⟨_, .inlineRule start hid hany hplain hm.isNormal, ?_, rfl, fun hflat => ?_⟩
    · rw [shown, shown, hm.shown_eq]
    · rw [hm.eq_of_isFlat hflat]
  | choice start hlength _ ih =>
    rw [hasPlainProps, allHavePlainProps_iff] at hprops
    obtain ⟨ms, hms⟩ := exists_forall₂ fun e he => ih e he (hprops e he)
    exact ⟨_, prints_choice hms start hlength⟩
  | @sequence start elements markers hlength hsingle hnames _ ih =>
    rw [hasPlainProps, allHavePlainProps_iff] at hprops
    by_cases hmany : 2 ≤ elements.length ∨ markers.flatten ≠ []
    · obtain ⟨ms, hms⟩ := exists_forall₂ fun e he => ih e he (hprops e he)
      exact ⟨_, prints_sequence hms start hlength hmany hnames⟩
    · -- Without markers a sequence does not have one element, so it has none.
      obtain ⟨hfew, hnone⟩ := not_or.mp hmany
      rw [not_not] at hnone
      have hone : elements.length ≠ 1 := fun hone => hsingle hone hnone
      obtain rfl := List.eq_nil_of_length_eq_zero (l := elements) (by omega)
      obtain ⟨gap, rfl⟩ := List.length_eq_one_iff.mp hlength
      rw [List.flatten_singleton] at hnone
      subst hnone
      exact ⟨Expr.empty start, .empty start, rfl, rfl, fun _ => rfl⟩
  | repeated start kind _ ih =>
    obtain ⟨m, hm⟩ := ih hprops
    refine ⟨.repeated start m kind, .repeated start kind hm.isNormal, ?_, rfl, fun hflat => ?_⟩
    · rw [shown, shown, hm.shown_eq, hm.tightness_eq]
    · rw [hm.eq_of_isFlat hflat]
  | literal start value => exact ⟨_, .literal start value, rfl, rfl, fun _ => rfl⟩
  | set start inverted h => exact ⟨_, .set start inverted h, rfl, rfl, fun _ => rfl⟩
  | any start => exact ⟨_, .any start, rfl, rfl, fun _ => rfl⟩
  | charClass start cls => exact ⟨_, .charClass start cls, rfl, rfl, fun _ => rfl⟩

theorem IsReadable.exists_prints {e : Expr} (h : e.IsReadable) (hprops : e.hasNoProps = true) :
    ∃ m, e.Prints m :=
  h.exists_prints_of_plain (hasPlainProps_of_hasNoProps e hprops)

end Expr

end GrammarCompiler
