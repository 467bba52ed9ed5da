/-
GrammarCompiler.Proofs.Offsets — the places of the lexer.

The lexer works on characters and counts bytes. What it has read is a part of the
text, and the offset is the size of that part: so it stands between two characters,
and in no place before the one where it started.

  §1 Boundaries — offsets between characters, and their positions.
  §2 Cursors    — moving on in a text.
  §3 Blanks, escapes, strings and sets — every loop in them makes progress.
  §4 Tokens     — every token takes a character, so the lexer gets to the end.
-/
import GrammarCompiler.Proofs.Looping
import GrammarCompiler.Proofs.Placing
import GrammarCompiler.Proofs.Scanning

namespace GrammarCompiler

open Text Lexer

/-! ## §1 Boundaries -/

namespace Lexer

theorem byteSize_append (before after : List Char) :
    byteSize (before ++ after) = byteSize before + byteSize after := by
  induction before with
  | nil => exact (Nat.zero_add _).symm
  | cons c before ih => rw [List.cons_append, byteSize, byteSize, ih, Nat.add_assoc]

theorem byteSize_toList (text : String) : byteSize text.toList = text.utf8ByteSize := by
  have hlen (cs : List Char) : byteSize cs = String.utf8Len cs := by
    induction cs with
    | nil => rfl
    | cons c cs ih => rw [byteSize, String.utf8Len_cons, ih, Nat.add_comm]
  rw [hlen, ← String.utf8ByteSize_ofList, String.ofList_toList]

end Lexer

namespace Text

theorem isBoundary_cons (c : Char) (text : List Char) (count : Nat) :
    isBoundary (c :: text) (count + 1) =
      (decide (c.utf8Size ≤ count + 1) && isBoundary text (count + 1 - c.utf8Size)) :=
  rfl

/-- Boundaries are where what stands before ends. -/
theorem isBoundary_iff {text : List Char} {offset : Nat} :
    isBoundary text offset = true ↔
      ∃ before after, text = before ++ after ∧ byteSize before = offset := by
  induction text generalizing offset with
  | nil =>
    constructor
    · intro h
      cases offset with
      | zero => exact ⟨[], [], rfl, rfl⟩
      | succ offset => cases h
    · rintro ⟨before, after, htext, rfl⟩
      rw [(List.append_eq_nil_iff.mp htext.symm).1]
      rfl
  | cons c text ih =>
    have hpos := c.utf8Size_pos
    constructor
    · intro h
      cases offset with
      | zero => exact ⟨[], c :: text, rfl, rfl⟩
      | succ offset =>
        rw [isBoundary_cons, Bool.and_eq_true, decide_eq_true_eq] at h
        obtain ⟨before, after, htext, hsize⟩ := ih.mp h.2
        refine ⟨c :: before, after, by rw [htext, List.cons_append], ?_⟩
        rw [byteSize, hsize]
        omega
    · rintro ⟨before, after, htext, rfl⟩
      cases before with
      | nil => rfl
      | cons c' before =>
        obtain ⟨rfl, hrest⟩ := List.cons.inj htext
        obtain ⟨size, hsize⟩ : ∃ size, byteSize (c :: before) = size + 1 :=
          ⟨_, (Nat.succ_pred_eq_of_pos (Nat.add_pos_left hpos _)).symm⟩
        rw [hsize, isBoundary_cons, ← hsize, Bool.and_eq_true, decide_eq_true_eq, byteSize,
          Nat.add_sub_cancel_left]
        exact ⟨Nat.le_add_right _ _, ih.mpr ⟨before, after, hrest, rfl⟩⟩

theorem Position.advance_byteSize (p : Position) (before after : List Char) :
    p.advance (before ++ after) (byteSize before) = before.foldl Position.after p := by
  induction before generalizing p with
  | nil =>
    cases after with
    | nil => rfl
    | cons c after => exact if_pos c.utf8Size_pos
  | cons c before ih =>
    rw [List.cons_append, Position.advance, byteSize, if_neg (by omega), Nat.add_sub_cancel_left,
      ih]
    rfl

/-- The line and the column of a boundary count the characters before it. -/
theorem Source.position_byteSize (s : Source) {before after : List Char}
    (h : s.text.toList = before ++ after) :
    s.position (byteSize before) = before.foldl Position.after ⟨1, 0⟩ := by
  have hle : byteSize before ≤ s.text.utf8ByteSize := by
    rw [← byteSize_toList, h, byteSize_append]
    exact Nat.le_add_right _ _
  rw [Source.position, Source.clamp, Nat.min_eq_left hle, h, Position.advance_byteSize]

end Text

/-! ## §2 Cursors -/

namespace Lexer

/-- What is read between two cursors stands there, and counts. -/
def Cursor.Reaches (c c' : Cursor) : Prop :=
  ∃ taken, c.rest = taken ++ c'.rest ∧ c'.offset = c.offset + byteSize taken

namespace Cursor

theorem Reaches.refl (c : Cursor) : c.Reaches c :=
  ⟨[], rfl, rfl⟩

theorem Reaches.trans {c c' c'' : Cursor} (h : c.Reaches c') (h' : c'.Reaches c'') :
    c.Reaches c'' := by
  obtain ⟨taken, hrest, hoffset⟩ := h
  obtain ⟨taken', hrest', hoffset'⟩ := h'
  refine ⟨taken ++ taken', ?_, ?_⟩
  · rw [hrest, hrest', List.append_assoc]
  · rw [hoffset', hoffset, byteSize_append, Nat.add_assoc]

theorem Reaches.length_le {c c' : Cursor} (h : c.Reaches c') :
    c'.rest.length ≤ c.rest.length := by
  obtain ⟨taken, hrest, -⟩ := h
  rw [hrest, List.length_append]
  exact Nat.le_add_left _ _

theorem Reaches.offset_le {c c' : Cursor} (h : c.Reaches c') : c.offset ≤ c'.offset := by
  obtain ⟨taken, -, hoffset⟩ := h
  exact hoffset ▸ Nat.le_add_right _ _

theorem reaches_cons (c : Char) (text : List Char) (offset : Nat) :
    Reaches ⟨c :: text, offset⟩ ⟨text, offset + c.utf8Size⟩ :=
  ⟨[c], rfl, rfl⟩

theorem reaches_append (taken text : List Char) (offset : Nat) :
    Reaches ⟨taken ++ text, offset⟩ ⟨text, offset + byteSize taken⟩ :=
  ⟨taken, rfl, rfl⟩

theorem reaches_of_utf8Size {c : Char} (h : c.utf8Size = 1) (text : List Char) (offset : Nat) :
    Reaches ⟨c :: text, offset⟩ ⟨text, offset + 1⟩ :=
  h ▸ reaches_cons c text offset

/-- The places from a cursor on are fine. -/
def IsFine (Fine : Nat → Prop) (c : Cursor) : Prop :=
  ∀ c', c.Reaches c' → Fine c'.offset

theorem IsFine.of_reaches {Fine : Nat → Prop} {c c' : Cursor} (hc : c.IsFine Fine)
    (h : c.Reaches c') : c'.IsFine Fine :=
  fun _ h' => hc _ (h.trans h')

theorem IsFine.offset {Fine : Nat → Prop} {c : Cursor} (hc : c.IsFine Fine) : Fine c.offset :=
  hc c (.refl c)

end Cursor

variable {σ α β : Type} {Fine : Nat → Prop} {c : Cursor}

/-- Reading from a cursor moves on, or ends with a fault at a fine place. -/
def Scans (Fine : Nat → Prop) (c : Cursor) (Q : α → Cursor → Prop) :
    Except SyntaxError (α × Cursor) → Prop :=
  Concludes (fun x rest => c.Reaches rest ∧ Q x rest)
    fun e => e.fault ≠ .nestingTooDeep ∧ Fine e.offset

section

variable {P Q : α → Cursor → Prop} {S : β → Cursor → Prop}

theorem Scans.bind {r : Except SyntaxError (α × Cursor)}
    {f : α × Cursor → Except SyntaxError (β × Cursor)} (hr : Scans Fine c P r)
    (hf : ∀ x c', c.Reaches c' → P x c' → Scans Fine c' S (f (x, c'))) :
    Scans Fine c S (r >>= f) :=
  Concludes.bind hr fun x c' hx => (hf x c' hx.1 hx.2).mono
    (fun _ _ h => ⟨hx.1.trans h.1, h.2⟩) fun _ he => he

theorem Scans.mono {r : Except SyntaxError (α × Cursor)} (hr : Scans Fine c P r)
    (h : ∀ x rest, c.Reaches rest → P x rest → Q x rest) : Scans Fine c Q r :=
  Concludes.mono hr (fun x rest hx => ⟨hx.1, h x rest hx.1 hx.2⟩) fun _ he => he

/-- What is read from a place further on. -/
theorem Scans.of_reaches {r : Except SyntaxError (α × Cursor)} {c' : Cursor} (h : c.Reaches c')
    (hr : Scans Fine c' Q r) : Scans Fine c Q r :=
  Concludes.mono hr (fun _ _ hx => ⟨h.trans hx.1, hx.2⟩) fun _ he => he

end

/-- What is read from a place further on leaves less than there was. -/
theorem Scans.takes {r : Except SyntaxError (α × Cursor)} {c' : Cursor} (h : c.Reaches c')
    (hlength : c'.rest.length < c.rest.length) (hr : Scans Fine c' (fun _ _ => True) r) :
    Scans Fine c (fun _ rest => rest.rest.length < c.rest.length) r :=
  .of_reaches h (hr.mono fun _ _ hrest _ => hrest.length_le.trans_lt hlength)

/-- A round that goes on has taken a character, and its state is fine. -/
def TakesChar (c : Cursor) (I : σ → Prop) (r : Round σ α) (rest : Cursor) : Prop :=
  r.Is (fun next _ => rest.rest.length < c.rest.length ∧ I next) fun _ => True

/-- What loops of the lexer end with. -/
theorem scans_run (l : Loop Cursor) {I : l.State → Prop}
    (hround : ∀ fuel s c, c.IsFine Fine → I s → Scans Fine c (TakesChar c I) (l.round fuel s c))
    {fuel : Nat} {s : l.State} (hfuel : c.rest.length < fuel) (hc : c.IsFine Fine) (hs : I s) :
    Scans Fine c (fun _ _ => True) (l.run fuel s c) := by
  refine l.concludes_run False (fun _ c => c.rest.length)
    (I := fun s c => c.IsFine Fine ∧ I s) (Q := fun _ c _ rest => c.Reaches rest ∧ True)
    (fun hdeep => hdeep.elim) (fun fuel s c _ hs => ?_) fuel (.inr hfuel) ⟨hc, hs⟩
  refine Concludes.mono (hround fuel s c hs.1 hs.2) (fun r rest hr => ?_) fun _ he => he
  obtain ⟨hrest, hr⟩ := hr
  cases r with
  | leave x => exact ⟨hrest, trivial⟩
  | again next finish =>
    exact ⟨hr.1, ⟨hs.1.of_reaches hrest, hr.2⟩, fun _ _ hx => ⟨hrest.trans hx.1, trivial⟩⟩

theorem progresses_of_scans (l : Loop Cursor) {I : l.State → Prop}
    (hround : ∀ fuel s c, Scans (fun _ => True) c (TakesChar c I) (l.round fuel s c)) :
    l.Progresses fun c => c.rest.length :=
  fun fuel s c _ _ _ h => ((hround fuel s c).of_eq_ok h).2.1

/-! ## §3 Blanks, escapes, strings and sets -/

/-! ### Blanks -/

/-- A round of skipping white space and comments. -/
def blankRound : Blank → Cursor → Except SyntaxError (Round Blank Unit × Cursor)
  | .space, ⟨'/' :: '/' :: text, offset⟩ => .ok (.again .line id, ⟨text, offset + 2⟩)
  | .space, ⟨'/' :: '*' :: text, offset⟩ => .ok (.again (.block offset) id, ⟨text, offset + 2⟩)
  | .space, ⟨c :: text, offset⟩ =>
    if isBlank c then .ok (.again .space id, ⟨text, offset + c.utf8Size⟩)
    else .ok (.leave (), ⟨c :: text, offset⟩)
  | .line, ⟨c :: text, offset⟩ =>
    .ok (.again (if c = '\n' then .space else .line) id, ⟨text, offset + c.utf8Size⟩)
  | .block _, ⟨'*' :: '/' :: text, offset⟩ => .ok (.again .space id, ⟨text, offset + 2⟩)
  | .block start, ⟨c :: text, offset⟩ =>
    .ok (.again (.block start) id, ⟨text, offset + c.utf8Size⟩)
  | .block start, ⟨[], _⟩ => .error ⟨.unterminatedComment, start⟩
  | _, ⟨[], offset⟩ => .ok (.leave (), ⟨[], offset⟩)

/-- Skipping white space and comments. -/
def blanks : Loop Cursor where
  State := Blank
  Result := Unit
  run _ blank c := (skipBlank blank c.rest c.offset).map ((), ·)
  round _ := blankRound
  run_succ := by
    intro _ blank
    funext c
    refine Concludes.bind_eq ?_
    fun_cases blankRound blank c <;> simp [skipBlank, Concludes, *] <;> rfl

theorem scans_blankRound {blank : Blank} (hc : c.IsFine Fine)
    (hblank : ∀ start, blank = .block start → Fine start) :
    Scans Fine c (TakesChar c fun next => ∀ start, next = .block start → Fine start)
      (blankRound blank c) := by
  fun_cases blankRound blank c
  case case1 => exact ⟨Cursor.reaches_append ['/', '/'] _ _, by simp, by simp⟩
  case case2 =>
    refine ⟨Cursor.reaches_append ['/', '*'] _ _, by simp, fun start hstart => ?_⟩
    cases hstart
    exact hc.offset
  case case3 => exact ⟨Cursor.reaches_cons _ _ _, by simp, by simp⟩
  case case4 => exact ⟨.refl _, trivial⟩
  case case5 =>
    refine ⟨Cursor.reaches_cons _ _ _, by simp, fun start hstart => ?_⟩
    split at hstart <;> cases hstart
  case case6 => exact ⟨Cursor.reaches_append ['*', '/'] _ _, by simp, by simp⟩
  case case7 => exact ⟨Cursor.reaches_cons _ _ _, by simp, hblank⟩
  case case8 => exact ⟨by simp, hblank _ rfl⟩
  case case9 => exact ⟨.refl _, trivial⟩

theorem scans_skipBlank (hc : c.IsFine Fine) :
    Scans Fine c (fun _ _ => True) ((skipBlank .space c.rest c.offset).map ((), ·)) :=
  scans_run blanks (fun _ _ _ => scans_blankRound) (Nat.lt_succ_self _) hc (by simp)

/-! ### Escapes -/

theorem utf8Size_eq_one {c : Char} (h : c.toNat ≤ 127) : c.utf8Size = 1 :=
  Char.utf8Size_eq_one_iff.mpr (UInt32.le_iff_toNat_le.mpr h)

theorem utf8Size_of_hexValue? {c : Char} {digit : Nat} (h : hexValue? c = some digit) :
    c.utf8Size = 1 := by
  have hle (a b : Char) : a ≤ b ↔ a.toNat ≤ b.toNat := Iff.rfl
  simp only [hexValue?, Bool.and_eq_true, decide_eq_true_eq, hle] at h
  split at h
  next hrange => exact utf8Size_eq_one (hrange.2.trans (by decide))
  next =>
    split at h
    next hrange => exact utf8Size_eq_one (hrange.2.trans (by decide))
    next =>
      split at h
      next hrange => exact utf8Size_eq_one (hrange.2.trans (by decide))
      next => cases h

/-- A round of reading hexadecimal digits. -/
def hexRound (start : Nat) :
    Nat × Nat → Cursor → Except SyntaxError (Round (Nat × Nat) Nat × Cursor)
  | (0, value), c => .ok (.leave value, c)
  | (count + 1, value), ⟨c :: text, offset⟩ =>
    match hexValue? c with
    | some digit => .ok (.again (count, value * 16 + digit) id, ⟨text, offset + 1⟩)
    | none => .error ⟨.invalidEscape, start⟩
  | (_ + 1, _), ⟨[], _⟩ => .error ⟨.invalidEscape, start⟩

/-- Reading a fixed number of hexadecimal digits. -/
def hexDigits (start : Nat) : Loop Cursor where
  State := Nat × Nat
  Result := Nat
  run _ s := readHex start s.1 s.2
  round _ := hexRound start
  run_succ := by
    intro _ s
    funext c
    refine Concludes.bind_eq ?_
    fun_cases hexRound start s c <;> simp [readHex, Concludes, *]
    rfl

theorem scans_hexRound {start : Nat} (hstart : Fine start) (s : Nat × Nat) :
    Scans Fine c (TakesChar c fun _ => True) (hexRound start s c) := by
  fun_cases hexRound start s c
  case case1 => exact ⟨.refl _, trivial⟩
  case case2 hdigit =>
    exact ⟨Cursor.reaches_of_utf8Size (utf8Size_of_hexValue? hdigit) _ _, by simp, trivial⟩
  case case3 => exact ⟨by simp, hstart⟩
  case case4 => exact ⟨by simp, hstart⟩

theorem scans_readHex {start : Nat} (hc : c.IsFine Fine) (hstart : Fine start)
    (count value : Nat) : Scans Fine c (fun _ _ => True) (readHex start count value c) :=
  scans_run (hexDigits start) (s := (count, value)) (fun _ s _ _ _ => scans_hexRound hstart s)
    (Nat.lt_succ_self _) hc trivial

/-- A round of reading hexadecimal digits in braces. -/
def bracedRound (start : Nat) :
    Nat × Nat → Cursor → Except SyntaxError (Round (Nat × Nat) Nat × Cursor)
  | _, ⟨[], _⟩ => .error ⟨.invalidUnicodeEscape, start⟩
  | (value, digits), ⟨c :: text, offset⟩ =>
    if c = '\x7d' && 0 < digits then
      if 0x10ffff < value then .error ⟨.invalidUnicodeEscape, start⟩
      else .ok (.leave value, ⟨text, offset + 1⟩)
    else
      match hexValue? c with
      | some digit =>
        if digits < 6 then .ok (.again (value * 16 + digit, digits + 1) id, ⟨text, offset + 1⟩)
        else .error ⟨.invalidUnicodeEscape, start⟩
      | none => .error ⟨.invalidUnicodeEscape, start⟩

/-- Reading hexadecimal digits up to a brace. -/
def bracedDigits (start : Nat) : Loop Cursor where
  State := Nat × Nat
  Result := Nat
  run _ s c := readBraced start s.1 s.2 c.rest c.offset
  round _ := bracedRound start
  run_succ := by
    intro _ s
    funext c
    refine Concludes.bind_eq ?_
    fun_cases bracedRound start s c <;> simp [readBraced, Concludes, *]
    rfl

theorem scans_bracedRound {start : Nat} (hstart : Fine start) (s : Nat × Nat) :
    Scans Fine c (TakesChar c fun _ => True) (bracedRound start s c) := by
  fun_cases bracedRound start s c
  case case3 hclose _ =>
    rw [Bool.and_eq_true, decide_eq_true_eq] at hclose
    obtain ⟨rfl, -⟩ := hclose
    exact ⟨Cursor.reaches_cons '\x7d' _ _, trivial⟩
  case case4 hdigit _ =>
    exact ⟨Cursor.reaches_of_utf8Size (utf8Size_of_hexValue? hdigit) _ _, by simp, trivial⟩
  all_goals exact ⟨by simp, hstart⟩

theorem scans_readBraced {start : Nat} (hc : c.IsFine Fine) (hstart : Fine start)
    (value digits : Nat) :
    Scans Fine c (fun _ _ => True) (readBraced start value digits c.rest c.offset) :=
  scans_run (bracedDigits start) (s := (value, digits))
    (fun _ s _ _ _ => scans_bracedRound hstart s) (Nat.lt_succ_self _) hc trivial

theorem scans_readEscape {text : List Char} {offset : Nat}
    (hc : Cursor.IsFine Fine ⟨'\\' :: text, offset⟩) :
    Scans Fine ⟨'\\' :: text, offset⟩ (fun _ rest => rest.rest.length < text.length + 1)
      (readEscape offset text) := by
  rw [readEscape.eq_def]
  split
  next => exact ⟨by simp, hc.offset⟩
  next text =>
    have hreach := Cursor.reaches_append ['\\', 'u', '\x7b'] text offset
    exact .takes hreach (by simp only [List.length_cons]; omega)
      (scans_readBraced (hc.of_reaches hreach) hc.offset 0 0)
  next c text _ =>
    have hreach : Cursor.Reaches ⟨'\\' :: c :: text, offset⟩ ⟨text, offset + 1 + c.utf8Size⟩ :=
      (Cursor.reaches_cons '\\' (c :: text) offset).trans (Cursor.reaches_cons c text _)
    have hvalue (code : Nat) : Scans Fine ⟨'\\' :: c :: text, offset⟩
        (fun _ rest => rest.rest.length < text.length + 2)
        (.ok (code, ⟨text, offset + 1 + c.utf8Size⟩)) :=
      ⟨hreach, by simp⟩
    have hhex (count : Nat) : Scans Fine ⟨'\\' :: c :: text, offset⟩
        (fun _ rest => rest.rest.length < text.length + 2)
        (readHex offset count 0 ⟨text, offset + 1 + c.utf8Size⟩) :=
      .takes hreach (by simp) (scans_readHex (hc.of_reaches hreach) hc.offset count 0)
    dsimp only
    split
    case h_8 => exact hhex 2
    case h_9 => exact hhex 4
    all_goals exact hvalue _

/-! ### Strings and sets -/

/-- A round of reading a string. -/
def stringRound (quote : Char) (start : Nat) :
    Cursor → Except SyntaxError (Round Unit (List Char) × Cursor)
  | ⟨[], _⟩ => .error ⟨.unterminatedString, start⟩
  | ⟨c :: text, offset⟩ =>
    if c = '\n' then .error ⟨.unterminatedString, start⟩
    else if c = quote then .ok (.leave [], ⟨text, offset + 1⟩)
    else if c = '\\' then do
      let (code, after) ← readEscape offset text
      if code.isValidChar then return (.again () (Char.ofNat code :: ·), after)
      else throw ⟨.invalidStringCharacter, start⟩
    else .ok (.again () (c :: ·), ⟨text, offset + c.utf8Size⟩)

/-- Reading a string. -/
def stringChars (quote : Char) (start : Nat) : Loop Cursor where
  State := Unit
  Result := List Char
  run fuel _ := readString quote start fuel
  round _ _ := stringRound quote start
  run_succ := by
    intro _ s
    funext c
    refine Concludes.bind_eq ?_
    fun_cases stringRound quote start c
    case case1 => rfl
    case case2 => simp [readString, Concludes]
    case case3 hline =>
      rw [readString, if_neg hline, if_pos rfl]
      rfl
    case case4 text offset hline hquote =>
      rw [readString, if_neg hline, if_neg hquote, if_pos rfl]
      rcases readEscape offset text with e | ⟨code, after⟩
      · rfl
      · change Concludes _ _ (if code.isValidChar then _ else _)
        split
        next hvalid => exact if_pos hvalid
        next hvalid => exact if_neg hvalid
    case case5 hline hquote hescape =>
      rw [readString, if_neg hline, if_neg hquote, if_neg hescape]
      rfl

theorem utf8Size_of_isQuote {c : Char} (h : isQuote c = true) : c.utf8Size = 1 := by
  rw [isQuote, Bool.or_eq_true, beq_iff_eq, beq_iff_eq] at h
  exact utf8Size_eq_one (by omega)

theorem scans_stringRound {quote : Char} (hquote : isQuote quote = true) {start : Nat}
    (hc : c.IsFine Fine) (hstart : Fine start) :
    Scans Fine c (TakesChar c fun _ => True) (stringRound quote start c) := by
  fun_cases stringRound quote start c
  case case1 => exact ⟨by simp, hstart⟩
  case case2 => exact ⟨by simp, hstart⟩
  case case3 =>
    exact ⟨Cursor.reaches_of_utf8Size (utf8Size_of_isQuote hquote) _ _, trivial⟩
  case case4 text offset _ _ =>
    refine Scans.bind (scans_readEscape hc) fun code after _ hafter => ?_
    dsimp only
    split
    next => exact ⟨.refl _, hafter, trivial⟩
    next => exact ⟨by simp, hstart⟩
  case case5 => exact ⟨Cursor.reaches_cons _ _ _, by simp, trivial⟩

theorem scans_readString {quote : Char} (hquote : isQuote quote = true) {start fuel : Nat}
    (hc : c.IsFine Fine) (hstart : Fine start) (hfuel : c.rest.length < fuel) :
    Scans Fine c (fun _ _ => True) (readString quote start fuel c) :=
  scans_run (stringChars quote start) (s := ())
    (fun _ _ _ hc _ => scans_stringRound hquote hc hstart) hfuel hc trivial

theorem scans_readSetChar {start : Nat} (hc : c.IsFine Fine) (hstart : Fine start) :
    Scans Fine c (fun _ rest => rest.rest.length < c.rest.length) (readSetChar start c) := by
  rcases c with ⟨_ | ⟨c, text⟩, offset⟩
  · exact ⟨by simp, hstart⟩
  · rw [readSetChar]
    split
    next hescape =>
      subst hescape
      exact scans_readEscape hc
    next => exact ⟨Cursor.reaches_cons _ _ _, Nat.lt_succ_self _⟩

theorem scans_readRangeEnd {start : Nat} (hc : c.IsFine Fine) (hstart : Fine start) (low : Nat) :
    Scans Fine c (fun _ _ => True) (readRangeEnd start low c) := by
  rw [readRangeEnd.eq_def]
  split
  next => exact ⟨.refl _, trivial⟩
  next text offset _ =>
    have hdash := Cursor.reaches_cons '-' text offset
    refine Scans.of_reaches hdash (Scans.bind (scans_readSetChar (hc.of_reaches hdash) hstart)
      fun high after _ _ => ?_)
    dsimp only
    split
    next => exact ⟨by simp, hstart⟩
    next => exact ⟨.refl _, trivial⟩
  next => exact ⟨.refl _, trivial⟩

/-- A round of reading a set. -/
def setRound (start : Nat) : Cursor → Except SyntaxError (Round Unit (List CodeRange) × Cursor)
  | ⟨']' :: text, offset⟩ => .ok (.leave [], ⟨text, offset + 1⟩)
  | c => do
    let (low, after) ← readSetChar start c
    let (range, after) ← readRangeEnd start low after
    return (.again () (range :: ·), after)

/-- Reading the ranges of a set. -/
def setRanges (start : Nat) : Loop Cursor where
  State := Unit
  Result := List CodeRange
  run fuel _ := readSet start fuel
  round _ _ := setRound start
  run_succ := by
    intro _ s
    funext c
    refine Concludes.bind_eq ?_
    fun_cases setRound start c
    case case1 => rfl
    case case2 c hclose =>
      rw [readSet.eq_3 start c _ hclose]
      rcases readSetChar start c with e | ⟨low, after⟩
      · rfl
      · change Concludes (fun x rest => (readRangeEnd start low after >>= _) = _)
          (fun e => (readRangeEnd start low after >>= _) = _) (readRangeEnd start low after >>= _)
        rcases readRangeEnd start low after with e | ⟨range, after⟩ <;> rfl

theorem scans_setRound {start : Nat} (hc : c.IsFine Fine) (hstart : Fine start) :
    Scans Fine c (TakesChar c fun _ => True) (setRound start c) := by
  fun_cases setRound start c
  case case1 => exact ⟨Cursor.reaches_cons ']' _ _, trivial⟩
  case case2 =>
    refine Scans.bind (scans_readSetChar hc hstart) fun low after hreach hafter =>
      Scans.bind (scans_readRangeEnd (hc.of_reaches hreach) hstart low) fun range rest hrest _ => ?_
    exact ⟨.refl _, hrest.length_le.trans_lt hafter, trivial⟩

theorem scans_readSet {start fuel : Nat} (hc : c.IsFine Fine) (hstart : Fine start)
    (hfuel : c.rest.length < fuel) : Scans Fine c (fun _ _ => True) (readSet start fuel c) :=
  scans_run (setRanges start) (s := ()) (fun _ _ _ hc _ => scans_setRound hc hstart) hfuel hc
    trivial

/-! ### Names, and all loops -/

/-- A round of reading a name. -/
def nameRound : Cursor → Except SyntaxError (Round Unit String × Cursor)
  | ⟨[], offset⟩ => .ok (.leave "", ⟨[], offset⟩)
  | ⟨c :: text, offset⟩ =>
    if isNameChar c then
      .ok (.again () fun name => String.ofList (c :: name.toList), ⟨text, offset + c.utf8Size⟩)
    else .ok (.leave "", ⟨c :: text, offset⟩)

/-- Reading a name. -/
def nameChars : Loop Cursor where
  State := Unit
  Result := String
  run _ _ c := .ok (readName c)
  round _ _ := nameRound
  run_succ := by
    intro _ s
    funext c
    refine Concludes.bind_eq ?_
    fun_cases nameRound c
    case case1 => rfl
    case case2 c text offset hname =>
      change Except.ok _ = Except.ok _
      simp only [readName, List.takeWhile_cons_of_pos hname, List.dropWhile_cons_of_pos hname,
        byteSize, String.toList_ofList, Nat.add_assoc]
    case case3 c text offset hname =>
      change Except.ok _ = Except.ok _
      simp only [readName, List.takeWhile_cons_of_neg hname, List.dropWhile_cons_of_neg hname]
      rfl

theorem scans_nameRound :
    Scans Fine c (TakesChar c fun _ => True) (nameRound c) := by
  fun_cases nameRound c
  case case1 => exact ⟨.refl _, trivial⟩
  case case2 => exact ⟨Cursor.reaches_cons _ _ _, by simp, trivial⟩
  case case3 => exact ⟨.refl _, trivial⟩

theorem reaches_readName (c : Cursor) : c.Reaches (readName c).2 :=
  ⟨c.rest.takeWhile isNameChar, List.takeWhile_append_dropWhile.symm, rfl⟩

/-- The loops of the lexer. -/
def loops (quote : Char) (start : Nat) : List (Loop Cursor) :=
  [blanks, hexDigits start, bracedDigits start, stringChars quote start, setRanges start, nameChars]

/-- Every round in a loop of the lexer takes a character or leaves the loop. -/
theorem progresses_of_mem_loops {quote : Char} (hquote : isQuote quote = true) (start : Nat)
    {l : Loop Cursor} (h : l ∈ loops quote start) : l.Progresses fun c => c.rest.length := by
  have hfine (c : Cursor) : c.IsFine fun _ => True := fun _ _ => trivial
  simp only [loops, List.mem_cons, List.not_mem_nil, or_false] at h
  obtain rfl | rfl | rfl | rfl | rfl | rfl := h
  · exact progresses_of_scans blanks fun _ _ c => scans_blankRound (hfine c) fun _ _ => trivial
  · exact progresses_of_scans (hexDigits start) fun _ s _ => scans_hexRound trivial s
  · exact progresses_of_scans (bracedDigits start) fun _ s _ => scans_bracedRound trivial s
  · exact progresses_of_scans (stringChars quote start) fun _ _ c =>
      scans_stringRound hquote (hfine c) trivial
  · exact progresses_of_scans (setRanges start) fun _ _ c => scans_setRound (hfine c) trivial
  · exact progresses_of_scans nameChars fun _ _ _ => scans_nameRound

/-- No loop of the lexer gives up because its fuel has run out. -/
theorem settles_of_mem_loops {quote : Char} (hquote : isQuote quote = true) (start : Nat)
    {l : Loop Cursor} (h : l ∈ loops quote start) : l.Settles fun c => c.rest.length := by
  refine (progresses_of_mem_loops hquote start h).settles ?_
  simp only [loops, List.mem_cons, List.not_mem_nil, or_false] at h
  rcases h with rfl | rfl | rfl | rfl | rfl | rfl <;> exact fun _ => rfl

/-! ## §4 Tokens -/

theorem utf8Size_of_mem_punctuation {c : Char} (h : c ∈ punctuation) : c.utf8Size = 1 := by
  have hall : ∀ c ∈ punctuation, c.toNat ≤ 127 := by simp [punctuation]
  exact utf8Size_eq_one (hall c h)

theorem scans_readToken (hc : c.IsFine Fine) :
    Scans Fine c (fun token rest => token.isSome → rest.rest.length < c.rest.length)
      (readToken c) := by
  rcases c with ⟨_ | ⟨c, text⟩, offset⟩
  · exact ⟨.refl _, by simp⟩
  have hname := reaches_readName ⟨text, offset + c.utf8Size⟩
  rw [readToken]
  split
  next hat =>
    subst hat
    split
    next => exact ⟨by simp, hc.offset⟩
    next rest _ hread =>
      rw [show offset + 1 = offset + '@'.utf8Size from rfl] at hread
      rw [hread] at hname
      exact ⟨(Cursor.reaches_cons '@' text offset).trans hname,
        fun _ => Nat.lt_succ_of_le hname.length_le⟩
  split
  next hset =>
    rw [Bool.and_eq_true, Bool.or_eq_true, decide_eq_true_eq, decide_eq_true_eq,
      decide_eq_true_eq] at hset
    obtain ⟨text, rfl⟩ := List.head?_eq_some_iff.mp hset.2
    have hone : c.utf8Size = 1 := by
      rcases hset.1 with rfl | rfl <;> rfl
    have hreach := (Cursor.reaches_of_utf8Size hone ('[' :: text) offset).trans
      (Cursor.reaches_cons '[' text (offset + 1))
    refine Scans.bind (.takes hreach (by simp) (scans_readSet (hc.of_reaches hreach)
      hc.offset (by simp))) fun ranges rest _ hrest => ⟨.refl _, fun _ => hrest⟩
  split
  next hquote =>
    have hreach := Cursor.reaches_of_utf8Size (utf8Size_of_isQuote hquote) text offset
    exact Scans.bind (.takes hreach (by simp) (scans_readString hquote (hc.of_reaches hreach)
      hc.offset (Nat.lt_succ_self _))) fun value rest _ hrest => ⟨.refl _, fun _ => hrest⟩
  split
  next hnamed =>
    have hlength : ((c :: text).dropWhile isNameChar).length < (c :: text).length := by
      rw [List.dropWhile_cons_of_pos hnamed]
      exact Nat.lt_succ_of_le (List.length_dropWhile_le _ _)
    exact ⟨reaches_readName ⟨c :: text, offset⟩, fun _ => hlength⟩
  split
  next hpunct =>
    have hone := utf8Size_of_mem_punctuation (List.contains_iff_mem.mp hpunct)
    exact ⟨Cursor.reaches_of_utf8Size hone text offset, fun _ => Nat.lt_succ_self _⟩
  next => exact ⟨by simp, hc.offset⟩

theorem isFine_of_reaches {text : String} {c : Cursor} {lo : Nat}
    (h : Cursor.Reaches ⟨text.toList, 0⟩ c) (hlo : lo ≤ c.offset) :
    c.IsFine ((Plan.ofText text).Holds lo) := by
  intro c' hreach
  obtain ⟨before, htext, hoffset⟩ := h.trans hreach
  rw [Nat.zero_add] at hoffset
  refine ⟨hlo.trans hreach.offset_le, ?_, isBoundary_iff.mpr ⟨before, _, htext, hoffset.symm⟩⟩
  rw [hoffset, ← byteSize_toList, show text.toList = before ++ c'.rest from htext, byteSize_append]
  exact Nat.le_add_right _ _

/-- The tokens from a cursor on are placed in the text, each behind the one before. -/
theorem arePlaced_tokensFrom {text : String} {fuel : Nat} {c : Cursor} {lo : Nat}
    (hc : Cursor.Reaches ⟨text.toList, 0⟩ c) (hlo : lo ≤ c.offset) (hfuel : c.rest.length < fuel) :
    (tokensFrom fuel c).ArePlaced (.ofText text) lo := by
  -- By induction on the fuel. What is left of the text is shorter behind every token.
  induction fuel generalizing c lo with
  | zero => exact absurd hfuel (Nat.not_lt_zero _)
  | succ fuel ih =>
    have hskip := scans_skipBlank (isFine_of_reaches hc hlo)
    rw [tokensFrom]
    cases hstart : skipBlank .space c.rest c.offset with
    | error e =>
      rw [hstart] at hskip
      exact ⟨hskip.2, fun h => absurd h hskip.1⟩
    | ok start =>
      rw [hstart] at hskip
      have hreach := hc.trans hskip.1
      have hfine := isFine_of_reaches hreach (hlo.trans hskip.1.offset_le)
      have hread := scans_readToken hfine
      dsimp only
      rcases htoken : readToken start with e | ⟨_ | token, rest⟩ <;> rw [htoken] at hread
      · exact ⟨hread.2, fun h => absurd h hread.1⟩
      · exact hfine.offset
      · have hlength := hskip.1.length_le
        have hrest := hread.2 rfl
        exact ⟨hfine.offset, ih (hreach.trans hread.1) hread.1.offset_le (by omega)⟩

theorem arePlaced_tokens (text : String) : (tokens text).ArePlaced (.ofText text) 0 :=
  arePlaced_tokensFrom (.refl _) (Nat.zero_le _) (by rw [String.length_toList]; omega)

end Lexer

end GrammarCompiler
