/-
GrammarCompiler.Proofs.Ranking — the order of tokens that win over others.

Relations put tokens before others. A token is placed once all tokens that come before
it are, and there is one entry for each token, so the order holds every token once and
behind those that come before it. Relations stem from the lists that a grammar declares,
and from soft overlaps between tokens of these lists.

  §1 Relations    — what is added to relations.
  §2 Order        — tokens that are placed one by one.
  §3 Declarations — the relations that are declared.
  §4 Numbers      — the order by the numbers of the tokens.
-/
import GrammarCompiler.Proofs.Enabling

namespace GrammarCompiler

/-! ## §1 Relations -/

namespace Overlap

/-- The token that is the longer match of a soft overlap. -/
def longer (o : Overlap) : Term :=
  if o.soft < 0 then o.second else o.first

/-- The token that is the shorter match of a soft overlap. -/
def shorter (o : Overlap) : Term :=
  if o.soft < 0 then o.first else o.second

end Overlap

namespace TokenRank

variable {ranks : List TokenRank} {term before t u : Term} {after : List Term}

theorem any_term_iff : (ranks.any fun r => r.term == t) = true ↔ t ∈ ranks.map TokenRank.term := by
  simp [List.any_eq_true]

theorem precedes_iff :
    precedes ranks before t = true ↔ ∃ r ∈ ranks, r.term = t ∧ before ∈ r.after := by
  simp [precedes, List.any_eq_true]

theorem mem_addAfter {r : TokenRank} : u ∈ (r.addAfter after).after ↔ u ∈ r.after ∨ u ∈ after :=
  Term.mem_foldl_addNew

/-- There is one entry for each token. -/
theorem terms_add : (add ranks term after).map TokenRank.term =
    Term.addNew (ranks.map TokenRank.term) term := by
  have hany : (ranks.any fun r => r.term == term) =
      (ranks.map TokenRank.term).contains term := by
    rw [Bool.eq_iff_iff, any_term_iff, List.contains_iff_mem]
  rw [add, Term.addNew, hany]
  split
  · rw [List.map_map]
    refine List.map_congr_left fun r _ => ?_
    rw [Function.comp_apply]
    split <;> rfl
  · rw [List.map_append, List.map_singleton]

theorem precedes_add : precedes (add ranks term after) u t = true ↔
    precedes ranks u t = true ∨ t = term ∧ u ∈ after := by
  rw [add]
  split
  next hany =>
    obtain ⟨known, hknown, hterm⟩ := List.mem_map.mp (any_term_iff.mp hany)
    simp only [precedes_iff, List.mem_map]
    constructor
    · rintro ⟨_, ⟨r, hr, rfl⟩, hrest⟩
      split at hrest
      next heq =>
        obtain ⟨rfl, hu⟩ := hrest
        exact (mem_addAfter.mp hu).imp (fun hu => ⟨r, hr, rfl, hu⟩) fun hu => ⟨beq_iff_eq.mp heq, hu⟩
      next => exact .inl ⟨r, hr, hrest⟩
    · rintro (⟨r, hr, rfl, hu⟩ | ⟨rfl, hu⟩)
      · refine ⟨_, ⟨r, hr, rfl⟩, ?_⟩
        split
        · exact ⟨rfl, mem_addAfter.mpr (.inl hu)⟩
        · exact ⟨rfl, hu⟩
      · refine ⟨_, ⟨known, hknown, rfl⟩, ?_⟩
        rw [if_pos (beq_iff_eq.mpr hterm)]
        exact ⟨hterm, mem_addAfter.mpr (.inr hu)⟩
  next =>
    simp only [precedes_iff, List.mem_append, List.mem_singleton, or_and_right, exists_or,
      exists_eq_left, eq_comm (a := term)]

/-- An overlap puts one token before another, if there are relations for both. -/
theorem terms_addOverlap (o : Overlap) :
    (addOverlap ranks o).map TokenRank.term = ranks.map TokenRank.term := by
  rw [addOverlap]
  split
  next hboth =>
    obtain ⟨hfirst, hsecond⟩ := (Bool.and_eq_true _ _).mp hboth
    rw [any_term_iff] at hfirst hsecond
    dsimp only
    split <;> simp [terms_add, Term.addNew, hfirst, hsecond]
  next => rfl

theorem precedes_addOverlap {o : Overlap} : precedes (addOverlap ranks o) u t = true ↔
    precedes ranks u t = true ∨ (o.first ∈ ranks.map TokenRank.term ∧
      o.second ∈ ranks.map TokenRank.term) ∧ u = o.longer ∧ t = o.shorter := by
  rw [addOverlap, Overlap.longer, Overlap.shorter]
  split
  next hboth =>
    obtain ⟨hfirst, hsecond⟩ := (Bool.and_eq_true _ _).mp hboth
    rw [any_term_iff] at hfirst hsecond
    dsimp only
    split <;> simp [precedes_add, hfirst, hsecond, and_comm]
  next hboth =>
    rw [← any_term_iff, ← any_term_iff, ← Bool.and_eq_true]
    simp [hboth]

theorem terms_foldl_addOverlap (soft : List Overlap) :
    (soft.foldl addOverlap ranks).map TokenRank.term = ranks.map TokenRank.term := by
  induction soft generalizing ranks with
  | nil => rfl
  | cons o soft ih => rw [List.foldl_cons, ih, terms_addOverlap]

theorem precedes_foldl_addOverlap {soft : List Overlap} :
    precedes (soft.foldl addOverlap ranks) u t = true ↔
      precedes ranks u t = true ∨ ∃ o ∈ soft, (o.first ∈ ranks.map TokenRank.term ∧
        o.second ∈ ranks.map TokenRank.term) ∧ u = o.longer ∧ t = o.shorter := by
  induction soft generalizing ranks with
  | nil => simp
  | cons o soft ih =>
    rw [List.foldl_cons, ih, precedes_addOverlap, terms_addOverlap, List.exists_mem_cons_iff,
      or_assoc]

/-! ## §2 Order -/

/-- The last entry takes the place of the one that is taken out. -/
theorem perm_takeOut {i : Nat} {r : TokenRank} (hi : ranks[i]? = some r) :
    ranks.Perm (r :: takeOut ranks i) := by
  obtain ⟨hlt, rfl⟩ := List.getElem?_eq_some_iff.mp hi
  rw [takeOut]
  split
  next hnone =>
    rw [List.getLast?_eq_none_iff] at hnone
    simp [hnone] at hlt
  next last hlast =>
    obtain ⟨init, rfl⟩ := List.getLast?_eq_some_iff.mp hlast
    rcases Nat.lt_or_eq_of_le (Nat.le_of_lt_succ (by simpa using hlt)) with hend | rfl
    · have hinit : init.Perm (init[i] :: init.eraseIdx i) :=
        (List.getElem_cons_eraseIdx_perm hend).symm
      have hset : (last :: init.eraseIdx i).Perm (init.set i last) :=
        (List.set_perm_cons_eraseIdx hend last).symm
      rw [List.set_append_left _ _ hend, List.dropLast_concat, List.getElem_append_left hend]
      calc (init ++ [last]).Perm (last :: init) := List.perm_append_singleton _ _
        List.Perm _ (last :: init[i] :: init.eraseIdx i) := hinit.cons _
        List.Perm _ (init[i] :: last :: init.eraseIdx i) := .swap _ _ _
        List.Perm _ (init[i] :: init.set i last) := hset.cons _
    · simp

/-- Each token is placed once, behind those that are placed already and those that come before
it. -/
theorem perm_of_place {names : Term → String} {count : Nat} {placed order : List Term}
    (hcount : ranks.length = count) (hnodup : (ranks.map TokenRank.term).Nodup)
    (happart : ∀ r ∈ ranks, r.term ∉ placed) (h : place names count ranks placed = .ok order) :
    ∃ later, order = placed ++ later ∧ later.Perm (ranks.map TokenRank.term) ∧
      ∀ r ∈ ranks, ∀ u ∈ r.after, [u, r.term].Sublist order := by
  induction count generalizing ranks placed with
  | zero =>
    obtain rfl := List.eq_nil_of_length_eq_zero hcount
    cases h
    exact ⟨[], by simp, .refl _, nofun⟩
  | succ count ih =>
    rw [place] at h
    split at h
    next i hi =>
      obtain ⟨hlt, hready, -⟩ := List.findIdx?_eq_some_iff_getElem.mp hi
      have hget : ranks[i]? = some ranks[i] := List.getElem?_eq_getElem hlt
      generalize ranks[i] = r at hready hget
      simp only [hget, Option.map_some, Option.getD_some] at h
      have hperm := perm_takeOut hget
      have hterms : (ranks.map TokenRank.term).Perm
          (r.term :: (takeOut ranks i).map TokenRank.term) := hperm.map _
      obtain ⟨hnew, hrest⟩ := List.nodup_cons.mp (hterms.nodup_iff.mp hnodup)
      have hr := happart r (hperm.mem_iff.mpr List.mem_cons_self)
      have hadd : Term.addNew placed r.term = placed ++ [r.term] := by
        rw [Term.addNew, if_neg (by simpa using hr)]
      rw [hadd] at h
      have hlength : (takeOut ranks i).length = count := by
        have := hperm.length_eq
        rw [List.length_cons] at this
        omega
      obtain ⟨later, rfl, hlater, hbehind⟩ := ih hlength hrest (fun r' hr' hmem => by
        rcases List.mem_append.mp hmem with hmem | hmem
        · exact happart r' (hperm.mem_iff.mpr (List.mem_cons_of_mem _ hr')) hmem
        · exact hnew (List.mem_singleton.mp hmem ▸ List.mem_map_of_mem hr')) h
      refine ⟨r.term :: later, by simp, (hlater.cons _).trans hterms.symm, fun r' hr' u hu => ?_⟩
      rcases List.mem_cons.mp (hperm.mem_iff.mp hr') with rfl | hr'
      · have hplaced : u ∈ placed := by simpa using List.all_eq_true.mp hready u hu
        have hfirst : [u, r'.term].Sublist (placed ++ [r'.term]) :=
          (List.singleton_sublist.mpr hplaced).append (.refl [r'.term])
        exact hfirst.trans (List.sublist_append_left _ _)
      · exact hbehind r' hr' u hu
    next => cases h

/-- The order holds each token once, behind those that come before it. -/
theorem order_sublist {names : Term → String} {soft : List Overlap} {order : List Term}
    (hnodup : (ranks.map TokenRank.term).Nodup) (h : TokenRank.order names ranks soft = .ok order) :
    order.Perm (ranks.map TokenRank.term) ∧
      ∀ u t, precedes (soft.foldl addOverlap ranks) u t = true → [u, t].Sublist order := by
  have hterms : (soft.foldl addOverlap ranks).map TokenRank.term = ranks.map TokenRank.term :=
    terms_foldl_addOverlap soft
  obtain ⟨later, horder, hperm, hbehind⟩ :=
    perm_of_place rfl (hterms ▸ hnodup) (fun _ _ => List.not_mem_nil) h
  rw [List.nil_append] at horder
  subst horder
  refine ⟨hterms ▸ hperm, fun u t hbefore => ?_⟩
  obtain ⟨r, hr, rfl, hu⟩ := precedes_iff.mp hbefore
  exact hbehind r hr u hu

/-- These are the tokens that were put before it, and the longer matches that it overlaps with
softly. -/
theorem order_spec {names : Term → String} {soft : List Overlap} {order : List Term}
    (hnodup : (ranks.map TokenRank.term).Nodup) (h : TokenRank.order names ranks soft = .ok order) :
    order.Perm (ranks.map TokenRank.term) ∧
      (∀ u t, precedes ranks u t = true → [u, t].Sublist order) ∧
      ∀ o ∈ soft, o.first ∈ order → o.second ∈ order → [o.longer, o.shorter].Sublist order := by
  obtain ⟨hperm, hsublist⟩ := order_sublist hnodup h
  refine ⟨hperm, fun u t hbefore => hsublist u t (precedes_foldl_addOverlap.mpr (.inl hbefore)),
    fun o ho hfirst hsecond => hsublist _ _ (precedes_foldl_addOverlap.mpr (.inr ?_))⟩
  exact ⟨o, ho, ⟨hperm.mem_iff.mp hfirst, hperm.mem_iff.mp hsecond⟩, rfl, rfl⟩

end TokenRank

/-! ## §3 Declarations -/

/-- The lists of tokens that are declared, those that win first. -/
def GrammarDecl.tokenPrecedences (decl : GrammarDecl) : List TokenPrecedence :=
  (decl.tokens.map TokensDecl.precedences).getD []

namespace Draft

/-- Takes in an item of a list: its tokens come after those of all items before it. -/
def rankItem (d : Draft) (state : List TokenRank × List Term) (item : Expr) :
    List TokenRank × List Term :=
  ((Build.rankedTokens d item).foldl (fun ranks t => TokenRank.add ranks t state.2) state.1,
    state.2 ++ Build.rankedTokens d item)

/-- Takes in a list. -/
def rankList (d : Draft) (ranks : List TokenRank) (decl : TokenPrecedence) : List TokenRank :=
  (decl.items.foldl d.rankItem (ranks, [])).1

variable {d d' : Draft} {ranks : List TokenRank} {t u : Term}

theorem rankedTokens_eq (h : d'.tokenInstances = d.tokenInstances) :
    Build.rankedTokens d' = Build.rankedTokens d := by
  funext item
  have hfor : d'.tokenFor? = d.tokenFor? := by
    funext key
    simp only [tokenFor?, h]
  simp only [Build.rankedTokens, hfor, h]

theorem rankList_eq (h : d'.tokenInstances = d.tokenInstances) : d'.rankList = d.rankList := by
  have hitem : d'.rankItem = d.rankItem := by
    funext state item
    rw [rankItem, rankItem, rankedTokens_eq h]
  funext ranks decl
  rw [rankList, rankList, hitem]

/-- The tokens of an item are tokens that the main tokenizer reads. -/
theorem exists_of_mem_rankedTokens {item : Expr} (h : t ∈ Build.rankedTokens d item) :
    ∃ i ∈ d.tokenInstances, i.term = t := by
  have hlookup (h : t ∈ ((TokenKey.ofExpr? item).bind d.tokenFor?).toList) :
      ∃ i ∈ d.tokenInstances, i.term = t := by
    obtain ⟨key, -, hkey⟩ := Option.bind_eq_some_iff.mp (Option.mem_toList.mp h)
    obtain ⟨i, hi, rfl⟩ := Option.map_eq_some_iff.mp hkey
    exact ⟨i, List.mem_of_find?_eq_some hi, rfl⟩
  rw [Build.rankedTokens.eq_def] at h
  split at h
  next =>
    obtain ⟨i, hi, rfl⟩ := List.mem_map.mp h
    exact ⟨i, List.mem_of_mem_filter hi, rfl⟩
  next => exact hlookup h

section

variable {before level : List Term}

/-- Adding the tokens of an item, all of them behind those before it. -/
theorem terms_foldl_add : (level.foldl (fun ranks t => TokenRank.add ranks t before) ranks).map
    TokenRank.term = level.foldl Term.addNew (ranks.map TokenRank.term) := by
  induction level generalizing ranks with
  | nil => rfl
  | cons t level ih => rw [List.foldl_cons, List.foldl_cons, ih, TokenRank.terms_add]

theorem precedes_foldl_add :
    TokenRank.precedes (level.foldl (fun ranks t => TokenRank.add ranks t before) ranks) u t = true ↔
      TokenRank.precedes ranks u t = true ∨ t ∈ level ∧ u ∈ before := by
  induction level generalizing ranks with
  | nil => simp
  | cons t' level ih =>
    rw [List.foldl_cons, ih, TokenRank.precedes_add, List.mem_cons, or_and_right, or_assoc]

end

theorem terms_foldl_rankItem {items : List Expr} {before : List Term} :
    (items.foldl d.rankItem (ranks, before)).1.map TokenRank.term =
      (items.flatMap (Build.rankedTokens d)).foldl Term.addNew (ranks.map TokenRank.term) := by
  induction items generalizing ranks before with
  | nil => rfl
  | cons item items ih =>
    rw [List.foldl_cons, rankItem, ih, terms_foldl_add, List.flatMap_cons, List.foldl_append]

/-- A token comes after those before the list, and after those of items before its own. -/
theorem precedes_foldl_rankItem {items : List Expr} {before : List Term} :
    TokenRank.precedes (items.foldl d.rankItem (ranks, before)).1 u t = true ↔
      TokenRank.precedes ranks u t = true ∨
        (∃ y ∈ items, t ∈ Build.rankedTokens d y ∧ u ∈ before) ∨
        ∃ x y, [x, y].Sublist items ∧ u ∈ Build.rankedTokens d x ∧ t ∈ Build.rankedTokens d y := by
  induction items generalizing ranks before with
  | nil => simp
  | cons item items ih =>
    rw [List.foldl_cons, rankItem, ih, precedes_foldl_add]
    simp only [List.sublist_cons_iff, List.cons.injEq, List.exists_mem_cons_iff, List.mem_append]
    constructor
    · rintro ((hranks | ⟨ht, hu⟩) | ⟨y, hy, ht, hu | hu⟩ | ⟨x, y, hxy, hu, ht⟩)
      · exact .inl hranks
      · exact .inr (.inl (.inl ⟨ht, hu⟩))
      · exact .inr (.inl (.inr ⟨y, hy, ht, hu⟩))
      · exact .inr (.inr ⟨item, y, .inr ⟨[y], ⟨rfl, rfl⟩, List.singleton_sublist.mpr hy⟩, hu, ht⟩)
      · exact .inr (.inr ⟨x, y, .inl hxy, hu, ht⟩)
    · rintro (hranks | (⟨ht, hu⟩ | ⟨y, hy, ht, hu⟩) | ⟨x, y, hxy | ⟨_, ⟨rfl, rfl⟩, hy⟩, hu, ht⟩)
      · exact .inl (.inl hranks)
      · exact .inl (.inr ⟨ht, hu⟩)
      · exact .inr (.inl ⟨y, hy, ht, .inl hu⟩)
      · exact .inr (.inr ⟨x, y, hxy, hu, ht⟩)
      · exact .inr (.inl ⟨y, List.singleton_sublist.mp hy, ht, .inr hu⟩)

theorem terms_foldl_rankList {decls : List TokenPrecedence} :
    (decls.foldl d.rankList ranks).map TokenRank.term =
      (decls.flatMap fun decl => decl.items.flatMap (Build.rankedTokens d)).foldl Term.addNew
        (ranks.map TokenRank.term) := by
  induction decls generalizing ranks with
  | nil => rfl
  | cons decl decls ih =>
    rw [List.foldl_cons, ih, rankList, terms_foldl_rankItem, List.flatMap_cons, List.foldl_append]

/-- One token is put before another exactly if one of the lists says so. -/
theorem precedes_foldl_rankList {decls : List TokenPrecedence} :
    TokenRank.precedes (decls.foldl d.rankList ranks) u t = true ↔
      TokenRank.precedes ranks u t = true ∨ ∃ decl ∈ decls, ∃ x y, [x, y].Sublist decl.items ∧
        u ∈ Build.rankedTokens d x ∧ t ∈ Build.rankedTokens d y := by
  induction decls generalizing ranks with
  | nil => simp
  | cons decl decls ih =>
    rw [List.foldl_cons, ih, rankList, precedes_foldl_rankItem, List.exists_mem_cons_iff]
    simp [or_assoc]

end Draft

namespace Build

open Draft (Silently)

variable {ctx : Declared} {d : Draft}

theorem yields_readPrecedence (ranks : List TokenRank) (decl : TokenPrecedence) :
    Yields ctx d (readPrecedence ranks decl) fun ranks' d' =>
      Silently ctx.decl d d' ∧ ranks' = d.rankList ranks decl := by
  -- The draft that tokens are looked up in is the one from before the warnings.
  suffices hitems : ∀ (items : List Expr) (state : List TokenRank × List Term) (d₁ : Draft),
      Silently ctx.decl d d₁ → Yields ctx d₁ (items.foldlM (fun (state : List TokenRank × List Term)
        item => do
          let level := rankedTokens d item
          if level.isEmpty then warn (.precedenceOfUnknown item.shown) (some item.start)
          return (level.foldl (fun ranks t => TokenRank.add ranks t state.2) state.1,
            state.2 ++ level)) state) fun state' d' =>
              Silently ctx.decl d d' ∧ state' = items.foldl d.rankItem state by
    refine yields_get_bind ((hitems decl.items (ranks, []) d (refl_of _ d)).bind ?_)
    rintro _ d' ⟨hd', rfl⟩
    exact yields_pure ⟨hd', rfl⟩
  intro items
  induction items with
  | nil => exact fun state d₁ hd₁ => yields_pure ⟨hd₁, rfl⟩
  | cons item items ih =>
    intro state d₁ hd₁
    rw [List.foldlM_cons]
    refine Yields.bind (Q := fun state' d₂ => Silently ctx.decl d d₂ ∧
      state' = d.rankItem state item) ?_ ?_
    · exact Yields.when (silently_warn _ _) fun d₂ hd₂ =>
        yields_pure ⟨trans_of (Silently ctx.decl) hd₁ hd₂, rfl⟩
    · rintro _ d₂ ⟨hd₂, rfl⟩
      exact ih _ d₂ hd₂

theorem yields_readPrecedences (ranks : List TokenRank) (decls : List TokenPrecedence) :
    Yields ctx d (decls.foldlM readPrecedence ranks) fun ranks' d' =>
      Silently ctx.decl d d' ∧ ranks' = decls.foldl d.rankList ranks := by
  induction decls generalizing d ranks with
  | nil => exact yields_pure ⟨refl_of (Silently ctx.decl) d, rfl⟩
  | cons decl decls ih =>
    rw [List.foldlM_cons]
    refine (yields_readPrecedence ranks decl).bind ?_
    rintro _ d₁ ⟨hd₁, rfl⟩
    intro ranks' d' hrun
    obtain ⟨hd', rfl⟩ := ih _ ranks' d' hrun
    refine ⟨trans_of (Silently ctx.decl) hd₁ hd', ?_⟩
    rw [Draft.rankList_eq hd₁.sparesTokens.tokenInstances_eq, List.foldl_cons]

theorem yields_blueprint_ranks (d : Draft) : Yields ctx d blueprint fun b _ =>
    b.ranks = b.decl.tokenPrecedences.foldl b.draft.rankList [] := by
  have hany {α : Type} (m : Build α) (d : Draft) : Yields ctx d m fun _ _ => True :=
    fun _ _ _ => trivial
  refine yields_read_bind ((hany _ _).bind fun _ _ _ => (hany _ _).bind fun _ _ _ => ?_)
  refine (hany _ _).bind fun _ _ _ => (hany _ _).bind fun _ _ _ => ?_
  refine (yields_readPrecedences _ _).bind fun ranks d₁ ⟨hd₁, hranks⟩ => ?_
  refine (Along.mapM fun entry _ => silently_readConflict entry).yields.bind fun _ d₂ hd₂ => ?_
  refine silently_defineGroups.yields.bind fun _ d₃ hd₃ => ?_
  refine yields_modify_bind (yields_get_bind (yields_pure ?_))
  have hsame := trans_of (Silently ctx.decl) hd₁ (trans_of (Silently ctx.decl) hd₂ hd₃)
  have hrank : Draft.rankList _ = Draft.rankList _ :=
    Draft.rankList_eq hsame.sparesTokens.tokenInstances_eq
  exact hranks.trans (congrArg (fun rank => List.foldl rank [] _) hrank.symm)

end Build

/-! ## §4 Numbers -/

namespace Blueprint

variable {source : Text.Source} {b : Blueprint} {journal : Journal} {t : Term}

/-- A token of an item of one of the lists that are declared. -/
def IsRanked (b : Blueprint) (t : Term) : Prop :=
  ∃ decl ∈ b.decl.tokenPrecedences, ∃ item ∈ decl.items, t ∈ Build.rankedTokens b.draft item

theorem ranks_eq (h : ofSource source = (.ok b, journal)) :
    b.ranks = b.decl.tokenPrecedences.foldl b.draft.rankList [] := by
  rw [ofSource] at h
  split at h
  next => cases h
  next decl hparse =>
    split at h
    next hrun =>
      cases h
      exact Build.yields_blueprint_ranks {} b _ hrun
    next => cases h

section

variable (h : ofSource source = (.ok b, journal))
include h

theorem nodup_ranks : (b.ranks.map TokenRank.term).Nodup := by
  rw [ranks_eq h, Draft.terms_foldl_rankList]
  exact Term.nodup_foldl_addNew List.nodup_nil

/-- There are relations for the tokens of the lists. -/
theorem mem_ranks : t ∈ b.ranks.map TokenRank.term ↔ b.IsRanked t := by
  rw [ranks_eq h, Draft.terms_foldl_rankList, Term.mem_foldl_addNew]
  simp [IsRanked, List.mem_flatMap]

theorem IsRanked.isToken (ht : b.IsRanked t) : b.draft.terms.IsToken t := by
  obtain ⟨decl, _, item, _, ht⟩ := ht
  obtain ⟨i, hi, rfl⟩ := Draft.exists_of_mem_rankedTokens ht
  exact Compiles.isToken h ⟨i, hi, rfl⟩

/-- Each token of the lists has a number of its own. -/
theorem IsRanked.id?_eq {n : Numbering} (hn : Numbering.ofRules b.draft.terms b.simplified = .ok n)
    (ht : b.IsRanked t) : n.id? t = some (n.id t) :=
  Numbering.id?_eq_of_isTerminal hn (ht.isToken h).isTerminal (ht.isToken h).lt_size

end

/-- The numbers of the order of tokens: each token of the lists that are declared is there once
and no other one is, behind all tokens that a list puts before it, and behind the longer matches
among them that it overlaps with softly. -/
theorem tokenOrder_isLinear (h : ofSource source = (.ok b, journal)) {n : Numbering}
    (hn : Numbering.ofRules b.draft.terms b.simplified = .ok n) {names : Term → String}
    {soft : List Overlap} {order : List Term}
    (horder : TokenRank.order names b.ranks soft = .ok order) :
    (order.map n.id).Nodup ∧
      (∀ id, id ∈ order.map n.id ↔ ∃ t, b.IsRanked t ∧ n.id? t = some id) ∧
      (∀ decl ∈ b.decl.tokenPrecedences, ∀ x y, [x, y].Sublist decl.items →
        ∀ t ∈ Build.rankedTokens b.draft x, ∀ u ∈ Build.rankedTokens b.draft y,
          [n.id t, n.id u].Sublist (order.map n.id)) ∧
      ∀ o ∈ soft, b.IsRanked o.first → b.IsRanked o.second →
        [n.id o.longer, n.id o.shorter].Sublist (order.map n.id) := by
  obtain ⟨hperm, hdeclared, hsoft⟩ := TokenRank.order_spec (nodup_ranks h) horder
  have hmem {t : Term} : t ∈ order ↔ b.IsRanked t := hperm.mem_iff.trans (mem_ranks h)
  have hinj : ∀ t ∈ order, ∀ u ∈ order, n.id t = n.id u → t = u := by
    intro t ht u hu
    have htoken := (hmem.mp ht).isToken h
    have hutoken := (hmem.mp hu).isToken h
    exact Numbering.id_inj_of_isTerminal hn htoken.isTerminal hutoken.isTerminal htoken.lt_size
      hutoken.lt_size
  refine ⟨List.Nodup.map_on hinj (hperm.nodup_iff.mpr (nodup_ranks h)), fun id => ?_, ?_, ?_⟩
  · rw [List.mem_map]
    constructor
    · rintro ⟨t, ht, rfl⟩
      exact ⟨t, hmem.mp ht, (hmem.mp ht).id?_eq h hn⟩
    · rintro ⟨t, ht, hid⟩
      rw [ht.id?_eq h hn] at hid
      exact ⟨t, hmem.mpr ht, Option.some.inj hid⟩
  · intro decl hdecl x y hxy t ht u hu
    refine (hdeclared t u ?_).map n.id
    rw [ranks_eq h, Draft.precedes_foldl_rankList]
    exact .inr ⟨decl, hdecl, x, y, hxy, ht, hu⟩
  · intro o ho hfirst hsecond
    exact (hsoft o ho (hmem.mpr hfirst) (hmem.mpr hsecond)).map n.id

end Blueprint

/-- Three tokens. Two of them come after the third one. -/
def tokensInOrder : Text.Source :=
  ⟨"", "@top T \x7b A | B | C \x7d @tokens \x7b A \x7b \"a\" \x7d B \x7b \"ab\" \x7d " ++
    "C \x7b \"c\" \x7d @precedence \x7b C, B \x7d @precedence \x7b C, A \x7d \x7d"⟩

/-- The third token comes first, and the longer one of the other two before the shorter one. -/
theorem tokenOrder_of_tokensInOrder : ∃ b journal n order,
    Blueprint.ofSource tokensInOrder = (.ok b, journal) ∧
    Numbering.ofRules b.draft.terms b.simplified = .ok n ∧
    TokenRank.order b.draft.terms.name b.ranks [⟨⟨5⟩, ⟨4⟩, 1, "a", some "ab"⟩] = .ok order ∧
    (order.map n.id).Nodup ∧ (∀ id ∈ [2, 3, 4], id ∈ order.map n.id) ∧
    [4, 3].Sublist (order.map n.id) ∧ [4, 2].Sublist (order.map n.id) ∧
    [3, 2].Sublist (order.map n.id) := by
  have hcheck : (Blueprint.ofSource tokensInOrder).1.toOption.any (fun b =>
      (Numbering.ofRules b.draft.terms b.simplified).toOption.any fun n =>
        (TokenRank.order b.draft.terms.name b.ranks
          [⟨⟨5⟩, ⟨4⟩, 1, "a", some "ab"⟩]).toOption.any fun _ => decide (
            b.decl.tokenPrecedences.map (fun decl => decl.items.map
              (Build.rankedTokens b.draft)) = [[[⟨6⟩], [⟨5⟩]], [[⟨6⟩], [⟨4⟩]]] ∧
            n.id ⟨4⟩ = 2 ∧ n.id ⟨5⟩ = 3 ∧ n.id ⟨6⟩ = 4)) = true := by
    decide +kernel
  obtain ⟨b, journal, h, hcheck⟩ := exists_ok_fst_of_any hcheck
  obtain ⟨n, hn, hcheck⟩ := exists_ok_of_any hcheck
  obtain ⟨order, horder, hcheck⟩ := exists_ok_of_any hcheck
  obtain ⟨hlists, hA, hB, hC⟩ := of_decide_eq_true hcheck
  obtain ⟨hnodup, hmem, hdeclared, hsoft⟩ := Blueprint.tokenOrder_isLinear h hn horder
  obtain ⟨first, _, hdecls, hfirst, hlists⟩ := List.map_eq_cons_iff.mp hlists
  obtain ⟨second, rfl, hsecond⟩ := List.map_eq_singleton_iff.mp hlists
  obtain ⟨c, _, hitems, hc, hrest⟩ := List.map_eq_cons_iff.mp hfirst
  obtain ⟨y, rfl, hy⟩ := List.map_eq_singleton_iff.mp hrest
  obtain ⟨c', _, hitems', hc', hrest⟩ := List.map_eq_cons_iff.mp hsecond
  obtain ⟨x, rfl, hx⟩ := List.map_eq_singleton_iff.mp hrest
  have hranked : ∀ t ∈ [(⟨4⟩ : Term), ⟨5⟩, ⟨6⟩], b.IsRanked t := by
    simp only [List.forall_mem_cons]
    exact ⟨⟨second, by simp [hdecls], x, by simp [hitems'], by simp [hx]⟩,
      ⟨first, by simp [hdecls], y, by simp [hitems], by simp [hy]⟩,
      ⟨first, by simp [hdecls], c, by simp [hitems], by simp [hc]⟩, nofun⟩
  refine ⟨b, journal, n, order, h, hn, horder, hnodup, ?_, ?_, ?_, ?_⟩
  · have hids : ∀ t ∈ [(⟨4⟩ : Term), ⟨5⟩, ⟨6⟩], n.id t ∈ order.map n.id := fun t ht =>
      (hmem _).mpr ⟨t, hranked t ht, (hranked t ht).id?_eq h hn⟩
    simpa [hA, hB, hC] using hids
  · have := hdeclared first (by simp [hdecls]) c y (by simp [hitems]) ⟨6⟩ (by simp [hc]) ⟨5⟩
      (by simp [hy])
    rwa [hC, hB] at this
  · have := hdeclared second (by simp [hdecls]) c' x (by simp [hitems']) ⟨6⟩ (by simp [hc']) ⟨4⟩
      (by simp [hx])
    rwa [hC, hA] at this
  · have := hsoft _ List.mem_cons_self (hranked ⟨5⟩ (by simp)) (hranked ⟨4⟩ (by simp))
    simpa [Overlap.longer, Overlap.shorter, hA, hB] using this

end GrammarCompiler
