/-
GrammarCompiler.Proofs.Naming — the names that a module binds.

A module binds the names that it imports, one constant for each table of specialized
tokens, and the name of what it exports. A name can be imported from one source several
times, and is then bound once. All other names are written as they come: the same name
from two sources, or two tokens whose names only differ in characters that do not fit
into identifiers, give a module that binds a name twice.

  §1 Modules — names, and what they stand for.
  §2 Imports — names that are imported.
  §3 Fields  — the names that the fields of a parser refer to.
  §4 Parsers — when a module binds every name once.
-/
import GrammarCompiler.Proofs.Decoding

namespace GrammarCompiler

/-! ## §1 Modules -/

/-- What a name stands for in a module. -/
inductive Meaning where
  | imported (source : String)
  | constant (value : String)
  | exported
deriving DecidableEq

/-- The names that are imported, each with its source. -/
def Imports.refs (imports : Imports) : List ExternalRef :=
  imports.flatMap fun (source, names) => names.map fun name => ⟨name, source⟩

namespace Script

/-- The names that a module binds, in order, with what they stand for. -/
def bindings (s : Script) : List (String × Meaning) :=
  s.imports.refs.map (fun r => (r.name, .imported r.source)) ++
    s.constants.map (fun (name, value) => (name, .constant value)) ++ [(s.exportName, .exported)]

/-- The names that a module binds, in order. -/
def names (s : Script) : List String :=
  s.bindings.map Prod.fst

/-- What a name stands for: what it is bound to first. -/
def meaning? (s : Script) (name : String) : Option Meaning :=
  s.bindings.lookup name

variable {s : Script} {name : String} {meaning : Meaning}

theorem names_eq (s : Script) :
    s.names = s.imports.refs.map ExternalRef.name ++ s.constants.map Prod.fst ++ [s.exportName] := by
  simp [names, bindings, Function.comp_def]

/-- Where no name is bound twice, every binding counts. -/
theorem meaning?_of_mem (h : s.names.Nodup) (hmem : (name, meaning) ∈ s.bindings) :
    s.meaning? name = some meaning := by
  obtain ⟨before, after, hbindings⟩ := List.mem_iff_append.mp hmem
  rw [names, hbindings, List.map_append, List.map_cons] at h
  have hnot : before.lookup name = none := by
    rw [List.lookup_eq_none_iff]
    intro entry hentry
    have hne : entry.1 ≠ name := fun heq => (List.nodup_cons.mp (List.nodup_middle.mp h)).1
      (List.mem_append_left _ (List.mem_map.mpr ⟨entry, hentry, heq⟩))
    simpa using hne.symm
  rw [meaning?, hbindings, List.lookup_append, hnot, List.lookup_cons_self, Option.none_or]

end Script

/-! ## §2 Imports -/

namespace Imports

/-- Each source is listed once, and so is each of its names. -/
structure IsTidy (imports : Imports) : Prop where
  sources : (imports.map Prod.fst).Nodup
  names : ∀ entry ∈ imports, entry.2.Nodup

variable {imports : Imports} {name source : String} {r : ExternalRef}

theorem mem_refs :
    r ∈ imports.refs ↔ ∃ entry ∈ imports, entry.1 = r.source ∧ r.name ∈ entry.2 := by
  simp only [refs, List.mem_flatMap, List.mem_map]
  constructor
  · rintro ⟨entry, hentry, name, hname, rfl⟩
    exact ⟨entry, hentry, rfl, hname⟩
  · rintro ⟨entry, hentry, hsource, hname⟩
    exact ⟨entry, hentry, r.name, hname, hsource ▸ rfl⟩

theorem IsTidy.nodup_refs (h : imports.IsTidy) : imports.refs.Nodup := by
  refine List.nodup_flatMap.mpr ⟨fun entry hentry => ?_, ?_⟩
  · exact (h.names entry hentry).map fun _ _ heq => congrArg ExternalRef.name heq
  · refine (List.pairwise_map.mp h.sources).imp fun hne r hr hr' => hne ?_
    obtain ⟨_, _, rfl⟩ := List.mem_map.mp hr
    obtain ⟨_, _, heq⟩ := List.mem_map.mp hr'
    exact (congrArg ExternalRef.source heq).symm

theorem isTidy_nil : IsTidy [] :=
  ⟨List.nodup_nil, nofun⟩

/-- An entry with a name added to it, if it is the one of the source. -/
def withName (name source : String) (entry : String × List String) : String × List String :=
  if entry.1 == source && !entry.2.contains name then (entry.1, entry.2 ++ [name]) else entry

theorem add_eq (imports : Imports) (name source : String) : imports.add name source =
    if imports.any fun i => i.1 == source then imports.map (withName name source)
    else imports ++ [(source, [name])] :=
  rfl

theorem fst_withName (name source : String) (entry : String × List String) :
    (withName name source entry).1 = entry.1 := by
  unfold withName
  split <;> rfl

theorem mem_withName {name' : String} {entry : String × List String} :
    name' ∈ (withName name source entry).2 ↔
      name' ∈ entry.2 ∨ entry.1 = source ∧ name' = name := by
  unfold withName
  split
  next h =>
    have hsource : entry.1 = source := by simpa using ((Bool.and_eq_true _ _).mp h).1
    rw [List.mem_append, List.mem_singleton, and_iff_right hsource]
  next h =>
    refine ⟨.inl, fun hname => hname.elim id ?_⟩
    rintro ⟨hsource, rfl⟩
    simpa [hsource] using h

theorem nodup_withName {entry : String × List String} (h : entry.2.Nodup) :
    (withName name source entry).2.Nodup := by
  unfold withName
  split
  next hnew =>
    have hnew : name ∉ entry.2 := by simpa using ((Bool.and_eq_true _ _).mp hnew).2
    exact List.concat_eq_append ▸ h.concat hnew
  next => exact h

theorem IsTidy.add (h : imports.IsTidy) (name source : String) :
    (imports.add name source).IsTidy := by
  rw [add_eq]
  split
  next =>
    refine ⟨?_, fun entry hentry => ?_⟩
    · have hsame : (imports.map (withName name source)).map Prod.fst = imports.map Prod.fst := by
        rw [List.map_map]
        exact List.map_congr_left fun entry _ => fst_withName name source entry
      exact hsame ▸ h.sources
    · obtain ⟨known, hknown, rfl⟩ := List.mem_map.mp hentry
      exact nodup_withName (h.names known hknown)
  next hsource =>
    have hnot : source ∉ imports.map Prod.fst := by simpa using hsource
    refine ⟨?_, fun entry hentry => ?_⟩
    · rw [List.map_append]
      exact List.concat_eq_append ▸ h.sources.concat hnot
    · rcases List.mem_append.mp hentry with hentry | hentry
      · exact h.names entry hentry
      · obtain rfl := List.mem_singleton.mp hentry
        exact List.nodup_singleton name

theorem mem_refs_add (name source : String) :
    r ∈ (imports.add name source).refs ↔ r ∈ imports.refs ∨ r = ⟨name, source⟩ := by
  have hr : r = ⟨name, source⟩ ↔ source = r.source ∧ r.name = name := by
    obtain ⟨name', source'⟩ := r
    rw [ExternalRef.mk.injEq, and_comm, eq_comm (a := source)]
  rw [hr, mem_refs, mem_refs, add_eq]
  split
  next hany =>
    simp only [List.mem_map, exists_exists_and_eq_and, fst_withName, mem_withName]
    constructor
    · rintro ⟨entry, hentry, hsource, hname⟩
      exact hname.imp (fun hname => ⟨entry, hentry, hsource, hname⟩)
        fun hname => ⟨hname.1.symm.trans hsource, hname.2⟩
    · rintro (⟨entry, hentry, hsource, hname⟩ | ⟨hsource, hname⟩)
      · exact ⟨entry, hentry, hsource, .inl hname⟩
      · obtain ⟨entry, hentry, hknown⟩ := List.any_eq_true.mp hany
        have hknown := beq_iff_eq.mp hknown
        exact ⟨entry, hentry, hknown.trans hsource, .inr ⟨hknown, hname⟩⟩
  next => simp [or_and_right, exists_or]

/-- Adds several names. -/
def addAll (imports : Imports) (refs : List ExternalRef) : Imports :=
  refs.foldl (fun imports r => imports.add r.name r.source) imports

theorem IsTidy.addAll (h : imports.IsTidy) (refs : List ExternalRef) :
    (imports.addAll refs).IsTidy :=
  List.foldlRecOn refs _ h fun _ h r _ => h.add r.name r.source

theorem mem_refs_addAll {refs : List ExternalRef} :
    r ∈ (imports.addAll refs).refs ↔ r ∈ imports.refs ∨ r ∈ refs := by
  induction refs generalizing imports with
  | nil => simp [addAll]
  | cons first refs ih =>
    have hcons : imports.addAll (first :: refs) =
        (imports.add first.name first.source).addAll refs := rfl
    rw [hcons, ih, mem_refs_add, List.mem_cons, or_assoc]

end Imports

/-! ## §3 Fields -/

namespace ParserModule

variable {α β : Type} {refs refs' : List ExternalRef}

/-- What is written refers to several names, in order. -/
def RefersTo (m : Writer α) (refs : List ExternalRef) : Prop :=
  ∀ imports, (m.run imports).2 = imports.addAll refs

namespace RefersTo

theorem pure (a : α) : RefersTo (Pure.pure a) [] :=
  fun _ => rfl

theorem bind {m : Writer α} {f : α → Writer β} (hm : RefersTo m refs)
    (hf : ∀ a, RefersTo (f a) refs') : RefersTo (m >>= f) (refs ++ refs') := by
  intro imports
  rw [Imports.addAll, List.foldl_append]
  exact (hf _ _).trans (congrArg (Imports.addAll · refs') (hm imports))

theorem last {m : Writer α} {f : α → Writer β} (hm : RefersTo m refs)
    (hf : ∀ a, RefersTo (f a) []) : RefersTo (m >>= f) refs :=
  List.append_nil refs ▸ hm.bind hf

theorem mapM {f : α → Writer β} {refsOf : α → List ExternalRef}
    (hf : ∀ a, RefersTo (f a) (refsOf a)) (l : List α) :
    RefersTo (l.mapM f) (l.flatMap refsOf) := by
  induction l with
  | nil => exact .pure []
  | cons a l ih =>
    rw [List.mapM_cons, List.flatMap_cons]
    exact (hf a).bind fun _ => ih.last fun _ => .pure _

end RefersTo

theorem refersTo_reference (r : ExternalRef) : RefersTo (reference none r) [r] :=
  fun _ => rfl

/-- The name that a table of a prop refers to. -/
def refsOfProp (t : PropTable) : List ExternalRef :=
  t.prop.module.toList.map fun source => ⟨t.prop.name, source⟩

/-- The name that a tokenizer refers to. -/
def refsOfTokenizer : TokenizerRef → List ExternalRef
  | .group _ => []
  | .external r => [r]

/-- The name that a specializer refers to. -/
def refsOfSpecializer : Specializer → List ExternalRef
  | .table _ _ _ => []
  | .external _ r _ => [r]

theorem refersTo_propTable (t : PropTable) : RefersTo (propTable {} t) (refsOfProp t) := by
  rw [propTable, refsOfProp]
  cases t.prop.module with
  | none => exact .last (.pure _) fun _ => .pure _
  | some source => exact (refersTo_reference ⟨t.prop.name, source⟩).last fun _ => .pure _

theorem refersTo_tokenizer (t : TokenizerRef) :
    RefersTo (tokenizer {} t) (refsOfTokenizer t) := by
  cases t with
  | group id => exact .pure _
  | external r => exact refersTo_reference r

theorem refersTo_specializer (s : Specializer) :
    RefersTo (specializer {} s) (refsOfSpecializer s) := by
  cases s with
  | table term name values => exact .pure _
  | external term r extend => exact (refersTo_reference r).last fun _ => .pure _

end ParserModule

/-- The external names that the tables of a parser refer to. -/
def ParserTables.references (t : ParserTables) : List ExternalRef :=
  t.context.toList ++ t.nodeProps.flatMap ParserModule.refsOfProp ++ t.propSources ++
    t.tokenizers.flatMap ParserModule.refsOfTokenizer ++
    t.specialized.flatMap ParserModule.refsOfSpecializer

theorem ParserModule.refersTo_fields {options : ModuleOptions} (hhooks : options.hooks = {})
    (t : ParserTables) (e : Encoded) : RefersTo (fields options t e) t.references := by
  have hsources : RefersTo (t.propSources.mapM (reference none)) t.propSources := by
    simpa using RefersTo.mapM refersTo_reference t.propSources
  unfold fields
  simp only [hhooks, ParserTables.references, List.append_assoc]
  split
  case' h_1 hcontext =>
    rw [hcontext]
    refine RefersTo.bind (.pure _) fun _ => ?_
  case' h_2 r hcontext =>
    rw [hcontext]
    refine (refersTo_reference r).bind fun _ => (RefersTo.pure _).bind fun _ => ?_
  all_goals
    exact (RefersTo.mapM refersTo_propTable _).bind fun _ => hsources.bind fun _ =>
      (RefersTo.mapM refersTo_tokenizer _).bind fun _ =>
        (RefersTo.mapM refersTo_specializer _).last fun _ => .pure _

/-! ## §4 Parsers -/

/-- The token that a table is for. -/
def Specializer.token? : Specializer → Option String
  | .table _ token _ => some token
  | .external _ _ _ => none

namespace ParserTables

/-- The names that the module of a parser imports. -/
def imported (t : ParserTables) : List ExternalRef :=
  ⟨"LRParser", "@lezer/lr"⟩ :: t.references

/-- The tokens that have tables, by their names. -/
def tabled (t : ParserTables) : List String :=
  t.specialized.filterMap Specializer.token?

variable {t : ParserTables} {options : ModuleOptions} {s : Script} {r : ExternalRef}

theorem names_constants (t : ParserTables) :
    (t.specialized.filterMap ParserModule.tableConstant?).map Prod.fst =
      t.tabled.map ParserModule.tableName := by
  rw [tabled, List.map_filterMap, List.map_filterMap]
  refine List.filterMap_congr fun specializer _ => ?_
  cases specializer <;> rfl

section

variable (hhooks : options.hooks = {}) (h : t.parserScript options = .ok s)
include hhooks h

theorem parserScript_eq : s.imports = Imports.addAll [] t.imported ∧
    s.constants = t.specialized.filterMap ParserModule.tableConstant? ∧
    s.exportName = options.exportName := by
  obtain ⟨encoded, _, h⟩ := exists_ok_of_bind h
  obtain rfl := Except.ok.inj h
  exact ⟨ParserModule.refersTo_fields hhooks t encoded _, rfl, rfl⟩

theorem mem_refs_parserScript : r ∈ s.imports.refs ↔ r ∈ t.imported := by
  rw [(parserScript_eq hhooks h).1, Imports.mem_refs_addAll]
  exact or_iff_right List.not_mem_nil

theorem nodup_refs_parserScript : s.imports.refs.Nodup := by
  rw [(parserScript_eq hhooks h).1]
  exact (Imports.isTidy_nil.addAll _).nodup_refs

/-- A module binds every name once exactly if no name is imported from two sources, no two tokens
with tables are named alike but for characters that do not fit, and imports, tables and the export
do not get in the way of each other. -/
theorem nodup_names_iff : s.names.Nodup ↔
    (∀ r ∈ t.imported, ∀ r' ∈ t.imported, r.name = r'.name → r = r') ∧
    (t.tabled.map ParserModule.tableName).Nodup ∧
    (∀ r ∈ t.imported, ∀ token ∈ t.tabled, r.name ≠ ParserModule.tableName token) ∧
    (∀ r ∈ t.imported, r.name ≠ options.exportName) ∧
    ∀ token ∈ t.tabled, ParserModule.tableName token ≠ options.exportName := by
  obtain ⟨-, hconstants, hexport⟩ := parserScript_eq hhooks h
  have hnodup := nodup_refs_parserScript hhooks h
  have himports : (s.imports.refs.map ExternalRef.name).Nodup ↔
      ∀ r ∈ t.imported, ∀ r' ∈ t.imported, r.name = r'.name → r = r' := by
    rw [List.nodup_map_iff_inj_on hnodup]
    simp only [mem_refs_parserScript hhooks h]
  rw [Script.names_eq, hconstants, names_constants, hexport, List.nodup_append, List.nodup_append,
    himports]
  simp only [List.forall_mem_map, List.mem_append, List.mem_singleton, forall_eq, or_imp,
    forall_and, mem_refs_parserScript hhooks h, List.nodup_singleton, true_and, and_assoc]

/-- Where every name is bound once, all uses of names mean what they are for. -/
theorem meaning?_of_nodup (hnodup : s.names.Nodup) :
    (∀ r ∈ t.imported, s.meaning? r.name = some (.imported r.source)) ∧
    (∀ specializer ∈ t.specialized, ∀ name value,
      ParserModule.tableConstant? specializer = some (name, value) →
        s.meaning? name = some (.constant value)) ∧
    s.meaning? options.exportName = some .exported := by
  obtain ⟨-, hconstants, hexport⟩ := parserScript_eq hhooks h
  refine ⟨fun r hr => ?_, fun specializer hmem name value hname => ?_, ?_⟩
  · refine Script.meaning?_of_mem hnodup (List.mem_append_left _ (List.mem_append_left _ ?_))
    exact List.mem_map.mpr ⟨r, (mem_refs_parserScript hhooks h).mpr hr, rfl⟩
  · refine Script.meaning?_of_mem hnodup (List.mem_append_left _ (List.mem_append_right _ ?_))
    exact List.mem_map.mpr ⟨(name, value),
      hconstants ▸ List.mem_filterMap.mpr ⟨specializer, hmem, hname⟩, rfl⟩
  · refine Script.meaning?_of_mem hnodup (List.mem_append_right _ ?_)
    rw [hexport]
    exact List.mem_singleton_self _

/-- A module imports every name once from each source that it is needed from. It binds every name
once exactly if no name is imported from two sources, no two tables are for tokens whose names only
differ in characters that do not fit, no import has the name of a table, and the export has a name
of its own. Then every reference means what it was imported for, and every table is found by its
name. -/
theorem parserScript_bindsOnce :
    s.imports.refs.Nodup ∧ (∀ r, r ∈ s.imports.refs ↔ r ∈ t.imported) ∧
    s.names = s.imports.refs.map ExternalRef.name ++ t.tabled.map ParserModule.tableName ++
      [options.exportName] ∧
    (s.names.Nodup ↔
      (∀ r ∈ t.imported, ∀ r' ∈ t.imported, r.name = r'.name → r = r') ∧
      (t.tabled.map ParserModule.tableName).Nodup ∧
      (∀ r ∈ t.imported, ∀ token ∈ t.tabled, r.name ≠ ParserModule.tableName token) ∧
      (∀ r ∈ t.imported, r.name ≠ options.exportName) ∧
      ∀ token ∈ t.tabled, ParserModule.tableName token ≠ options.exportName) ∧
    (s.names.Nodup →
      (∀ r ∈ t.imported, s.meaning? r.name = some (.imported r.source)) ∧
      (∀ specializer ∈ t.specialized, ∀ name value,
        ParserModule.tableConstant? specializer = some (name, value) →
          s.meaning? name = some (.constant value)) ∧
      s.meaning? options.exportName = some .exported) := by
  refine ⟨nodup_refs_parserScript hhooks h, fun _ => mem_refs_parserScript hhooks h, ?_,
    nodup_names_iff hhooks h, meaning?_of_nodup hhooks h⟩
  obtain ⟨-, hconstants, hexport⟩ := parserScript_eq hhooks h
  rw [Script.names_eq, hconstants, names_constants, hexport]

end

/-- Two tokens with tables, and two declarations that import one name from one source. -/
def namesApart : Text.Source :=
  ⟨"", "@top T \x7b @specialize<\"p\", \"x\"> @specialize<\"q\", \"y\"> \x7d " ++
    "@context t from \"./b\" @external propSource t from \"./b\""⟩

/-- The name is imported once. -/
theorem parserScript_bindsOnce_namesApart : ∃ t journal s,
    compileTables namesApart = (.ok t, journal) ∧ t.parserScript {} = .ok s ∧
      s.names = ["LRParser", "t", "spec__p_", "spec__q_", "parser"] ∧ s.names.Nodup ∧
      s.meaning? "t" = some (.imported "./b") ∧
      s.meaning? "spec__p_" = some (.constant "\x7b__proto__:null,x:8\x7d") := by
  have hcheck : (compileTables namesApart).1.toOption.any (fun t =>
      (t.parserScript {}).toOption.any fun s =>
        decide (s.names = ["LRParser", "t", "spec__p_", "spec__q_", "parser"] ∧
          ⟨"t", "./b"⟩ ∈ t.imported ∧ ∃ specializer ∈ t.specialized,
            ParserModule.tableConstant? specializer =
              some ("spec__p_", "\x7b__proto__:null,x:8\x7d"))) = true := by
    decide +kernel
  obtain ⟨t, journal, h, hcheck⟩ := exists_ok_fst_of_any hcheck
  obtain ⟨s, hs, hcheck⟩ := exists_ok_of_any hcheck
  obtain ⟨hnames, hmem, specializer, hspecializer, hconstant⟩ := of_decide_eq_true hcheck
  obtain ⟨-, -, -, -, hmeaning⟩ := parserScript_bindsOnce rfl hs
  have hnodup : s.names.Nodup := hnames ▸ by decide
  obtain ⟨himported, htables, -⟩ := hmeaning hnodup
  exact ⟨t, journal, s, h, hs, hnames, hnodup, himported _ hmem,
    htables specializer hspecializer _ _ hconstant⟩

/-- Two tokens whose names only differ in a character that does not fit into identifiers. -/
def squeezedAlike : Text.Source :=
  ⟨"", "@top T \x7b @specialize<\"+\", \"+\"> @specialize<\"-\", \"-\"> \x7d"⟩

/-- Both tables get one name. -/
theorem parserScript_bindsTwice : ∃ t journal s,
    compileTables squeezedAlike = (.ok t, journal) ∧ t.parserScript {} = .ok s ∧
      t.tabled = ["\"+\"", "\"-\""] ∧
      s.constants = [("spec____", "\x7b__proto__:null,\"+\":8\x7d"),
        ("spec____", "\x7b__proto__:null,\"-\":12\x7d")] ∧
      s.names = ["LRParser", "spec____", "spec____", "parser"] ∧ ¬ s.names.Nodup := by
  have hcheck : (compileTables squeezedAlike).1.toOption.any (fun t =>
      (t.parserScript {}).toOption.any fun s => decide (t.tabled = ["\"+\"", "\"-\""] ∧
        s.constants = [("spec____", "\x7b__proto__:null,\"+\":8\x7d"),
          ("spec____", "\x7b__proto__:null,\"-\":12\x7d")] ∧
        s.names = ["LRParser", "spec____", "spec____", "parser"])) = true := by
    decide +kernel
  obtain ⟨t, journal, h, hcheck⟩ := exists_ok_fst_of_any hcheck
  obtain ⟨s, hs, hcheck⟩ := exists_ok_of_any hcheck
  obtain ⟨htabled, hconstants, hnames⟩ := of_decide_eq_true hcheck
  exact ⟨t, journal, s, h, hs, htabled, hconstants, hnames, hnames ▸ by decide⟩

end ParserTables

end GrammarCompiler
