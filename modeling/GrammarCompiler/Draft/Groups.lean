/-
GrammarCompiler.Draft.Groups — groups of nodes.

A rule can define a group. The nodes that it can directly produce, itself or
through rules without a name, belong to the group, which is noted in a prop.

  §1 Members — the nodes that a symbol can produce.
  §2 Marking — the prop of the members.
  §3 Checks  — groups that are named like nodes, or that overlap.
-/
import GrammarCompiler.Draft.Basic

namespace GrammarCompiler

namespace Draft

/-! ## §1 Members -/

/-- The symbols with a node name that a symbol can directly produce. `within`
lists the symbols without one that are being looked through. A rule must not
produce several of them. -/
def membersFrom (d : Draft) (group : GroupDef) :
    (fuel : Nat) → (within : List Term) → Term → Except FaultAt (List Term)
  | 0, _, term =>
    .error (.groupRecursive group.rule.name (d.terms.name term), some group.rule.start)
  | fuel + 1, within, term =>
    if (d.terms.info term).nodeName.isSome then .ok [term]
    else if within.contains term then
      .error (.groupRecursive group.rule.name (d.terms.name term), some group.rule.start)
    else do
      let choices ← (d.rules.filter fun r => r.name == term).mapM fun r => do
        let found ← r.parts.mapM (membersFrom d group fuel (term :: within))
        match found.filter fun members => !members.isEmpty with
        | [] => return []
        | [members] => return members
        | _ => throw (.groupSeveralNodes group.rule.name, some group.rule.start)
      return choices.flatten

/-- The members of a group. -/
def members (d : Draft) (group : GroupDef) : Except FaultAt (List Term) :=
  d.membersFrom group (d.terms.size + 1) [] group.term

/-! ## §2 Marking -/

/-- Adds a group to those of a node, which are sorted by name. -/
def addGroup (group : String) (info : TermInfo) : TermInfo :=
  let groups := match info.props.get? "group" with
    | some value => value.splitOn " "
    | none => []
  let groups := if groups.contains group then groups else groups ++ [group]
  let sorted := groups.mergeSort fun a b => decide (a ≤ b)
  { info with props := info.props.insert "group" (" ".intercalate sorted) }

/-- Marks the members of a group. -/
def markGroup (d : Draft) (group : GroupDef) : Except FaultAt Draft := do
  let mark (terms : TermTable) (t : Term) := terms.modify t (addGroup group.group)
  return { d with terms := (← d.members group).foldl mark d.terms }

/-! ## §3 Checks -/

/-- A group with its members. -/
structure Group where
  name : String
  members : List Term

/-- Adds a member to a group. -/
def addMember (groups : List Group) (name : String) (term : Term) : List Group :=
  if groups.any fun g => g.name == name then
    groups.map fun g => if g.name == name then { g with members := g.members ++ [term] } else g
  else groups ++ [⟨name, [term]⟩]

/-- All groups, as the props of nodes tell. -/
def allGroups (d : Draft) : List Group :=
  (d.terms.all.filter fun t => (d.terms.info t).nodeName.isSome).foldl (fun groups t =>
    match (d.terms.info t).props.get? "group" with
    | some value => (value.splitOn " ").foldl (fun groups name => addMember groups name t) groups
    | none => groups) []

/-- Whether two groups overlap and neither contains the other. -/
def overlap (a b : Group) : Bool :=
  a.members.any b.members.contains &&
    if b.members.length < a.members.length then
      b.members.any fun t => !a.members.contains t
    else a.members.any fun t => !b.members.contains t

/-- What is odd about a list of groups. -/
def oddGroups (nodeNames : List String) : List Group → List Warning
  | [] => []
  | g :: rest =>
    (if nodeNames.contains g.name then [.groupIsNode g.name] else []) ++
      ((rest.filter (overlap g)).map fun other => .groupsOverlap g.name other.name) ++
      oddGroups nodeNames rest

/-- What is odd about the groups of a draft. -/
def groupWarnings (d : Draft) : List Warning :=
  oddGroups (d.terms.all.filterMap fun t => (d.terms.info t).nodeName) d.allGroups

end Draft

namespace Build

/-- Marks the members of all groups and warns about what is odd. -/
def defineGroups : Build Unit := do
  for group in (← get).groups do
    set (← check ((← get).markGroup group))
  (← get).groupWarnings.forM fun w => warn w none

end Build

end GrammarCompiler
