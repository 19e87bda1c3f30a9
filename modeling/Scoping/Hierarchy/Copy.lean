import Scoping.Declaration.Walk
import Scoping.Graph.Search

/-!
# Copying trait members

A type that uses a trait gets copies of the members of the trait that it does not have itself. A
copy has parameters and a subtree of its own. In a class, the bodies of copied functions are
declared right away, and the engine constants in them are put off until the class is known for good.
-/

namespace Scoping

/-- The name that a usage gives to a member. Only single items can be renamed. -/
def TraitUsage.nameFor (usage : TraitUsage) (name : String) : String :=
  match usage.item, usage.rename with
  | some _, some rename => rename
  | _, _ => name

/-- The flags of a copy: a visibility that the usage gives replaces the one of the member. -/
def Flags.override (flags given : Flags) : Flags :=
  (if given.hasVisibility then flags.without .visibility else flags).union given

/-- The slots of a trait that a host leaves empty. -/
def MemberInfo.missingSlots (trait : MemberInfo) (host : Option MemberInfo) :
    List (Role × SymbolId) :=
  let slots : List (Role × String × SymbolId) :=
    (trait.ctor.toList.map fun id => (.constructor, "", id)) ++
      (trait.dtor.toList.map fun id => (.destructor, "", id)) ++
      (trait.getters.entries.map fun (name, id) => (.getter, name, id)) ++
      (trait.setters.entries.map fun (name, id) => (.setter, name, id))
  (slots.filter fun (role, name, _) => (host.bind (·.slot? role name)).isNone).map
    fun (role, _, id) => (role, id)

namespace Hierarchy

open Analysis

/-- A usage of a trait in a type. -/
structure Mixin where
  host : SymbolId
  hostScope : ScopeId
  trait : SymbolId
  traitScope : ScopeId
deriving DecidableEq, Inhabited

/-- Copies the subtree of a node, if there is one. -/
def copyNode : Option NodeId → AnalysisM (Option NodeId)
  | none => pure none
  | some id => do
    let spare := (← get).spare
    some <$> onTree (·.copySubtree id spare)

/-- A detached copy of a trait member. -/
def copyMember (member trait : SymbolId) (name : String) (flags : Flags) : AnalysisM SymbolId := do
  let g ← currentGraph
  let source := g.symbol member
  let copy : Symbol :=
    { source.detached with
      name
      flags := source.flags.override flags
      origin := source.origin <|> some trait }
  match source.data with
  | .fn data =>
    let params ← onGraph (·.allocAll (data.params.map fun param => (g.symbol param).detached))
    let node ← copyNode source.node
    onGraph (·.alloc { copy with node, data := .fn { data with params, bodyScope := none } })
  | .var data =>
    let init ← copyNode data.init
    onGraph (·.alloc { copy with data := .var { data with init } })
  | _ => onGraph (·.alloc copy)

/-- Puts off the binding of a node if it is an engine constant. -/
def deferConstant (host function : SymbolId) (id : NodeId) : AnalysisM Unit := do
  match (← read id).kind with
  | .engineConst _ =>
    annotate id fun note => { note with binding := some .pending }
    modify fun s => { s with late := s.late ++ [{ node := id, host, function }] }
  | _ => pure ()

/-- Puts off the engine constants below a node. -/
def deferConstants (host function : SymbolId) (id : NodeId) : AnalysisM Unit := do
  let spare := (← get).spare
  let ids ← onTree fun t => (fun ids => (ids, t)) <$> t.descendants id spare
  ids.forM (deferConstant host function)

/-- Declares the body of a function that was copied into a class. -/
def declareCopy (m : Mixin) (copy : SymbolId) : AnalysisM Unit := do
  let g ← currentGraph
  let symbol := g.symbol copy
  match symbol.fn?, symbol.node with
  | some data, some id =>
    if g.isClass m.host && data.hasBody then
      Declaration.copiedFunction copy id m.hostScope (some m.traitScope)
      deferConstants m.host copy id
  | _, _ => pure ()

/-- Copies a member into the table of the host, unless the host has a member of that name. -/
def copyInto (m : Mixin) (usage : TraitUsage) (member : SymbolId) : AnalysisM Unit := do
  let g ← currentGraph
  let symbol := g.symbol member
  let name := usage.nameFor symbol.name
  if (g.lookupHere? m.hostScope name (some symbol.ns)).isNone then
    let copy ← copyMember member m.trait name usage.flags
    let decision ← declare m.hostScope copy
    if decision.isLive then declareCopy m copy

/-- Copies a member into a slot of the host. -/
def copyIntoSlot (m : Mixin) (role : Role) (member : SymbolId) : AnalysisM Unit := do
  let copy ← copyMember member m.trait (← symbol member).name {}
  modifyGraph (·.putSlot m.hostScope role copy)
  declareCopy m copy

/-- Fills the slots that the host leaves empty. -/
def copySlots (m : Mixin) : AnalysisM Unit := do
  let g ← currentGraph
  match g.memberInfo? m.traitScope with
  | none => pure ()
  | some info =>
    (info.missingSlots (g.memberInfo? m.hostScope)).forM fun (role, member) =>
      copyIntoSlot m role member

/-- Copies what a usage asks for. -/
def copyMembers (m : Mixin) (usage : TraitUsage) : AnalysisM Unit := do
  let g ← currentGraph
  match usage.item with
  | none =>
    (g.memberIds m.trait).forM (copyInto m usage)
    copySlots m
  | some name =>
    match g.lookupHere? m.traitScope name (some .value) with
    | some member => copyInto m usage member
    | none => report usage.span (.unknownTraitMember usage.trait.path name)

/-- Carries out one usage of a trait. -/
def flatten (host trait : SymbolId) (usage : TraitUsage) : AnalysisM Unit := do
  let g ← currentGraph
  match g.membersOf? host, g.membersOf? trait with
  | some hostScope, some traitScope => copyMembers { host, hostScope, trait, traitScope } usage
  | _, _ => pure ()

end Hierarchy

end Scoping
