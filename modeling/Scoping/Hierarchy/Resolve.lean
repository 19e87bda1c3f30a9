import Scoping.Hierarchy.Contract
import Scoping.Hierarchy.Copy
import Scoping.Hierarchy.Hint

/-!
# Resolving types

Resolving a type finds its superclass, interfaces and traits, copies the members of its traits and
checks what it has to implement. Every type is resolved once, its relatives before it; a type that
is asked for while it is being resolved closes a cycle, which is reported and not linked.

Each step takes the resolution of other types as an argument, and `resolveWithin` ties the knot.
-/

namespace Scoping.Hierarchy

open Analysis

/-- The scope from which the relatives of a type are looked up. -/
def declaringScope (g : Graph) (id : SymbolId) : ScopeId :=
  let symbol := g.symbol id
  match symbol.scope with
  | some scope => g.owner scope
  | none => (symbol.members?.bind fun members => (g.scope members).parent).getD Graph.global

/-- The type that a look-up found, if it is of the expected kind and not being resolved. -/
def acceptType (g : Graph) (path : QualName) (expected : SymbolKind) :
    Lookup → Except Problem SymbolId
  | .found id =>
    let symbol := g.symbol id
    if symbol.kind ≠ expected then .error (.unexpectedType path symbol.kind expected)
    else if symbol.data.resolution? = some .resolving then .error (.cyclicType expected path)
    else .ok id
  | .hidden _ => .error (.hiddenType expected path)
  | .restricted _ => .error (.restrictedType expected path)
  | .notFound => .error (.unknownType expected path)
  | .failed => .error (.unresolvableType expected path)

/-- Finds and resolves a relative of a type. -/
def requireType (resolve : SymbolId → AnalysisM Unit) (start : ScopeId) (expected : SymbolKind)
    (ref : TypeRef) : AnalysisM (Option SymbolId) := do
  let result ← onGraph (·.lookupPath start ref.path .type)
  match acceptType (← currentGraph) ref.path expected result with
  | .ok id =>
    resolve id
    return some id
  | .error problem =>
    report ref.span problem
    return none

/-- Finds the superclass of a class. -/
def requireSuper (env : Environment) (resolve : SymbolId → AnalysisM Unit) (start : ScopeId)
    (id : SymbolId) : Option TypeRef → AnalysisM (Option SymbolId)
  | none => return env.rootObject.filter (· != id)
  | some ref => do
    let target ← requireType resolve start .cls ref
    match target with
    | none => pure ()
    | some super =>
      let base ← symbol super
      if base.flags.isFinal then
        reportWithPrevious ref.span (.finalSuper ref.path) base.span "declared final here"
    return target

/-- Makes `super` the superclass of a class. -/
def linkSuper (g : Graph) (id : SymbolId) (members : ScopeId) (super : SymbolId) : Graph :=
  let g := g.modifyMember members fun info => { info with super := g.membersOf? super }
  g.modifyData id (·.mapClass fun data =>
    { data with super := data.super.map fun ref => { ref with target := some super } })

/-- Sets the target of one reference. -/
def setTarget (refs : List TypeRef) (index : Nat) (target : SymbolId) : List TypeRef :=
  refs.modify index fun ref => { ref with target := some target }

/-- Finds the interfaces of a type and links each with the given function. -/
def linkInterfaces (resolve : SymbolId → AnalysisM Unit) (start : ScopeId)
    (link : Nat → SymbolId → Graph → Graph) (refs : List TypeRef) : AnalysisM Unit :=
  refs.zipIdx.forM fun (ref, index) => do
    match ← requireType resolve start .iface ref with
    | some target => modifyGraph (link index target)
    | none => pure ()

/-- Copies the members of the traits that a type uses. -/
def applyTraits (resolve : SymbolId → AnalysisM Unit) (host : SymbolId) (start : ScopeId)
    (usages : List TraitUsage) : AnalysisM Unit :=
  usages.forM fun usage => do
    match ← requireType resolve start .trait usage.trait with
    | some trait => flatten host trait usage
    | none => pure ()

/-- Looks up the hints of all functions of a type. -/
def resolveMemberHints (host : SymbolId) : AnalysisM Unit := do
  let g ← currentGraph
  match g.membersOf? host with
  | some scope => (g.memberFunctions host).forM (resolveHints scope)
  | none => pure ()

/-! ### Abstract classes and contracts -/

def makeAbstract (g : Graph) (id : SymbolId) : Graph :=
  g.modifySymbol id fun s => { s with flags := { s.flags with isAbstract := true } }

/-- A class with an abstract function is abstract, unless it is foreign, and cannot be final. -/
def markAbstract (id : SymbolId) : AnalysisM Unit := do
  let g ← currentGraph
  if (g.symbol id).flags.isForeign then pure ()
  else
    if (g.memberFunctions id).any g.isAbstract then modifyGraph (makeAbstract · id)
    let symbol ← symbol id
    if symbol.flags.isAbstract && symbol.flags.isFinal then
      report symbol.span (.abstractAndFinal symbol.name)

/-- Reports a function that does not fit what it should implement. -/
def reportStanding (g : Graph) (obligation : SymbolId) : Standing → AnalysisM Unit
  | .broken implementation why =>
    reportWithPrevious (g.symbol implementation).span
      (.brokenContract (g.symbolPath implementation) (g.symbolPath obligation) why.message)
      (g.symbol obligation).span "required by this declaration"
  | _ => pure ()

/-- A class that does not implement all that it has to is abstract, unless it is foreign. -/
def verifyContracts (env : Environment) (id : SymbolId) : AnalysisM Unit := do
  let g ← currentGraph
  if (g.symbol id).flags.isForeign then pure ()
  else
    let obligations := g.obligations env.rootObject id
    obligations.forM fun obligation => reportStanding g obligation (g.standing id obligation)
    if obligations.any fun obligation => g.standing id obligation != .met then
      modifyGraph (makeAbstract · id)

/-! ### Resolution -/

def resolveClass (env : Environment) (resolve : SymbolId → AnalysisM Unit) (id : SymbolId)
    (data : ClassData) : AnalysisM Unit := do
  let start := declaringScope (← currentGraph) id
  match ← requireSuper env resolve start id data.super with
  | some super => modifyGraph (linkSuper · id data.members super)
  | none => pure ()
  linkInterfaces resolve start
    (fun index target g =>
      g.modifyData id (·.mapClass fun d =>
        { d with interfaces := setTarget d.interfaces index target }))
    data.interfaces
  applyTraits resolve id start data.traits
  resolveMemberHints id
  markAbstract id
  verifyContracts env id

def resolveTrait (resolve : SymbolId → AnalysisM Unit) (id : SymbolId) (data : TraitData) :
    AnalysisM Unit := do
  applyTraits resolve id (declaringScope (← currentGraph) id) data.traits
  resolveMemberHints id

def resolveInterface (resolve : SymbolId → AnalysisM Unit) (id : SymbolId) (data : InterfaceData) :
    AnalysisM Unit := do
  linkInterfaces resolve (declaringScope (← currentGraph) id)
    (fun index target g =>
      g.modifyData id (·.mapInterface fun d =>
        { d with interfaces := setTarget d.interfaces index target }))
    data.interfaces
  resolveMemberHints id

/-- Notes how far a type has been resolved. -/
def setResolution (id : SymbolId) (resolution : Resolution) : AnalysisM Unit :=
  modifyGraph (·.modifyData id (·.setResolution resolution))

/-- Resolves one type that has not been resolved yet. -/
def resolveStep (env : Environment) (resolve : SymbolId → AnalysisM Unit) (id : SymbolId) :
    AnalysisM Unit := do
  let data := (← symbol id).data
  if data.resolution? = some .unresolved then
    setResolution id .resolving
    match data with
    | .cls data => resolveClass env resolve id data
    | .trait data => resolveTrait resolve id data
    | .iface data => resolveInterface resolve id data
    | _ => pure ()
    setResolution id .resolved

/-- Resolves a type through chains of at most `fuel` relatives. -/
def resolveWithin (env : Environment) : Nat → SymbolId → AnalysisM Unit
  | 0 => fun _ => throw .exhausted
  | fuel + 1 => resolveStep env (resolveWithin env fuel)

/-- Resolves a type, and its relatives before it. -/
def resolveType (env : Environment) (id : SymbolId) : AnalysisM Unit := do
  resolveWithin env (← get).budget id

end Scoping.Hierarchy
