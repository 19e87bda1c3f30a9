import Scoping.Reference.Context

/-!
# Names and members

Binding a node to the symbol that it refers to, with the checks that belong to each way of referring
to one: by name, as a member of `this`, of `self`, of `super` or of a class.
-/

namespace Scoping.Reference

open Analysis

/-- The symbol that a look-up found, or what is wrong. -/
def acceptSymbol (g : Graph) (what : String) : Lookup → Except Problem SymbolId
  | .found id => .ok id
  | .hidden id => .error (.hidden (g.symbolPath id))
  | .restricted id => .error (.restricted (g.symbolPath id))
  | .notFound => .error (.undefined what)
  | .failed => .error (.unresolvable what)

/-- The symbol that a look-up found; anything else is reported. -/
def accept (span : Span) (what : String) (result : Lookup) : AnalysisM (Option SymbolId) := do
  match acceptSymbol (← currentGraph) what result with
  | .ok id => return some id
  | .error problem =>
    report span problem
    return none

/-! ### Order of declaration -/

/-- Is there a function between a scope and `owner` further out? At most `fuel` scopes are tried. -/
def crossesFunction (g : Graph) (owner : ScopeId) : Nat → Option ScopeId → Bool
  | 0, _ => false
  | _ + 1, none => false
  | fuel + 1, some id =>
    if id = owner then false
    else (g.scope id).kind == .function || crossesFunction g owner fuel (g.scope id).parent

/-- Is a symbol used before its declaration? A function that may run later is free to do so. -/
def isPremature (g : Graph) (scope : ScopeId) (symbol : Symbol) : Bool :=
  !symbol.reachable &&
    match symbol.scope with
    | none => false
    | some place => !crossesFunction g (g.owner place) (g.scopes.size + 1) (some scope)

def checkReachable (ctx : Context) (span : Span) (id : SymbolId) : AnalysisM Unit := do
  let g ← currentGraph
  let symbol := g.symbol id
  if isPremature g ctx.scope symbol then report span (.usedTooEarly symbol.name)

/-! ### Names -/

/-- Looks a name up among values and then among types. -/
def lookupName (scope : ScopeId) (path : QualName) : AnalysisM Lookup := do
  match ← onGraph (·.lookupPath scope path .value) with
  | .notFound => onGraph (·.lookupPath scope path .type)
  | result => return result

/-- Binds a name. -/
def bindName (env : Environment) (ctx : Context) (id : NodeId) (span : Span) (path : QualName) :
    AnalysisM (Option SymbolId) := do
  let result ← lookupName ctx.scope path
  match ← accept span s!"`{path.text}`" result with
  | none => return none
  | some found =>
    Hierarchy.resolveType env found
    checkReachable ctx span found
    bind id found
    return some found

/-! ### The enclosing class -/

/-- The enclosing class; a use of the keyword outside of a class is reported. -/
def requireClass (ctx : Context) (span : Span) (keyword : String) :
    AnalysisM (Option SymbolId) := do
  match ctx.cls with
  | some cls => return some cls
  | none =>
    report span (.outsideClass keyword)
    return none

/-- The superclass of a class for `super`: a superclass that could not be found counts as the root
object. -/
def superOf? (env : Environment) (g : Graph) (cls : SymbolId) : Option SymbolId :=
  (((g.symbol cls).class?.bind (·.super)).bind TypeRef.target) <|>
    env.rootObject.filter (· != cls)

/-- The superclass of the enclosing class. -/
def requireSuperclass (env : Environment) (ctx : Context) (span : Span) :
    AnalysisM (Option SymbolId) := do
  match ← requireClass ctx span "super" with
  | none => return none
  | some cls =>
    let g ← currentGraph
    match superOf? env g cls with
    | some super => return some super
    | none =>
      report span (.noSuperclass (g.symbol cls).name)
      return none

/-- What is wrong with a use of `this` in a class. -/
def thisProblem? (ctx : Context) (g : Graph) : Option Problem :=
  if ctx.forwarding then some .forwardedThis
  else
    (ctx.method? g).bind fun method =>
      if (g.symbol method).flags.isStatic then some (.staticThis (g.symbolPath method)) else none

/-- Binds `this`. -/
def bindThis (ctx : Context) (id : NodeId) (span : Span) : AnalysisM (Option SymbolId) := do
  match ← requireClass ctx span "this" with
  | none => return none
  | some cls =>
    match thisProblem? ctx (← currentGraph) with
    | some problem =>
      report span problem
      return none
    | none =>
      bind id cls
      return some cls

/-- Binds `self`. -/
def bindSelf (ctx : Context) (id : NodeId) (span : Span) : AnalysisM (Option SymbolId) := do
  match ← requireClass ctx span "self" with
  | none => return none
  | some cls =>
    bind id cls
    return some cls

/-- Binds `super`. -/
def bindSuper (env : Environment) (ctx : Context) (id : NodeId) (span : Span) :
    AnalysisM (Option SymbolId) := do
  match ← requireSuperclass env ctx span with
  | none => return none
  | some super =>
    bind id super
    return some super

/-! ### Members -/

/-- The member of a class, own or inherited. -/
def memberOf (cls : SymbolId) (name : String) (viaSuper : Bool) (span : Span) :
    AnalysisM (Option SymbolId) := do
  let g ← currentGraph
  match g.membersOf? cls with
  | none => return none
  | some members =>
    accept span s!"`{name}` in class `{g.symbolPath cls}`"
      (g.lookupMember members name (some .value) viaSuper)

/-- Binds a node to a member of a class, and reports what `problem?` has to say about that
member. -/
def bindMember (cls : SymbolId) (id : NodeId) (span : Span) (name : String) (viaSuper : Bool)
    (problem? : Graph → SymbolId → Option Problem) : AnalysisM Unit := do
  match ← memberOf cls name viaSuper span with
  | none => pure ()
  | some member =>
    match problem? (← currentGraph) member with
    | some problem => report span problem
    | none => pure ()
    bind id member

/-- Members of `this` are not static. -/
def instanceProblem? (name : String) (g : Graph) (member : SymbolId) : Option Problem :=
  if (g.symbol member).flags.isStatic then some (.staticMember (g.symbolPath member) name) else none

/-- Members of `self` and of a class are static. -/
def staticProblem? (name : String) (g : Graph) (member : SymbolId) : Option Problem :=
  if (g.symbol member).flags.isStatic then none
  else some (.instanceMember (g.symbolPath member) name)

/-- Fields of an object are not reached through `super`. -/
def superProblem? (g : Graph) (member : SymbolId) : Option Problem :=
  let symbol := g.symbol member
  if symbol.kind == .var && !symbol.flags.isStatic then some (.superField (g.symbolPath member))
  else none

end Scoping.Reference
