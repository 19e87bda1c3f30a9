import Scoping.Hierarchy.Resolve

/-!
# Where a name is used

The context of a use: its scope, the class around it, the functions around it, and whether it
stands in the arguments of a call of the parent constructor.
-/

namespace Scoping.Reference

open Analysis

structure Context where
  scope : ScopeId
  cls : Option SymbolId := none
  /-- The trait that the enclosing member was copied from. -/
  traitOrigin : Option SymbolId := none
  /-- The enclosing functions, innermost first. -/
  functions : List SymbolId := []
  enclosingModule : Option ScopeId := none
  /-- Inside the arguments of `super(...)`. -/
  forwarding : Bool := false
deriving DecidableEq, Inhabited

/-- A walk over a subtree. -/
abbrev Walk := Context → NodeId → AnalysisM Unit

namespace Context

/-- The nearest enclosing function that is not an expression. -/
def method? (ctx : Context) (g : Graph) : Option SymbolId :=
  ctx.functions.find? fun id => (g.symbol id).fn?.any fun data => !data.isExpr

/-- Is the innermost function a constructor? -/
def inConstructor (ctx : Context) (g : Graph) : Bool :=
  (ctx.functions.head?.bind fun id => (g.symbol id).fn?).any fun data =>
    data.role == .constructor && !data.isExpr

/-- The member scope of the enclosing class. -/
def members? (ctx : Context) (g : Graph) : Option ScopeId := ctx.cls.bind g.membersOf?

end Context

/-- Resolves every type that a scope declares. -/
def resolveTypesIn (env : Environment) (scope : ScopeId) : AnalysisM Unit := do
  let g ← currentGraph
  let own := (g.scope scope).table.type.values
  let inner := match (g.scope scope).inner with
    | some inner => (g.scope inner).table.type.values
    | none => []
  (own ++ inner).forM (Hierarchy.resolveType env)

/-- Moves to another scope. The types of a scope are resolved on the way in. -/
def moveTo (env : Environment) (ctx : Context) (scope : ScopeId) : AnalysisM Context :=
  if scope = ctx.scope then pure ctx
  else do
    resolveTypesIn env scope
    return { ctx with scope }

/-- Moves to the scope that a node opens, if it opens one. -/
def moveInto (env : Environment) (ctx : Context) (note : Annotation) : AnalysisM Context :=
  match note.scope with
  | some scope => moveTo env ctx scope
  | none => pure ctx

def enter (scope : ScopeId) : AnalysisM Unit := modifyGraph (·.enter scope)

/-- Leaves a scope. A scope that was never entered is a failure of the analysis itself. -/
def leave (scope : ScopeId) (span : Span) : AnalysisM Unit := do
  match (← currentGraph).leave? scope with
  | some graph => modifyGraph fun _ => graph
  | none => modifyLog (·.abort span (Graph.underflowMessage scope))

end Scoping.Reference
