import Scoping.Reference.Constant
import Scoping.Reference.Name

/-!
# Resolving the contents of a unit

The second walk over a tree binds every name, `this`, `self`, `super` and member to a symbol, checks
the rules about their use, and finds the values of constants. The types of a scope are resolved
before its contents are walked, so that they can refer to each other in any order.

Each step is a function of the walk itself; `visit` ties the knot for trees up to a given depth.
-/

namespace Scoping.Reference

open Analysis

/-! ### Modules and imports -/

def visitModule (env : Environment) (visit : Walk) (ctx : Context) (node : Node)
    (body : List NodeId) : AnalysisM Unit := do
  match node.note.scope with
  | none => pure ()
  | some scope =>
    let isModule := ((← currentGraph).scope scope).kind == .module
    enter scope
    let enclosingModule := if isModule then some scope else none
    let inside ← moveTo env { ctx with enclosingModule } scope
    body.forM (visit inside)
    leave scope node.span

/-- What an import stands for: a type, or else a value. -/
def importTarget (g : Graph) (link : SymbolId) : Lookup :=
  (g.followImport link .type 1).orElse fun _ => g.followImport link .value 1

/-- Does an import name a module of its unit or of an earlier one? -/
def namesModule (g : Graph) (link : SymbolId) (path : QualName) : Bool :=
  let unit := (g.symbol link).scope.bind g.unitOf?
  (unit.toList ++ [Graph.global]).any fun root => g.hasModules root path.segments

/-- Resolves an import. One that was refused is left alone. -/
def visitUse (node : Node) (path : QualName) : AnalysisM Unit := do
  let g ← currentGraph
  match node.note.symbol.filter fun link => (g.symbol link).scope.isSome with
  | none => pure ()
  | some link =>
    let result := importTarget g link
    match result.symbol? with
    | some target =>
      modifyGraph (·.modifyData link (·.mapImport fun a => { a with target := some target }))
    | none =>
      if result = .failed then report node.span (.endlessImport path)
      else if namesModule g link path then pure ()
      else report node.span (.unknownImport path)

/-- Hands a request of a node to the loader. -/
def request (id : NodeId) (r : ImportRequest) : AnalysisM SourceHandle :=
  modifyGet fun s =>
    let (handle, loader) := s.loader.register r
    (handle,
      { s with
        loader, requests := Import.note s.requests r
        inquiries := s.inquiries ++ [⟨id, r, handle⟩] })

def visitRequire (env : Environment) (visit : Walk) (ctx : Context) (id : NodeId) (span : Span)
    (path : NodeId) (foreign : Bool) : AnalysisM Unit := do
  visit ctx path
  let value ← reduce env path
  match value.str? with
  | none => report span (.variablePath value)
  | some raw =>
    let directory := (UnixPath.mk (← get).tree.file).directory
    let file := Import.resolve env.config directory foreign raw
    let handle ← request id { path := file, foreign, span }
    annotate id fun note => { note with handle := some handle, value := some value }

/-! ### Classes and functions -/

/-- Visits a member that was copied from a trait: the body of a function, or the initializer of a
variable. -/
def visitCopy (env : Environment) (visit : Walk) (ctx : Context) (copy : SymbolId) :
    AnalysisM Unit := do
  let symbol ← symbol copy
  let inside := { ctx with traitOrigin := symbol.origin }
  match symbol.data with
  | .fn _ => symbol.node.toList.forM (visit inside)
  | .var data => visitInit env visit inside copy data.init
  | _ => pure ()

/-- The members of a class that were copied from traits. -/
def copiedMembers (g : Graph) (cls : SymbolId) (members : ScopeId) : List SymbolId :=
  let slots := ((g.memberInfo? members).map MemberInfo.slots).getD []
  (g.memberIds cls ++ slots).filter fun id => (g.symbol id).origin.isSome

def visitClass (env : Environment) (visit : Walk) (ctx : Context) (node : Node)
    (members : List NodeId) : AnalysisM Unit := do
  match node.note.symbol, node.note.scope with
  | some cls, some scope =>
    Hierarchy.resolveType env cls
    enter scope
    let inside ←
      moveTo env
        { scope := ctx.scope, cls := some cls, enclosingModule := ctx.enclosingModule } scope
    members.forM (visit inside)
    (copiedMembers (← currentGraph) cls scope).forM (visitCopy env visit inside)
    leave scope node.span
  | _, _ => pure ()

/-- Does a parameter name an instance field of the given member scope? -/
def namesField (g : Graph) (members : ScopeId) (name : String) : Bool :=
  (g.lookupHere? members name (some .value)).any fun id =>
    (g.symbol id).kind == .var && !(g.symbol id).flags.isStatic

/-- The parameters of a constructor that are stored in fields must name fields. -/
def checkThisBound (ctx : Context) (params : List SymbolId) : AnalysisM Unit := do
  let g ← currentGraph
  match ctx.members? g with
  | none => pure ()
  | some members =>
    params.forM fun param => do
      let symbol := g.symbol param
      if symbol.var?.any (·.thisBound) && !namesField g members symbol.name then
        report symbol.span (.unknownField symbol.name)

/-- Visits the default values and the body of a function, inside its scope. -/
def visitFunctionBody (env : Environment) (visit : Walk) (ctx : Context) (params : List SymbolId)
    (decl : FnDecl) : AnalysisM Unit := do
  (params.zip decl.params).forM fun (symbol, param) => visitInit env visit ctx symbol param.default
  if decl.role = .constructor then checkThisBound ctx params
  match decl.body with
  | none => pure ()
  | some body =>
    match (← read body).kind with
    | .block statements => statements.forM (visit ctx)
    | _ => visit ctx body

def visitFunction (env : Environment) (visit : Walk) (ctx : Context) (node : Node) (decl : FnDecl) :
    AnalysisM Unit := do
  match node.note.symbol with
  | none => pure ()
  | some function =>
    if ((← currentGraph).scope ctx.scope).kind != .member then
      Hierarchy.resolveHints ctx.scope function
    match node.note.scope with
    | none => pure ()
    | some scope =>
      let params := (← currentGraph).paramsOf function
      let inside ← moveTo env { ctx with functions := function :: ctx.functions } scope
      visitFunctionBody env visit inside params decl

/-! ### Expressions -/

/-- What kind of thing cannot be assigned to. -/
def unassignable? (symbol : Symbol) : Option String :=
  match symbol.kind with
  | .var => if symbol.flags.isConst then some "constant" else none
  | .imported => none
  | .fn => some "function"
  | .cls => some "type"
  | .trait => some "type"
  | .iface => some "type"

def visitAssign (visit : Walk) (ctx : Context) (target value : NodeId) : AnalysisM Unit := do
  visit ctx value
  visit ctx target
  let node ← read target
  match node.note.symbol with
  | none => pure ()
  | some id =>
    let g ← currentGraph
    match unassignable? (g.symbol id) with
    | some what => report node.span (.assignment what (g.symbolPath id))
    | none => pure ()

/-- The first constructor from a member scope upward, trying at most `fuel` scopes. -/
def constructorFrom? (g : Graph) : Nat → Option ScopeId → Option SymbolId
  | 0, _ => none
  | _ + 1, none => none
  | fuel + 1, some scope =>
    (g.memberInfo? scope).bind fun info => info.ctor <|> constructorFrom? g fuel info.super

/-- The constructor that a call of the parent constructor runs. -/
def constructor? (g : Graph) (cls : SymbolId) : Option SymbolId :=
  constructorFrom? g (g.scopes.size + 1) (g.membersOf? cls)

/-- Binds the callee of `super(...)` to the parent constructor, or to the superclass if there is
none. -/
def bindSuperCall (env : Environment) (ctx : Context) (span : Span) (callee : NodeId)
    (calleeSpan : Span) : AnalysisM Unit := do
  match ← requireSuperclass env ctx calleeSpan with
  | none => pure ()
  | some super =>
    let g ← currentGraph
    match constructor? g super with
    | none => bind callee super
    | some ctor =>
      if (g.symbol ctor).flags.isPrivate then report span (.hidden (g.symbolPath ctor))
      else bind callee ctor

/-- Withholds the members of a class, or gives them back. -/
def setRestricted (members : Option ScopeId) (restricted : Bool) : AnalysisM Unit :=
  members.toList.forM fun scope =>
    modifyGraph (·.modifyMember scope fun info => { info with restricted })

/-- Visits a call of the parent constructor. The members of the class are withheld in its
arguments. -/
def visitSuperCall (env : Environment) (visit : Walk) (ctx : Context) (span : Span)
    (callee : NodeId) (calleeSpan : Span) (args : List NodeId) : AnalysisM Unit := do
  if ctx.inConstructor (← currentGraph) then
    bindSuperCall env ctx span callee calleeSpan
    let members := ctx.members? (← currentGraph)
    setRestricted members true
    args.forM (visit { ctx with forwarding := true })
    setRestricted members false
  else
    report span .misplacedSuperCall
    args.forM (visit ctx)

def visitCall (env : Environment) (visit : Walk) (ctx : Context) (span : Span) (callee : NodeId)
    (args : List NodeId) : AnalysisM Unit := do
  let target ← read callee
  match target.kind with
  | .super => visitSuperCall env visit ctx span callee target.span args
  | _ =>
    visit ctx callee
    args.forM (visit ctx)

/-- What kind of thing cannot be instantiated. -/
def uninstantiable? (symbol : Symbol) : Option String :=
  match symbol.kind with
  | .cls => if symbol.flags.isAbstract then some "abstract class" else none
  | .trait => some "trait"
  | .iface => some "interface"
  | _ => some "non-class symbol"

/-- Binds the class of a new object. -/
def bindNew (env : Environment) (ctx : Context) (id : NodeId) (span : Span) (path : QualName) :
    AnalysisM Unit := do
  let result ← onGraph (·.lookupPath ctx.scope path .type)
  match ← accept span s!"type `{path.text}`" result with
  | none => pure ()
  | some target =>
    Hierarchy.resolveType env target
    bind id target
    let g ← currentGraph
    match uninstantiable? (g.symbol target) with
    | some what => report span (.instantiation what (g.symbolPath target))
    | none => pure ()

/-- Visits a member of a named object, which may be a class. -/
def visitNamedMember (env : Environment) (ctx : Context) (id : NodeId) (span : Span)
    (object : NodeId) (objectSpan : Span) (path : QualName) (name : String) : AnalysisM Unit := do
  match ← bindName env ctx object objectSpan path with
  | none => pure ()
  | some target =>
    let symbol ← symbol target
    match symbol.kind with
    | .cls => bindMember target id span name false (staticProblem? name)
    | .trait => report span (.namedMember symbol.text)
    | .iface => report span (.namedMember symbol.text)
    | _ => pure ()

def visitMember (env : Environment) (visit : Walk) (ctx : Context) (id : NodeId) (span : Span)
    (object : NodeId) (name : String) : AnalysisM Unit := do
  let node ← read object
  match node.kind with
  | .this =>
    match ← bindThis ctx object node.span with
    | some cls => bindMember cls id span name false (instanceProblem? name)
    | none => pure ()
  | .selfRef =>
    match ← bindSelf ctx object node.span with
    | some cls => bindMember cls id span name false (staticProblem? name)
    | none => pure ()
  | .super =>
    match ← bindSuper env ctx object node.span with
    | some super => bindMember super id span name true superProblem?
    | none => pure ()
  | .name path => visitNamedMember env ctx id span object node.span path name
  | _ => visit ctx object

/-! ### The walk -/

/-- Visits one node. Members of traits and interfaces are visited when they have been copied. -/
def visitNode (env : Environment) (visit : Walk) : Walk := fun ctx id => do
  let node ← read id
  match node.kind with
  | .unit body => body.forM (visit ctx)
  | .moduleDecl _ body => visitModule env visit ctx node body
  | .useDecl path _ _ => visitUse node path
  | .require path foreign => visitRequire env visit ctx id node.span path foreign
  | .classDecl decl => visitClass env visit ctx node decl.members
  | .traitDecl _ => pure ()
  | .interfaceDecl _ => pure ()
  | .fnDecl decl => visitFunction env visit ctx node decl
  | .fnExpr decl => visitFunction env visit ctx node decl
  | .varDecl _ items => visitVariables env visit ctx (itemSymbols node.note items)
  | .enumDecl _ items => visitEnum env visit ctx 0 (itemSymbols node.note items)
  | .block body =>
    let inside ← moveInto env ctx node.note
    body.forM (visit inside)
  | .forLoop .. =>
    let inside ← moveInto env ctx node.note
    node.kind.children.forM (visit inside)
  | .forIn _ _ iter body =>
    visit ctx iter
    let inside ← moveInto env ctx (← read id).note
    visit inside body
  | .name path => discard (bindName env ctx id node.span path)
  | .assign _ target value => visitAssign visit ctx target value
  | .call callee args => visitCall env visit ctx node.span callee args
  | .new path args =>
    bindNew env ctx id node.span path
    args.forM (visit ctx)
  | .member object name => visitMember env visit ctx id node.span object name
  | .this => discard (bindThis ctx id node.span)
  | .selfRef => discard (bindSelf ctx id node.span)
  | .super => discard (bindSuper env ctx id node.span)
  | .engineConst which => visitEngineConst ctx id node which
  | kind => kind.children.forM (visit ctx)

/-- Visits a subtree that is at most `fuel` deep, copied members included. -/
def visit (env : Environment) : Nat → Walk
  | 0 => fun _ _ => throw .exhausted
  | fuel + 1 => visitNode env (visit env fuel)

/-- Resolves a unit whose declarations are known, nesting at most `fuel` deep. -/
def unitWithin (env : Environment) (fuel : Nat) : AnalysisM Unit := do
  let root := (← get).tree.root
  let node ← read root
  match node.note.scope with
  | none => modifyLog (·.abort node.span "unit was not collected")
  | some scope =>
    enter scope
    resolveTypesIn env scope
    visit env fuel { scope } root
    leave scope node.span

/-- Resolves a unit whose declarations are known. -/
def unit (env : Environment) : AnalysisM Unit := do unitWithin env (← get).budget

end Scoping.Reference
