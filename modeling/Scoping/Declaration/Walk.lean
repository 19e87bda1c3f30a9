import Scoping.Declaration.Rejection
import Scoping.Declaration.Symbols
import Scoping.Graph.Module

/-!
# Declaring the contents of a unit

The first walk over a tree opens the scopes of the unit and declares everything that it declares. No
name is looked up. Bodies of trait and interface members are not entered: a copy of such a member in
a class is walked by `Declaration.copiedFunction`.

Each step is a function of the walk itself, so that it can be reasoned about on its own; `visit`
ties the knot for trees up to a given depth.
-/

namespace Scoping.Declaration

open Analysis

/-- Where the walk is. -/
structure Context where
  scope : ScopeId
  /-- The type whose members are being declared. -/
  host : Option SymbolId := none
  /-- How many functions enclose this place. -/
  depth : Nat := 0
deriving DecidableEq, Inhabited

/-- A walk over a subtree. -/
abbrev Walk := Context → NodeId → AnalysisM Unit

def Context.hostKind (ctx : Context) (g : Graph) : Option SymbolKind :=
  ctx.host.map fun host => (g.symbol host).kind

def Context.isMember (ctx : Context) (g : Graph) : Bool := (g.scope ctx.scope).kind == .member

/-- Opens a block scope for a node. -/
def openBlock (ctx : Context) (id : NodeId) : AnalysisM Context := do
  let scope ← onGraph (·.newScope .block (some ctx.scope))
  setScope id scope
  return { ctx with scope }

/-! ### Modules, imports and types -/

def visitModule (visit : Walk) (ctx : Context) (id : NodeId) (name : Option QualName)
    (body : List NodeId) : AnalysisM Unit := do
  let scope ← onGraph (·.openModule ctx.scope name)
  setScope id scope
  body.forM (visit { ctx with scope })

def visitUse (ctx : Context) (id : NodeId) (span : Span) (path : QualName) (rename : Option String)
    (isPublic : Bool) : AnalysisM Unit := do
  let symbol := Symbol.declaredBy id (rename.getD path.last) span { isPublic } (.imported { path })
  let symbol ← onGraph (·.alloc symbol)
  bind id symbol
  discard (declare ctx.scope symbol)

/-- Declares a type and then its members. -/
def visitType (visit : Walk) (ctx : Context) (id : NodeId) (symbol : Symbol)
    (members : List NodeId) : AnalysisM Unit := do
  let (host, scope) ← onGraph (·.allocType ctx.scope symbol)
  annotate id fun note => { note with symbol := some host, scope := some scope }
  discard (declare ctx.scope host)
  members.forM (visit { scope, host := some host })

/-! ### Functions -/

/-- Declares the parameters of a function in its scope, then visits the default values and the body.
A body that is a block shares the scope. -/
def visitBody (visit : Walk) (ctx : Context) (function : SymbolId) (decl : FnDecl)
    (scope : ScopeId) : AnalysisM Unit := do
  let inside : Context := { scope, depth := ctx.depth + 1 }
  let params := (← currentGraph).paramsOf function
  params.forM fun param => discard (declare scope param)
  (decl.params.filterMap Param.default).forM (visit inside)
  match decl.body with
  | none => pure ()
  | some body =>
    match (← read body).kind with
    | .block statements =>
      setScope body scope
      statements.forM (visit inside)
    | _ => visit inside body

/-- Opens the scope of a function. -/
def openFunction (id : NodeId) (function : SymbolId) (parent : ScopeId)
    (delegate : Option ScopeId) : AnalysisM ScopeId := do
  let scope ← onGraph (·.newScope .function (some parent))
  modifyGraph (·.modifyScope scope fun s => { s with delegate })
  setScope id scope
  modifyGraph (·.modifyData function (·.mapFn fun f => { f with bodyScope := some scope }))
  return scope

/-- Declares a constructor, destructor or accessor. -/
def declareSlot (scope : ScopeId) (role : Role) (symbol : SymbolId) : AnalysisM Unit := do
  let outcome ← onGraph (·.declareSlot scope role symbol)
  let g ← currentGraph
  let span := (g.symbol symbol).span
  match outcome with
  | .filled => pure ()
  | .unavailable => pure ()
  | .replaced _ => warn span s!"duplicate {role.word}; this one replaces the first"
  | .taken existing =>
    report span (.duplicateAccessor role (g.symbol symbol).name (g.symbol existing).span)

/-- Enters the symbol of a function where its role belongs. -/
def declareFunction (ctx : Context) (place : FnPlace) (role : Role) (span : Span)
    (function : SymbolId) : AnalysisM Unit := do
  if place.isExpr then pure ()
  else if role = .plain then discard (declare ctx.scope function)
  else if place.isMember then declareSlot ctx.scope role function
  else
    report span .misplacedRole
    discard (declare ctx.scope function)

def visitFunction (visit : Walk) (ctx : Context) (id : NodeId) (span : Span) (decl : FnDecl)
    (isExpr : Bool) : AnalysisM Unit := do
  let g ← currentGraph
  let isMember := ctx.isMember g && !isExpr
  let place : FnPlace :=
    { isMember
      isExpr
      hostKind := if isMember then ctx.hostKind g else none
      nested := 0 < ctx.depth }
  let function ← onGraph (·.alloc (decl.symbol place id span))
  bind id function
  declareFunction ctx place decl.role span function
  let params ← onGraph (·.allocAll (decl.params.map fun param => param.symbol span))
  modifyGraph (·.modifyData function (·.mapFn fun f => { f with params }))
  if decl.body.isNone || place.isDeferred then pure ()
  else
    let scope ← openFunction id function ctx.scope none
    visitBody visit ctx function decl scope

/-- Gives the parameters of a copied function the default values of its own declaration. -/
def copyDefaults (g : Graph) (function : SymbolId) (params : List Param) : Graph :=
  ((g.paramsOf function).zip params).foldl
    (fun g (symbol, param) =>
      g.modifyData symbol (·.mapVar fun v => { v with init := param.default }))
    g

/-! ### Variables -/

/-- The flags of a variable declaration. -/
def variableFlags (ctx : Context) (g : Graph) (mods : List Modifier) (isEnum : Bool) : Flags :=
  let flags := Modifier.flags mods
  let flags := if isEnum then { flags with isConst := true } else flags
  if ctx.isMember g && ctx.hostKind g = some .iface then flags.publicByDefault else flags

/-- Declares variables or the members of an enumeration. Their symbols have consecutive ids, the
first of which the node keeps. -/
def visitVariables (visit : Walk) (ctx : Context) (id : NodeId) (span : Span)
    (mods : List Modifier) (items : List VarItem) (isEnum : Bool) : AnalysisM Unit := do
  let g ← currentGraph
  let flags := variableFlags ctx g mods isEnum
  let declared := items.map fun item => item.symbol id span flags (ctx.isMember g)
  let symbols ← onGraph (·.allocAll declared)
  annotate id fun note => { note with symbol := symbols.head? }
  symbols.forM fun symbol => discard (declare ctx.scope symbol)
  (items.filterMap VarItem.init).forM (visit ctx)

/-- Declares the variable of a loop. -/
def declareIdent (ctx : Context) (span : Span) (ident : Ident) : AnalysisM Unit := do
  let symbol ← onGraph (·.alloc (ident.symbol span))
  discard (declare ctx.scope symbol)

/-! ### The walk -/

/-- Visits one node. -/
def visitNode (visit : Walk) : Walk := fun ctx id => do
  let node ← read id
  match node.kind with
  | .unit body =>
    setScope id ctx.scope
    body.forM (visit ctx)
  | .moduleDecl name body => visitModule visit ctx id name body
  | .useDecl path rename isPublic => visitUse ctx id node.span path rename isPublic
  | .classDecl decl => visitType visit ctx id (decl.symbol id node.span ctx.scope) decl.members
  | .traitDecl decl => visitType visit ctx id (decl.symbol id node.span ctx.scope) decl.members
  | .interfaceDecl decl => visitType visit ctx id (decl.symbol id node.span ctx.scope) decl.members
  | .fnDecl decl => visitFunction visit ctx id node.span decl false
  | .fnExpr decl => visitFunction visit ctx id node.span decl true
  | .varDecl mods items => visitVariables visit ctx id node.span mods items false
  | .enumDecl mods items => visitVariables visit ctx id node.span mods items true
  | .block body =>
    let inside ← openBlock ctx id
    body.forM (visit inside)
  | .forLoop .. =>
    let inside ← openBlock ctx id
    node.kind.children.forM (visit inside)
  | .forIn key value iter body =>
    visit ctx iter
    let inside ← openBlock ctx id
    (key.toList ++ [value]).forM (declareIdent inside node.span)
    visit inside body
  | kind => kind.children.forM (visit ctx)

/-- Visits a subtree that is at most `fuel` deep. -/
def visit : Nat → Walk
  | 0 => fun _ _ => throw .exhausted
  | fuel + 1 => visitNode (visit fuel)

/-- Visits a subtree. A tree without cycles is no deeper than it is large. -/
def walk : Walk := fun ctx id => do visit (← get).depth ctx id

/-- Opens the scope of the unit and declares everything in it. -/
def unit : AnalysisM ScopeId := do
  let tree := (← get).tree
  let scope ← onGraph (·.newScope .unit (some Graph.global))
  modifyGraph (·.modifyScope scope fun s => { s with name := some tree.file })
  walk { scope } tree.root
  return scope

/-- Walks the body of a function that was copied from a trait into the type with the member scope
`parent`. Names that only the trait knows are found through `delegate`. -/
def copiedFunction (function : SymbolId) (id : NodeId) (parent : ScopeId)
    (delegate : Option ScopeId) : AnalysisM Unit := do
  match (← read id).kind with
  | .fnDecl decl =>
    bind id function
    if decl.body.isSome then
      let scope ← openFunction id function parent delegate
      modifyGraph (copyDefaults · function decl.params)
      visitBody walk { scope := parent } function decl scope
  | _ => pure ()

end Scoping.Declaration
