import Scoping.Scope

/-!
# The scope graph

All scopes and symbols of a session live in two arenas. Ids are handed out in order; the scope with
id `0` is the global scope. The graph is read through `Graph.scope` and `Graph.symbol`, which answer
with an inert blank for an id that was never handed out, and changed through `Graph.modifyScope` and
`Graph.modifySymbol`, which leave such an id alone.
-/

namespace Scoping

structure Graph where
  scopes : Array Scope := #[]
  symbols : Array Symbol := #[]
deriving Inhabited

/-- A scope without declarations and links. -/
def Scope.blank : Scope := { kind := .block }

/-- A detached symbol without a name. -/
def Symbol.blank : Symbol := Symbol.mkDetached "" {} {} (.var {})

namespace Graph

/-- The id of the global scope. -/
def global : ScopeId := ⟨0⟩

/-- The graph of a new session: one global scope, which is always active. -/
def initial : Graph := { scopes := #[{ kind := .global, active := 1 }] }

def scope (g : Graph) (id : ScopeId) : Scope := g.scopes.getD id.index .blank

def symbol (g : Graph) (id : SymbolId) : Symbol := g.symbols.getD id.index .blank

def modifyScope (g : Graph) (id : ScopeId) (f : Scope → Scope) : Graph :=
  { g with scopes := g.scopes.modify id.index f }

def modifySymbol (g : Graph) (id : SymbolId) (f : Symbol → Symbol) : Graph :=
  { g with symbols := g.symbols.modify id.index f }

/-- Changes the payload of a symbol. -/
def modifyData (g : Graph) (id : SymbolId) (f : SymbolData → SymbolData) : Graph :=
  g.modifySymbol id fun s => { s with data := f s.data }

/-- Changes the extras of a member scope. -/
def modifyMember (g : Graph) (id : ScopeId) (f : MemberInfo → MemberInfo) : Graph :=
  g.modifyScope id (·.mapMember f)

/-! ### Growth -/

def pushScope (g : Graph) (s : Scope) : ScopeId × Graph :=
  (⟨g.scopes.size⟩, { g with scopes := g.scopes.push s })

/-- Creates a scope, together with its private partition if it is to have one. -/
def newScope (g : Graph) (kind : ScopeKind) (parent : Option ScopeId) : ScopeId × Graph :=
  let id : ScopeId := ⟨g.scopes.size⟩
  if kind.isPartitioned then
    let inner : ScopeId := ⟨g.scopes.size + 1⟩
    let g := (g.pushScope { kind, parent, inner := some inner }).2
    let g := (g.pushScope { kind := .inner, parent := some id, sealed := true, outer := some id }).2
    (id, g)
  else g.pushScope { kind, parent }

/-- Creates the scope for the members of a type. -/
def newMemberScope (g : Graph) (host : SymbolId) (parent : ScopeId) : ScopeId × Graph :=
  let (id, g) := g.newScope .member (some parent)
  (id, g.modifyScope id fun s => { s with member := some { host } })

/-- Takes a symbol into the arena. -/
def alloc (g : Graph) (s : Symbol) : SymbolId × Graph :=
  (⟨g.symbols.size⟩, { g with symbols := g.symbols.push s })

/-! ### Enclosing scopes -/

/-- The owner of a private partition, and any other scope itself. -/
def owner (g : Graph) (id : ScopeId) : ScopeId := (g.scope id).outer.getD id

/-- Is the scope, or the owner of the partition, a global, unit or module scope? -/
def isRoot (g : Graph) (id : ScopeId) : Bool := (g.scope (g.owner id)).kind.isRoot

def memberInfo? (g : Graph) (id : ScopeId) : Option MemberInfo := (g.scope id).member

/-- The member scope of the superclass. -/
def superScope? (g : Graph) (id : ScopeId) : Option ScopeId := (g.memberInfo? id).bind (·.super)

/-- The owner of the parent of a scope. -/
def outward? (g : Graph) (id : ScopeId) : Option ScopeId := (g.scope id).parent.map g.owner

/-- At most `fuel` scopes outward from `id`. -/
def enclosingWithin (g : Graph) : Nat → ScopeId → List ScopeId
  | 0, _ => []
  | fuel + 1, id =>
    id :: match g.outward? id with
      | some next => g.enclosingWithin fuel next
      | none => []

/-- The scope, as partition owner, and those that enclose it, from the inside out. A chain without
repetition is no longer than the arena. -/
def enclosing (g : Graph) (id : ScopeId) : List ScopeId :=
  g.enclosingWithin g.scopes.size (g.owner id)

/-- The nearest enclosing global, unit or module scope; without one, the outermost scope. -/
def rootOf (g : Graph) (id : ScopeId) : ScopeId :=
  let chain := g.enclosing id
  match chain.find? g.isRoot with
  | some root => root
  | none => chain.getLast?.getD (g.owner id)

/-- The nearest enclosing unit. -/
def unitOf? (g : Graph) (id : ScopeId) : Option ScopeId :=
  (g.enclosing id).find? fun s => (g.scope s).kind == .unit

/-- The names of the enclosing modules, from the outside in. -/
def moduleNames (g : Graph) (id : ScopeId) : List String :=
  ((g.enclosing id).filterMap fun s =>
    if (g.scope s).kind == .module then (g.scope s).name else none).reverse

/-- `a::b` for a module, empty for units and the global scope. -/
def modulePath (g : Graph) (id : ScopeId) : String := String.intercalate "::" (g.moduleNames id)

/-- Does `ancestor` lie on the parent chain that starts with `start`? At most `fuel` scopes are
tried. -/
def isAncestorWithin (g : Graph) (ancestor : ScopeId) : Nat → Option ScopeId → Bool
  | 0, _ => false
  | _ + 1, none => false
  | fuel + 1, some id => id == ancestor || g.isAncestorWithin ancestor fuel (g.scope id).parent

/-- How many links a search follows in a row before it gives up. -/
def maxDepth : Nat := 4096

/-- Is `ancestor` on the parent chain above `id`? -/
def isAncestor (g : Graph) (ancestor id : ScopeId) : Bool :=
  g.isAncestorWithin ancestor (maxDepth + 1) (g.scope id).parent

/-! ### Activity -/

def isActive (g : Graph) (id : ScopeId) : Bool := (g.scope id).isActive

/-- Notes that a walk enters the scope. -/
def enter (g : Graph) (id : ScopeId) : Graph :=
  g.modifyScope id fun s => { s with active := s.active + 1 }

/-- Notes that a walk leaves the scope; `none` if no walk is inside. -/
def leave? (g : Graph) (id : ScopeId) : Option Graph :=
  if g.isActive id then some (g.modifyScope id fun s => { s with active := s.active - 1 })
  else none

/-- The complaint about a scope that is left without having been entered. -/
def underflowMessage (id : ScopeId) : String := s!"scope stack underflow leaving {id.text}"

/-! ### Members -/

def membersOf? (g : Graph) (host : SymbolId) : Option ScopeId := (g.symbol host).members?

/-- The symbols in the table of a member scope and in its private partition. -/
def memberIds (g : Graph) (host : SymbolId) : List SymbolId :=
  match g.membersOf? host with
  | none => []
  | some members =>
    (g.scope members).table.ids ++
      match (g.scope members).inner with
      | some inner => (g.scope inner).table.ids
      | none => []

def isClass (g : Graph) (id : SymbolId) : Bool := (g.symbol id).kind == .cls

end Graph

end Scoping
