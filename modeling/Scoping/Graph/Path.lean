import Scoping.Graph.Search

/-!
# Resolving qualified names

A plain name is searched for outward; if there is none, an imported name of the same spelling is
followed. A qualified name starts at a root scope and goes down through modules. A qualifier that is
no module may be an imported name, whose path then takes its place. Imported names are followed at
most sixteen times in a row.
-/

namespace Scoping.Graph

/-- How many imported names are followed in a row. -/
def maxHops : Nat := 16

/-- The imported name that a root scope shows: a public one, or a private one while the scope is
active. An import never stands for its own target, which is what `skip` excludes. -/
def visibleImport? (g : Graph) (id : ScopeId) (name : String) (skip : Option SymbolId) :
    Option SymbolId :=
  let s := g.scope id
  let inner := if s.isActive then s.inner else none
  let found := s.table.get? .imported name <|>
    inner.bind fun inner => (g.scope inner).table.get? .imported name
  found.filter fun id => some id != skip

/-- Where the modules of a qualified name lead. -/
inductive Descent where
  /-- To an item of a scope. -/
  | item (scope : ScopeId) (name : String)
  /-- To an imported name in the place of a module. -/
  | detour (link : SymbolId) (rest : List String)
  | lost
deriving DecidableEq, Inhabited

/-- Obeys down through modules as far as the segments before the last one lead. -/
def descend (g : Graph) (skip : Option SymbolId) : ScopeId → List String → Descent
  | _, [] => .lost
  | scope, [last] => .item scope last
  | scope, segment :: rest =>
    match (g.scope scope).modules.find? segment with
    | some next => g.descend skip next rest
    | none =>
      match g.visibleImport? scope segment skip with
      | some link => .detour link rest
      | none => .lost

/-- The item of a root scope with the given name, imports aside. -/
def itemIn (g : Graph) (id : ScopeId) (name : String) (ns : Namespace) : Lookup :=
  let s := g.scope id
  match s.table.get? ns name with
  | some found => .found found
  | none =>
    match s.inner.bind fun inner => (g.scope inner).table.get? ns name with
    | some found => if s.isActive then .found found else .hidden found
    | none =>
      match if ns = .value then s.table.get? .internal name else none with
      | some found => .found found
      | none => .notFound

/-- Follows an imported name with the given way of resolving paths: its path is tried in its own
unit first and in the global scope second. -/
def followWith (g : Graph) (resolve : ScopeId → List String → Lookup) (link : SymbolId) : Lookup :=
  let symbol := g.symbol link
  match symbol.imported? with
  | none => .notFound
  | some data =>
    let home := (symbol.scope.bind g.unitOf?).getD global
    (resolve home data.path.segments).orElse fun _ =>
      if home = global then .notFound else resolve global data.path.segments

/-- Resolves a path from a root scope, following fewer than `fuel` imported names in a row. -/
def resolveFrom (g : Graph) (ns : Namespace) :
    Nat → Option SymbolId → ScopeId → List String → Lookup
  | 0, _, _, _ => .failed
  | fuel + 1, skip, root, segments =>
    match g.descend skip root segments with
    | .lost => .notFound
    | .detour link rest =>
      match (g.symbol link).imported? with
      | none => .notFound
      | some data => g.resolveFrom ns fuel (some link) root (data.path.segments ++ rest)
    | .item scope name =>
      (g.itemIn scope name ns).orElse fun _ =>
        match g.visibleImport? scope name skip with
        | none => .notFound
        | some link =>
          if fuel = 0 then .failed
          else g.followWith (g.resolveFrom ns fuel (some link)) link

/-- What an imported name stands for, after `hops` others have been followed. -/
def followImport (g : Graph) (link : SymbolId) (ns : Namespace) (hops : Nat) : Lookup :=
  if maxHops < hops then .failed
  else g.followWith (g.resolveFrom ns (maxHops + 1 - hops) (some link)) link

/-- The root scope around a scope, the one around that, and so on. -/
def rootsWithin (g : Graph) : Nat → ScopeId → List ScopeId
  | 0, _ => []
  | fuel + 1, id =>
    let root := g.rootOf id
    root :: match (g.scope root).parent with
      | some parent => g.rootsWithin fuel parent
      | none => []

/-- The root scopes that a qualified name may start from, innermost first; rooted names start at the
unit. The global scope always comes last. -/
def pathRoots (g : Graph) (start : ScopeId) (rooted : Bool) : List ScopeId :=
  let roots :=
    if rooted then (g.unitOf? start).toList else g.rootsWithin (g.scopes.size + 1) start
  if global ∈ roots then roots else roots ++ [global]

/-- The first root at which a path resolves to anything. -/
def resolveFirst (g : Graph) (ns : Namespace) (segments : List String) : List ScopeId → Lookup
  | [] => .notFound
  | root :: rest =>
    (g.resolveFrom ns (maxHops + 1) none root segments).orElse fun _ =>
      g.resolveFirst ns segments rest

/-- Resolves a plain name: as it is, among the session's own entries for values, and as an
import. -/
def lookupSingle (g : Graph) (start : ScopeId) (name : String) (ns : Namespace) : Lookup × Graph :=
  let direct := g.lookup start name (some ns)
  match direct.1 with
  | .notFound =>
    let builtin := if ns = .value then g.lookup start name (some .internal) else direct
    match builtin.1 with
    | .notFound =>
      let viaImport := g.lookup start name (some .imported)
      match viaImport.1 with
      | .found link => (viaImport.2.followImport link ns 1, viaImport.2)
      | _ => viaImport
    | _ => builtin
  | _ => direct

/-- Resolves a name as seen from a scope, and notes its use if it is a plain name. -/
def lookupPath (g : Graph) (start : ScopeId) (path : QualName) (ns : Namespace) : Lookup × Graph :=
  if path.segments.isEmpty then (.notFound, g)
  else if path.isSingle then g.lookupSingle start path.last ns
  else (g.resolveFirst ns path.segments (g.pathRoots start path.rooted), g)

end Scoping.Graph
