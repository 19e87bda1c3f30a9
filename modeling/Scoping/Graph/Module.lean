import Scoping.Graph.Basic

/-!
# Modules

Modules are found by name in the scope that they are nested in, and opened on first use.
-/

namespace Scoping.Graph

/-- The module of the given name inside a scope, created if there is none. -/
def subModule (g : Graph) (parent : ScopeId) (name : String) : ScopeId × Graph :=
  match (g.scope parent).modules.find? name with
  | some existing => (existing, g)
  | none =>
    let (id, g) := g.newScope .module (some parent)
    let g := g.modifyScope id fun s => { s with name := some name }
    (id, g.modifyScope parent fun s => { s with modules := s.modules.set name id })

/-- Obeys down through modules, opening those that are missing. -/
def openModules (g : Graph) (start : ScopeId) (names : List String) : ScopeId × Graph :=
  names.foldl (fun (parent, g) name => g.subModule parent name) (start, g)

/-- The scope of a module block: without a name the unit, otherwise a module below the nearest root
or, for a rooted name, below the unit. -/
def openModule (g : Graph) (scope : ScopeId) (name : Option QualName) : ScopeId × Graph :=
  let unit := (g.unitOf? scope).getD scope
  match name with
  | none => (unit, g)
  | some path => g.openModules (if path.rooted then unit else g.rootOf scope) path.segments

/-- Do the given names lead from a scope through modules that are there? -/
def hasModules (g : Graph) : ScopeId → List String → Bool
  | _, [] => true
  | scope, name :: rest =>
    match (g.scope scope).modules.find? name with
    | some next => g.hasModules next rest
    | none => false

end Scoping.Graph
