import Scoping.Graph.Basic

/-!
# Declaring symbols

A new symbol is compared with the first symbol of its name along the *reach* of the target scope:
the scope itself, its superclasses, and then the enclosing scopes in the same way. `Graph.decide`
says what declaring the symbol would do and changes nothing; `Graph.declare` does it and keeps the
scope of every symbol in step with the table that holds it.
-/

namespace Scoping

/-- Why a declaration is refused. -/
inductive RejectReason where
  /-- The name belongs to the session. -/
  | managed
  /-- A forward declaration is completed by a symbol of another kind. -/
  | kindMismatch
  /-- A forward declaration is completed with other modifiers. -/
  | flagMismatch
  | final
  | const
  | duplicate
deriving DecidableEq, Inhabited

/-- What declaring a symbol does. -/
inductive Decision where
  | reject (reason : RejectReason) (existing : SymbolId)
  /-- A forward declaration is repeated; the first one stays. -/
  | keep (existing : SymbolId)
  /-- The symbol is new in its scope and may hide one further out. -/
  | add (shadows : Option SymbolId)
  /-- The symbol completes a forward declaration and takes its place. -/
  | replace (existing : SymbolId)
deriving DecidableEq, Inhabited

/-- Does the new symbol end up in a table? -/
def Decision.isLive : Decision → Bool
  | add _ => true
  | replace _ => true
  | _ => false

namespace Graph

/-- Flags after the default rule: a symbol is private unless it says otherwise, and only members can
be protected. -/
def effectiveFlags (g : Graph) (scope : ScopeId) (flags : Flags) : Flags :=
  let inMember := (g.scope (g.owner scope)).kind == .member
  let flags := if inMember then flags else { flags with isProtected := false }
  if flags.hasVisibility then flags else { flags with isPrivate := true }

/-! ### The reach of a scope -/

/-- A scope and its private partition. -/
def withInner (g : Graph) (id : ScopeId) : List ScopeId := id :: (g.scope id).inner.toList

/-- Adds the superclasses from `next` on to a reach, up to the first that is already there. -/
def reachSupers (g : Graph) : Nat → List ScopeId → Option ScopeId → List ScopeId
  | 0, seen, _ => seen
  | _ + 1, seen, none => seen
  | fuel + 1, seen, some id =>
    if id ∈ seen then seen else g.reachSupers fuel (seen ++ g.withInner id) (g.superScope? id)

/-- Adds the scopes from `next` outward to a reach, each with its superclasses. -/
def reachWithin (g : Graph) : Nat → List ScopeId → Option ScopeId → List ScopeId
  | 0, seen, _ => seen
  | _ + 1, seen, none => seen
  | fuel + 1, seen, some id =>
    if id ∈ seen then seen
    else
      let seen := g.reachSupers g.scopes.size (seen ++ g.withInner id) (g.superScope? id)
      g.reachWithin fuel seen (g.outward? id)

/-- The scopes in which an earlier symbol of the same name counts, nearest first. Each round adds a
scope, so there are no more rounds than scopes. -/
def reach (g : Graph) (target : ScopeId) : List ScopeId :=
  g.reachWithin g.scopes.size [] (some (g.owner target))

/-- The symbol of the session that a scope holds under a name, in any namespace. -/
def managedIn? (g : Graph) (symbol : SymbolId) (name : String) (scope : ScopeId) :
    Option SymbolId :=
  (Namespace.all.filterMap fun ns => (g.scope scope).table.get? ns name).find? fun id =>
    id != symbol && (g.symbol id).managed

/-- The first symbol along a reach with the given namespace and name. -/
def occupant? (g : Graph) (reach : List ScopeId) (ns : Namespace) (name : String) :
    Option SymbolId :=
  reach.findSome? fun scope => (g.scope scope).table.get? ns name

/-! ### Decisions -/

/-- The decision against an earlier symbol of the same namespace and name. -/
def decideAgainst (g : Graph) (target : ScopeId) (new : Symbol) (flags : Flags)
    (existing : SymbolId) : Decision :=
  let old := g.symbol existing
  if old.flags.isIncomplete then
    if old.kind ≠ new.kind then .reject .kindMismatch existing
    else if flags.isIncomplete then .keep existing
    else if { old.flags with isIncomplete := false } = flags then .replace existing
    else .reject .flagMismatch existing
  else if old.flags.isFinal then .reject .final existing
  else if old.scope.map g.owner = some target then
    if old.flags.isConst then .reject .const existing else .reject .duplicate existing
  else .add (some existing)

/-- What declaring `symbol` in `target` would do. -/
def decide (g : Graph) (target : ScopeId) (symbol : SymbolId) : Decision :=
  let target := g.owner target
  let new := g.symbol symbol
  let flags := g.effectiveFlags target new.flags
  let reach := g.reach target
  match reach.findSome? (g.managedIn? symbol new.name) with
  | some existing => .reject .managed existing
  | none =>
    match (g.occupant? reach new.ns new.name).filter (· != symbol) with
    | none => .add none
    | some existing => g.decideAgainst target new flags existing

/-! ### Carrying a decision out -/

/-- Where a scope keeps a symbol with the given flags: private symbols go to the partition. -/
def placeFor (g : Graph) (target : ScopeId) (flags : Flags) : ScopeId :=
  match (g.scope target).inner with
  | some inner => if flags.isPrivate then inner else target
  | none => target

/-- Enters a symbol into the table of a scope. -/
def place (g : Graph) (place : ScopeId) (symbol : SymbolId) : Graph :=
  let new := g.symbol symbol
  let g := g.modifyScope place fun s => { s with table := s.table.insert new.ns new.name symbol }
  g.modifySymbol symbol fun s => { s with scope := some place }

/-- Puts a symbol in the place of the forward declaration that it completes. -/
def complete (g : Graph) (symbol old : SymbolId) : Graph :=
  let new := g.symbol symbol
  let g := match (g.symbol old).scope with
    | none => g
    | some place =>
      let g := g.modifyScope place fun s =>
        { s with table := s.table.replace new.ns new.name symbol }
      let g := g.modifySymbol symbol fun s => { s with scope := some place }
      g.modifyScope (g.owner place) fun s => { s with dropped := s.dropped ++ [old] }
  g.modifySymbol old fun s => { s with scope := none, reachable := false }

/-- Carries out a decision about a symbol. -/
def apply (g : Graph) (target : ScopeId) (symbol : SymbolId) : Decision → Graph
  | .add shadows =>
    let g := g.place (g.placeFor target (g.symbol symbol).flags) symbol
    match shadows with
    | some old => g.modifyScope target fun s => { s with shadowed := s.shadowed ++ [old] }
    | none => g
  | .replace old => g.complete symbol old
  | .keep _ => g
  | .reject _ _ => g

/-- Declares a symbol in a scope. -/
def declare (g : Graph) (target : ScopeId) (symbol : SymbolId) : Decision × Graph :=
  let target := g.owner target
  let flags := g.effectiveFlags target (g.symbol symbol).flags
  let g := g.modifySymbol symbol fun s => { s with flags }
  let decision := g.decide target symbol
  (decision, g.apply target symbol decision)

/-- Declares a symbol on behalf of the session: no later declaration can take its name. -/
def declareManaged (g : Graph) (target : ScopeId) (symbol : SymbolId) (ns : Namespace) :
    Decision × Graph :=
  let g := g.modifySymbol symbol fun s =>
    { s with
      managed := true
      ns
      flags := if s.flags.hasVisibility then s.flags else { s.flags with isPublic := true } }
  g.declare target symbol

end Graph

end Scoping
