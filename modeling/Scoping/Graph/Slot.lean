import Scoping.Graph.Declare

/-!
# Slots of a member scope

Constructors, destructors and accessors are not in the table of their type but in slots. A type has
one constructor and one destructor, the last one declared; of getters and setters it has one for
each name, the first one declared.
-/

namespace Scoping

namespace MemberInfo

/-- The symbol in the slot for a role and a name. -/
def slot? (info : MemberInfo) (role : Role) (name : String) : Option SymbolId :=
  match role with
  | .plain => none
  | .constructor => info.ctor
  | .destructor => info.dtor
  | .getter => info.getters.find? name
  | .setter => info.setters.find? name

/-- Puts a symbol into the slot for a role and a name. -/
def putSlot (info : MemberInfo) (role : Role) (name : String) (symbol : SymbolId) : MemberInfo :=
  match role with
  | .plain => info
  | .constructor => { info with ctor := some symbol }
  | .destructor => { info with dtor := some symbol }
  | .getter => { info with getters := info.getters.set name symbol }
  | .setter => { info with setters := info.setters.set name symbol }

end MemberInfo

/-- What became of a symbol that was declared for a slot. -/
inductive SlotOutcome where
  | filled
  /-- An earlier constructor or destructor was dropped. -/
  | replaced (old : SymbolId)
  /-- There is an accessor of this name already. -/
  | taken (existing : SymbolId)
  /-- The scope has no slots. -/
  | unavailable
deriving DecidableEq, Inhabited

namespace Graph

/-- Puts a symbol into a slot, whatever is in there. -/
def putSlot (g : Graph) (scope : ScopeId) (role : Role) (symbol : SymbolId) : Graph :=
  let name := (g.symbol symbol).name
  (g.modifyMember scope (·.putSlot role name symbol)).modifySymbol symbol fun s =>
    { s with scope := some scope }

/-- Detaches a symbol that another one has replaced. -/
def drop (g : Graph) (scope : ScopeId) (symbol : SymbolId) : Graph :=
  (g.modifySymbol symbol fun s => { s with scope := none, reachable := false }).modifyScope scope
    fun s => { s with dropped := s.dropped ++ [symbol] }

/-- Does a second symbol for the same slot take the place of the first? -/
def isReplaceable : Role → Bool
  | .constructor => true
  | .destructor => true
  | _ => false

/-- Declares a symbol for a slot. -/
def declareSlot (g : Graph) (scope : ScopeId) (role : Role) (symbol : SymbolId) :
    SlotOutcome × Graph :=
  let g := g.modifySymbol symbol fun s => { s with flags := g.effectiveFlags scope s.flags }
  match g.memberInfo? scope with
  | none => (.unavailable, g)
  | some info =>
    match info.slot? role (g.symbol symbol).name with
    | none => (.filled, g.putSlot scope role symbol)
    | some old =>
      if isReplaceable role then (.replaced old, (g.putSlot scope role symbol).drop scope old)
      else (.taken old, g)

end Graph

end Scoping
