import Scoping.Table

/-!
# Scopes

A scope has a table of declarations and links to other scopes. Units, modules and member scopes are
*partitioned*: their private declarations are kept in a scope of their own, the private partition,
which is open only while its owner is being walked.
-/

namespace Scoping

inductive ScopeKind where
  /-- The root of the graph. -/
  | global
  /-- One source file. -/
  | unit
  | module
  /-- The members of a class, trait or interface. -/
  | member
  | function
  | block
  /-- The private partition of a unit, module or member scope. -/
  | inner
deriving DecidableEq, Inhabited

namespace ScopeKind

def isPartitioned : ScopeKind → Bool
  | unit => true
  | module => true
  | member => true
  | _ => false

/-- Scopes at which the search for qualified names starts. -/
def isRoot : ScopeKind → Bool
  | global => true
  | unit => true
  | module => true
  | _ => false

def all : List ScopeKind := [global, unit, module, member, function, block, inner]

def word : ScopeKind → String
  | global => "global"
  | unit => "unit"
  | module => "module"
  | member => "member"
  | function => "function"
  | block => "block"
  | inner => "private"

def ofWord? (text : String) : Option ScopeKind := all.find? fun kind => kind.word == text

end ScopeKind

/-- What a member scope has beyond its table. -/
structure MemberInfo where
  /-- The type whose members these are. -/
  host : SymbolId
  /-- The member scope of the superclass. -/
  super : Option ScopeId := none
  ctor : Option SymbolId := none
  dtor : Option SymbolId := none
  getters : NameMap SymbolId := {}
  setters : NameMap SymbolId := {}
  /-- Are the members withheld because the parent constructor is being called? -/
  restricted : Bool := false
deriving DecidableEq, Inhabited

/-- The symbols that are held in slots and not in the table. -/
def MemberInfo.slots (m : MemberInfo) : List SymbolId :=
  m.ctor.toList ++ m.dtor.toList ++ m.getters.values ++ m.setters.values

structure Scope where
  kind : ScopeKind
  /-- The name of a module, or a label. -/
  name : Option String := none
  parent : Option ScopeId := none
  table : Table := {}
  /-- Symbols of enclosing functions that are used from here, in order of first use. -/
  captured : List SymbolId := []
  /-- Searched after the enclosing scopes. -/
  delegate : Option ScopeId := none
  /-- Searches do not leave a sealed scope. -/
  sealed : Bool := false
  /-- How many walks are inside the scope. -/
  active : Nat := 0
  /-- Symbols that a later declaration has replaced. -/
  dropped : List SymbolId := []
  /-- Symbols of other scopes that declarations of this one hide. -/
  shadowed : List SymbolId := []
  /-- The private partition. -/
  inner : Option ScopeId := none
  /-- The owner of a private partition. -/
  outer : Option ScopeId := none
  member : Option MemberInfo := none
  /-- Nested modules. -/
  modules : NameMap ScopeId := {}
deriving DecidableEq, Inhabited

namespace Scope

def isActive (s : Scope) : Bool := 0 < s.active

def isRestricted (s : Scope) : Bool := s.member.any (·.restricted)

def mapMember (s : Scope) (f : MemberInfo → MemberInfo) : Scope :=
  { s with member := s.member.map f }

end Scope

end Scoping
