import Scoping.Tree.Syntax
import Scoping.Value

/-!
# Symbols

A symbol stands for one declaration. It lives in a namespace, which keeps a class and a function of
the same name apart, carries flags, and knows the scope whose table holds it. What is particular
to its kind is in its payload. A symbol that no table holds is *detached*: its scope is `none`.
-/

namespace Scoping

/-- A table holds one symbol per namespace and name. -/
inductive Namespace where
  /-- Entries supplied by the session. -/
  | internal
  /-- Functions and variables. -/
  | value
  /-- Classes, traits and interfaces. -/
  | type
  /-- Imported names. -/
  | imported
deriving DecidableEq, Inhabited

namespace Namespace

/-- The order in which a look-up without namespace tries them. -/
def all : List Namespace := [internal, value, type, imported]

def word : Namespace → String
  | internal => "internal"
  | value => "value"
  | type => "type"
  | imported => "alias"

def ofWord? (text : String) : Option Namespace := all.find? fun ns => ns.word == text

end Namespace

inductive SymbolKind where
  | fn
  | var
  | cls
  | trait
  | iface
  | imported
deriving DecidableEq, Inhabited

namespace SymbolKind

/-- The namespace that symbols of this kind are declared in. -/
def home : SymbolKind → Namespace
  | fn => .value
  | var => .value
  | cls => .type
  | trait => .type
  | iface => .type
  | imported => .imported

/-- The name of the kind in messages. -/
def word : SymbolKind → String
  | fn => "function"
  | var => "variable"
  | cls => "class"
  | trait => "trait"
  | iface => "interface"
  | imported => "import"

def isType : SymbolKind → Bool
  | cls => true
  | trait => true
  | iface => true
  | _ => false

end SymbolKind

/-! ### Payloads -/

/-- A type hint of a parameter. -/
inductive TypeHint where
  | builtin (name : String)
  /-- A declared type, by the text of its path; `target` is filled in by the analysis. -/
  | named (path : String) (target : Option SymbolId)
deriving DecidableEq, Inhabited

namespace TypeHint

/-- Do two hints ask for the same type? Named hints are compared by target where both are known. -/
def sameAs : TypeHint → TypeHint → Bool
  | builtin a, builtin b => a == b
  | named _ (some a), named _ (some b) => a == b
  | named a _, named b _ => a == b
  | _, _ => false

def text : TypeHint → String
  | builtin name => name
  | named path _ => path

/-- The hint of a written one, with no target yet. -/
def ofSyntax : HintSyntax → TypeHint
  | .builtin name => builtin name
  | .named path => named path.text none

end TypeHint

/-- A function, method, closure, constructor, destructor or accessor. -/
structure FunctionData where
  params : List SymbolId := []
  role : Role := .plain
  /-- Declared inside another function. -/
  nested : Bool := false
  isExpr : Bool := false
  hasBody : Bool := false
  /-- The scope of the parameters and of the body. -/
  bodyScope : Option ScopeId := none
deriving DecidableEq, Inhabited

/-- A variable, field, enumeration member or parameter. -/
structure VariableData where
  value : Option Value := none
  hint : Option TypeHint := none
  byRef : Bool := false
  rest : Bool := false
  optional : Bool := false
  /-- A parameter that is stored in the field of the same name. -/
  thisBound : Bool := false
  /-- The initializer or default value. -/
  init : Option NodeId := none
deriving Inhabited

/-- A type referred to by name. -/
structure TypeRef where
  path : QualName
  span : Span
  target : Option SymbolId := none
deriving DecidableEq, Inhabited

/-- One use of a trait; without an item it asks for every member. -/
structure TraitUsage where
  trait : TypeRef
  item : Option String := none
  rename : Option String := none
  /-- Modifiers given to the copied member. -/
  flags : Flags := {}
  span : Span := {}
deriving DecidableEq, Inhabited

/-- The name that a copied member gets. -/
def TraitUsage.destination (u : TraitUsage) : Option String := u.rename <|> u.item

/-- How far the inheritance of a type has been worked out. -/
inductive Resolution where
  | unresolved
  | resolving
  | resolved
deriving DecidableEq, Inhabited

def Resolution.word : Resolution → String
  | unresolved => "unresolved"
  | resolving => "resolving"
  | resolved => "resolved"

structure ClassData where
  super : Option TypeRef := none
  interfaces : List TypeRef := []
  traits : List TraitUsage := []
  members : ScopeId
  resolution : Resolution := .unresolved
deriving DecidableEq, Inhabited

structure TraitData where
  traits : List TraitUsage := []
  members : ScopeId
  resolution : Resolution := .unresolved
deriving DecidableEq, Inhabited

structure InterfaceData where
  interfaces : List TypeRef := []
  members : ScopeId
  resolution : Resolution := .unresolved
deriving DecidableEq, Inhabited

/-- An imported name. -/
structure ImportData where
  path : QualName
  target : Option SymbolId := none
deriving DecidableEq, Inhabited

inductive SymbolData where
  | fn (data : FunctionData)
  | var (data : VariableData)
  | cls (data : ClassData)
  | trait (data : TraitData)
  | iface (data : InterfaceData)
  | imported (data : ImportData)
deriving Inhabited

namespace SymbolData

def kind : SymbolData → SymbolKind
  | fn _ => .fn
  | var _ => .var
  | cls _ => .cls
  | trait _ => .trait
  | iface _ => .iface
  | imported _ => .imported

/-- The member scope of a type. -/
def members? : SymbolData → Option ScopeId
  | cls data => some data.members
  | trait data => some data.members
  | iface data => some data.members
  | _ => none

def resolution? : SymbolData → Option Resolution
  | cls data => some data.resolution
  | trait data => some data.resolution
  | iface data => some data.resolution
  | _ => none

def setMembers (members : ScopeId) : SymbolData → SymbolData
  | cls data => cls { data with members }
  | trait data => trait { data with members }
  | iface data => iface { data with members }
  | data => data

def setResolution (resolution : Resolution) : SymbolData → SymbolData
  | cls data => cls { data with resolution }
  | trait data => trait { data with resolution }
  | iface data => iface { data with resolution }
  | data => data

def mapFn (f : FunctionData → FunctionData) : SymbolData → SymbolData
  | fn data => fn (f data)
  | data => data

def mapVar (f : VariableData → VariableData) : SymbolData → SymbolData
  | var data => var (f data)
  | data => data

def mapClass (f : ClassData → ClassData) : SymbolData → SymbolData
  | cls data => cls (f data)
  | data => data

def mapInterface (f : InterfaceData → InterfaceData) : SymbolData → SymbolData
  | iface data => iface (f data)
  | data => data

def mapImport (f : ImportData → ImportData) : SymbolData → SymbolData
  | imported data => imported (f data)
  | data => data

end SymbolData

/-! ### Symbols -/

structure Symbol where
  name : String
  ns : Namespace
  span : Span
  flags : Flags
  /-- The scope whose table or slots hold the symbol. -/
  scope : Option ScopeId := none
  /-- Has the walk passed the declaration? -/
  reachable : Bool := true
  /-- Is the symbol used from a scope nested in a function inside its own? -/
  captured : Bool := false
  /-- Supplied by the session; can never be declared again. -/
  managed : Bool := false
  /-- The trait member that the symbol was copied from. -/
  origin : Option SymbolId := none
  /-- The node of the declaration. -/
  node : Option NodeId := none
  data : SymbolData
deriving Inhabited

namespace Symbol

/-- A detached symbol in the namespace of its kind. -/
def mkDetached (name : String) (span : Span) (flags : Flags) (data : SymbolData) : Symbol :=
  { name, ns := data.kind.home, span, flags, data }

def kind (s : Symbol) : SymbolKind := s.data.kind

def members? (s : Symbol) : Option ScopeId := s.data.members?

def fn? (s : Symbol) : Option FunctionData :=
  match s.data with
  | .fn data => some data
  | _ => none

def var? (s : Symbol) : Option VariableData :=
  match s.data with
  | .var data => some data
  | _ => none

def class? (s : Symbol) : Option ClassData :=
  match s.data with
  | .cls data => some data
  | _ => none

def imported? (s : Symbol) : Option ImportData :=
  match s.data with
  | .imported data => some data
  | _ => none

def traits (s : Symbol) : List TraitUsage :=
  match s.data with
  | .cls data => data.traits
  | .trait data => data.traits
  | _ => []

/-- A copy that no table holds: uses and session marks of the symbol are not copied. -/
def detached (s : Symbol) : Symbol :=
  { s with scope := none, captured := false, managed := false }

/-- The kind and the name of a symbol, for messages. -/
def text (s : Symbol) : String := s!"{s.kind.word} `{s.name}`"

end Symbol

end Scoping
