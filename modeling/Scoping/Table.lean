import Scoping.NameMap
import Scoping.Symbol

/-!
# Symbol tables

The table of a scope holds, for each namespace, the symbols declared there in the order of their
declaration.
-/

namespace Scoping

/-- One name map per namespace. -/
structure Table where
  internal : NameMap SymbolId := {}
  value : NameMap SymbolId := {}
  type : NameMap SymbolId := {}
  imported : NameMap SymbolId := {}
deriving DecidableEq, Inhabited

namespace Table

/-- The entries of a namespace. -/
def space (t : Table) : Namespace → NameMap SymbolId
  | .internal => t.internal
  | .value => t.value
  | .type => t.type
  | .imported => t.imported

/-- Changes the entries of a namespace. -/
def update (t : Table) (f : NameMap SymbolId → NameMap SymbolId) : Namespace → Table
  | .internal => { t with internal := f t.internal }
  | .value => { t with value := f t.value }
  | .type => { t with type := f t.type }
  | .imported => { t with imported := f t.imported }

def get? (t : Table) (ns : Namespace) (name : String) : Option SymbolId := (t.space ns).find? name

/-- Declares a name that is free in its namespace, and leaves the table alone otherwise. -/
def insert (t : Table) (ns : Namespace) (name : String) (id : SymbolId) : Table :=
  t.update (·.insertNew name id) ns

/-- Overwrites an entry in place. -/
def replace (t : Table) (ns : Namespace) (name : String) (id : SymbolId) : Table :=
  t.update (·.set name id) ns

def erase (t : Table) (ns : Namespace) (name : String) : Table :=
  t.update (·.erase name) ns

/-- The entry in a namespace, or the first one in any. -/
def find? (t : Table) (name : String) : Option Namespace → Option SymbolId
  | some ns => t.get? ns name
  | none => Namespace.all.findSome? (t.get? · name)

def contains (t : Table) (name : String) (ns : Option Namespace) : Bool := (t.find? name ns).isSome

/-- All symbols of the table, namespace by namespace. -/
def ids (t : Table) : List SymbolId := Namespace.all.flatMap fun ns => (t.space ns).values

def size (t : Table) : Nat := t.ids.length

def isEmpty (t : Table) : Bool := Namespace.all.all fun ns => (t.space ns).isEmpty

end Table

end Scoping
