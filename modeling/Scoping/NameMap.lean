/-!
# Insertion-ordered name maps

A `NameMap` binds names to values and remembers the order in which the names were first bound.
Overwriting keeps the position of a name, erasing closes the gap. The look-up `find?` and the list
of `entries` are the two views through which every operation is described.
-/

namespace Scoping

/-- Bindings of names, in the order in which the names were first bound. -/
structure NameMap (α : Type) where
  entries : List (String × α) := []
deriving DecidableEq, Inhabited

namespace NameMap

variable {α : Type}

def empty : NameMap α := ⟨[]⟩

/-- The value bound to a name. -/
def find? (m : NameMap α) (name : String) : Option α := m.entries.lookup name

def contains (m : NameMap α) (name : String) : Bool := (m.find? name).isSome

def keys (m : NameMap α) : List String := m.entries.map Prod.fst

def values (m : NameMap α) : List α := m.entries.map Prod.snd

def size (m : NameMap α) : Nat := m.entries.length

def isEmpty (m : NameMap α) : Bool := m.entries.isEmpty

/-- Overwrites the first binding of `name` in place, or appends one. -/
def setEntry (name : String) (value : α) : List (String × α) → List (String × α)
  | [] => [(name, value)]
  | entry :: rest =>
    if entry.1 = name then (name, value) :: rest else entry :: setEntry name value rest

/-- Binds a name. A name that is already bound keeps its position. -/
def set (m : NameMap α) (name : String) (value : α) : NameMap α :=
  ⟨setEntry name value m.entries⟩

/-- Binds a name that is free, and leaves the map alone otherwise. -/
def insertNew (m : NameMap α) (name : String) (value : α) : NameMap α :=
  if m.contains name then m else ⟨m.entries ++ [(name, value)]⟩

/-- Removes a binding; later bindings move up. -/
def erase (m : NameMap α) (name : String) : NameMap α :=
  ⟨m.entries.filter fun entry => entry.1 ≠ name⟩

/-! ### The two views -/

@[simp]
theorem find?_empty (name : String) : (empty : NameMap α).find? name = none := rfl

theorem find?_insertNew_self (m : NameMap α) {name : String} (value : α)
    (free : m.find? name = none) : (m.insertNew name value).find? name = some value := by
  have absent : m.entries.lookup name = none := free
  simp [insertNew, contains, find?, absent, List.lookup_append]

theorem insertNew_of_contains (m : NameMap α) {name : String} (value : α)
    (taken : m.contains name = true) : m.insertNew name value = m := by
  simp [insertNew, taken]

end NameMap

end Scoping
