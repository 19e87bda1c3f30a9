/-!
# TOML documents

A document is a table. Tables remember how they came about, because that decides what may still be
added to them: a table that a longer header or a dotted key has created on the way is *implied*, and
one that dotted keys have created is *dotted*. Numbers, truth values, dates and times are only known
to be well formed: no setting is one.
-/

namespace Scoping

/-- A table over some type of values. -/
structure Toml.Section (α : Type) where
  implied : Bool := false
  dotted : Bool := false
  fields : List (String × α) := []

inductive Toml where
  | str (s : String)
  /-- A number or truth value. -/
  | scalar
  /-- A date, a time of day, or both. -/
  | moment
  | arr (items : List Toml)
  /-- A table written on one line; nothing can be added to it. -/
  | inline (contents : Toml.Section Toml)
  | table (contents : Toml.Section Toml)
  /-- Tables with double-bracket headers. -/
  | tables (items : List (Toml.Section Toml))

namespace Toml

/-- The contents of a table. -/
abbrev Table := Section Toml

namespace Section

variable {α : Type}

def find? (t : Section α) (key : String) : Option α := t.fields.lookup key

/-- Overwrites a field in place, or appends it. -/
def set (t : Section α) (key : String) (value : α) : Section α :=
  { t with
    fields :=
      if (t.find? key).isSome then
        t.fields.map fun entry => if entry.1 = key then (key, value) else entry
      else t.fields ++ [(key, value)] }

end Section

/-- Obeys down along keys, creating implied tables, and changes the table at the end. Dotted keys
must not enter a table that has a header of its own. -/
def descend (dotted : Bool) (change : Table → Option Table) : List String → Table → Option Table
  | [], t => change t
  | key :: rest, t =>
    match t.find? key with
    | none => do
      let below ← descend dotted change rest { implied := true, dotted }
      some (t.set key (.table below))
    | some (.table below) =>
      if dotted && !below.implied then none
      else do
        let below ← descend dotted change rest below
        some (t.set key (.table below))
    | some (.tables items) =>
      match items.reverse with
      | [] => none
      | last :: before => do
        let last ← descend dotted change rest last
        some (t.set key (.tables (last :: before).reverse))
    | some _ => none

/-- Obeys down along dotted keys inside a table written on one line. -/
def descendInline (change : Table → Option Table) : List String → Table → Option Table
  | [], t => change t
  | key :: rest, t =>
    match t.find? key with
    | none => do
      let below ← descendInline change rest { implied := true, dotted := true }
      some (t.set key (.inline below))
    | some (.inline below) =>
      if below.implied then do
        let below ← descendInline change rest below
        some (t.set key (.inline below))
      else none
    | some _ => none

/-- Adds a field to the table that its dotted key leads to. A key is given once, and dotted keys and
headers do not share a table. -/
def addField (qualified : Bool) (key : String) (value : Toml) (t : Table) : Option Table :=
  if t.dotted != qualified || (t.find? key).isSome then none else some (t.set key value)

/-- Adds a field under a dotted key. -/
def insert (t : Table) (path : List String) (key : String) (value : Toml) : Option Table :=
  descend true (addField (!path.isEmpty) key value) path t

/-- Adds a field under a dotted key to a table written on one line. -/
def insertInline (t : Table) (path : List String) (key : String) (value : Toml) : Option Table :=
  descendInline (addField (!path.isEmpty) key value) path t

/-- Opens the table of a header. Only a table implied by a longer header can be opened later. -/
def openTable (t : Table) (path : List String) (key : String) : Option Table :=
  descend false
    (fun t =>
      match t.find? key with
      | none => some (t.set key (.table {}))
      | some (.table below) =>
        if below.implied && !below.dotted then
          some (t.set key (.table { below with implied := false }))
        else none
      | some _ => none)
    path t

/-- Opens one more table of a double-bracket header. -/
def openTables (t : Table) (path : List String) (key : String) : Option Table :=
  descend false
    (fun t =>
      match t.find? key with
      | none => some (t.set key (.tables [{}]))
      | some (.tables items) => some (t.set key (.tables (items ++ [{}])))
      | some _ => none)
    path t

end Toml

end Scoping
