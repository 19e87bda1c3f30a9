import Scoping.Graph.Basic

/-!
# Searching for names

The search for a plain name looks at a scope, at its private partition, at accessor slots and
superclasses if it is a member scope, then at the scope around it and last at its delegate. The
private partition is open only while its scope is being walked. `Graph.peek` is the search,
`Graph.lookup` also notes on every scope between use and declaration that a local symbol of an
enclosing function is used there.
-/

namespace Scoping

/-- The answer to a search. -/
inductive Lookup where
  | found (id : SymbolId)
  | notFound
  /-- There is such a symbol, but it is private to another scope. -/
  | hidden (id : SymbolId)
  /-- There is such a member, but members are withheld at the moment. -/
  | restricted (id : SymbolId)
  /-- The search was too long. -/
  | failed
deriving DecidableEq, Inhabited

namespace Lookup

def found? : Lookup → Option SymbolId
  | found id => some id
  | _ => none

/-- The symbol that was reached, visible or not. -/
def symbol? : Lookup → Option SymbolId
  | found id => some id
  | hidden id => some id
  | restricted id => some id
  | _ => none

/-- The first answer, unless nothing was found. -/
def orElse (first : Lookup) (second : Unit → Lookup) : Lookup :=
  match first with
  | notFound => second ()
  | _ => first

end Lookup

namespace Graph

/-- The symbol in the table of a scope or in its private partition. -/
def lookupHere? (g : Graph) (id : ScopeId) (name : String) (ns : Option Namespace) :
    Option SymbolId :=
  (g.scope id).table.find? name ns <|>
    (g.scope id).inner.bind fun inner => (g.scope inner).table.find? name ns

/-- A member is found unless members are withheld. -/
def restrict (s : Scope) (id : SymbolId) : Lookup :=
  if s.isRestricted then .restricted id else .found id

/-- Is the private partition closed to a search? Searches that come through a subclass never open
it. -/
def isClosed (s : Scope) (viaSuper : Bool) : Bool := viaSuper || !s.isActive

/-- The getter or else the setter of a name. -/
def accessor? (m : MemberInfo) (name : String) : Option Namespace → Option SymbolId
  | none => m.getters.find? name <|> m.setters.find? name
  | some .value => m.getters.find? name <|> m.setters.find? name
  | _ => none

/-- The part of a member search that concerns one scope. -/
def searchOwn (g : Graph) (id : ScopeId) (name : String) (ns : Option Namespace)
    (viaSuper : Bool) : Lookup :=
  let s := g.scope id
  match s.table.find? name ns with
  | some found => restrict s found
  | none =>
    match s.inner.bind fun inner => (g.scope inner).table.find? name ns with
    | some found => if isClosed s viaSuper then .hidden found else restrict s found
    | none =>
      match s.member.bind (accessor? · name ns) with
      | some found =>
        if (g.symbol found).flags.isPrivate && isClosed s viaSuper then .hidden found
        else restrict s found
      | none => .notFound

/-- Searches a scope and its superclasses, at most `fuel` scopes. -/
def searchMember (g : Graph) (name : String) (ns : Option Namespace) :
    Nat → ScopeId → Bool → Lookup
  | 0, _, _ => .failed
  | fuel + 1, id, viaSuper =>
    (g.searchOwn id name ns viaSuper).orElse fun _ =>
      match g.superScope? id with
      | some parent => g.searchMember name ns fuel parent true
      | none => .notFound

/-- Searches a scope, the scopes around it and their delegates, along chains of at most `fuel`
scopes. -/
def search (g : Graph) (name : String) (ns : Option Namespace) : Nat → ScopeId → Lookup
  | 0, _ => .failed
  | fuel + 1, id =>
    (g.searchMember name ns (fuel + 1) id false).orElse fun _ =>
      let s := g.scope id
      let outward := if s.sealed then none else s.parent
      (match outward with
        | some parent => g.search name ns fuel parent
        | none => .notFound).orElse fun _ =>
        match s.delegate with
        | some delegate => g.search name ns fuel delegate
        | none => .notFound

/-- Searches for a name from a scope outward and changes nothing. -/
def peek (g : Graph) (start : ScopeId) (name : String) (ns : Option Namespace) : Lookup :=
  g.search name ns (maxDepth + 1) start

/-- Searches a member scope and its superclasses only. -/
def lookupMember (g : Graph) (members : ScopeId) (name : String) (ns : Option Namespace)
    (viaSuper : Bool) : Lookup :=
  g.searchMember name ns (maxDepth + 1) members viaSuper

/-! ### Captures -/

/-- The scopes from `id` outward, before `owner` and before the first root scope. -/
def captureRange (g : Graph) (owner : ScopeId) : Nat → ScopeId → List ScopeId
  | 0, _ => []
  | fuel + 1, id =>
    if id = owner || g.isRoot id then []
    else
      id :: match (g.scope id).parent with
        | some parent => g.captureRange owner fuel parent
        | none => []

/-- Notes that a symbol is used in a scope. -/
def markCaptured (g : Graph) (symbol : SymbolId) (id : ScopeId) : Graph :=
  g.modifyScope id fun s =>
    if symbol ∈ s.captured then s else { s with captured := s.captured ++ [symbol] }

/-- Notes the use of a local symbol on every scope between the use and the declaration. -/
def capture (g : Graph) (start : ScopeId) (symbol : SymbolId) : Graph :=
  match (g.symbol symbol).scope with
  | none => g
  | some owner =>
    let kind := (g.scope owner).kind
    if (kind == .function || kind == .block) && start != owner && g.isAncestor owner start then
      let range := g.captureRange owner g.scopes.size start
      if range.isEmpty then g
      else
        (range.foldl (·.markCaptured symbol) g).modifySymbol symbol fun s =>
          { s with captured := true }
    else g

/-- Searches for a name and notes its use. -/
def lookup (g : Graph) (start : ScopeId) (name : String) (ns : Option Namespace) :
    Lookup × Graph :=
  let result := g.peek start name ns
  match result with
  | .found id => (result, g.capture start id)
  | _ => (result, g)

end Graph

end Scoping
