import Scoping.Graph.Basic

/-!
# Names and pictures of the graph

`Graph.symbolPath` is the full name of a symbol: modules are joined by `::` and members by a dot.
`Graph.dump` draws the tree of scopes, each with its declarations, one per line.
-/

namespace Scoping.Graph

/-- The full name of a symbol, going through at most `fuel` hosts. -/
def symbolPathWithin (g : Graph) : Nat → SymbolId → String
  | 0, id => (g.symbol id).name
  | fuel + 1, id =>
    let symbol := g.symbol id
    match symbol.scope with
    | none => symbol.name
    | some place =>
      let scope := g.owner place
      match g.memberInfo? scope with
      | some member => g.symbolPathWithin fuel member.host ++ "." ++ symbol.name
      | none =>
        let path := g.modulePath scope
        if path.isEmpty then symbol.name else path ++ "::" ++ symbol.name

/-- The full name of a symbol. A chain of hosts without repetition is no longer than the arena. -/
def symbolPath (g : Graph) (id : SymbolId) : String := g.symbolPathWithin (g.symbols.size + 1) id

/-! ### Drawing -/

def indentation (depth : Nat) : String := String.ofList (List.replicate (2 * depth) ' ')

/-- What a scope is called: its name, or the type whose members it holds. -/
def scopeLabel (g : Graph) (s : Scope) : String :=
  match s.name, s.member with
  | some name, _ => " " ++ name
  | none, some member => " " ++ g.symbolPath member.host
  | none, none => ""

/-- One declaration. -/
def symbolLine (g : Graph) (depth : Nat) (id : SymbolId) : String :=
  let symbol := g.symbol id
  let used := if symbol.captured then " captured" else ""
  let ahead := if symbol.reachable then "" else " unreachable"
  let origin := match symbol.origin with
    | some origin => " from " ++ g.symbolPath origin
    | none => ""
  s!"{indentation depth}  - {symbol.kind.word} {symbol.name} [{symbol.flags.text}]" ++ used ++ ahead
    ++ origin ++ "\n"

/-- A scope without the scopes inside it. -/
def scopeLines (g : Graph) (depth : Nat) (id : ScopeId) : String :=
  let scope := g.scope id
  let heading :=
    s!"{indentation depth}{scope.kind.word} #{id.index}" ++ g.scopeLabel scope ++ "\n"
  let slots := (scope.member.map MemberInfo.slots).getD []
  let lines := (scope.table.ids ++ slots).map (g.symbolLine depth)
  let captures :=
    if scope.captured.isEmpty then ""
    else
      indentation depth ++ "  captures: "
        ++ String.intercalate ", " (scope.captured.map fun id => (g.symbol id).name) ++ "\n"
  heading ++ String.join lines ++ captures

/-- The scopes whose parent is the given one, in order of creation. -/
def childScopes (g : Graph) (id : ScopeId) : List ScopeId :=
  (List.range g.scopes.size).filterMap fun index =>
    if (g.scope ⟨index⟩).parent = some id then some ⟨index⟩ else none

/-- A scope and, indented, the scopes inside it, along chains of at most `fuel` scopes. Each scope
is one piece of the picture. -/
def dumpPieces (g : Graph) : Nat → Nat → ScopeId → List String
  | 0, _, _ => []
  | fuel + 1, depth, id =>
    g.scopeLines depth id :: (g.childScopes id).flatMap (g.dumpPieces fuel (depth + 1))

/-- The whole graph, starting at the global scope. -/
def dump (g : Graph) : String := String.join (g.dumpPieces g.scopes.size 0 global)

end Scoping.Graph
