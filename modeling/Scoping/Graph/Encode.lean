import Scoping.Graph.Declare
import Scoping.Value.Encode

/-!
# The graph as a JSON document

Scopes, symbols and tables written out in full, for inspection. Ids are numbers, spans are lists of
numbers, and numbers that JSON cannot hold exactly are texts. In *sparse* objects a field that says
nothing is left out: one that is null, false or empty.
-/

namespace Scoping

open Json

/-- A field that says something. -/
def Json.isTelling : Json → Bool
  | null => false
  | bool b => b
  | arr items => !items.isEmpty
  | obj fields => !fields.isEmpty
  | _ => true

/-- An object without the fields that say nothing. -/
def Json.sparse (fields : List (String × Json)) : Json := obj (fields.filter fun f => f.2.isTelling)

def ScopeId.toJson (id : ScopeId) : Json := nat id.index

def SymbolId.toJson (id : SymbolId) : Json := nat id.index

def SymbolId.listJson (ids : List SymbolId) : Json := arr (ids.map SymbolId.toJson)

/-- The start, the end and the file of a span. -/
def Span.numbers (s : Span) : Json :=
  arr ([s.start.line, s.start.column, s.start.offset, s.stop.line, s.stop.column, s.stop.offset,
    s.file.index].map nat)

/-! ### Exact values -/

namespace Value

/-- Sixteen hexadecimal digits. -/
def hex16 (n : Nat) : String :=
  let digits := Nat.toDigits 16 n
  String.ofList (List.replicate (16 - digits.length) '0' ++ digits)

mutual

/-- A value with its numbers as texts: integers in decimal, others by their bits. -/
def exactJson : Value → Json
  | undefined => toJson undefined
  | none => toJson none
  | null => toJson null
  | bool b => toJson (bool b)
  | int i => tagged "int" (.str (toString i))
  | float x => tagged "float" (.str (hex16 x.toBits))
  | str s => toJson (str s)
  | list items => tagged "list" (.arr (exactItems items))
  | tuple items => tagged "tuple" (.arr (exactItems items))
  | dict entries => tagged "dict" (.arr (exactEntries entries))
  | symbol id => toJson (symbol id)
  | new host args =>
    .obj [("kind", .str "new"), ("class", host.toJson), ("args", .arr (exactItems args))]

def exactItems : List Value → List Json
  | [] => []
  | value :: rest => value.exactJson :: exactItems rest

def exactEntries : List (Value × Value) → List Json
  | [] => []
  | (key, value) :: rest => .arr [key.exactJson, value.exactJson] :: exactEntries rest

end

end Value

/-! ### Symbols -/

def RejectReason.word : RejectReason → String
  | managed => "managed"
  | kindMismatch => "kind_mismatch"
  | flagMismatch => "flag_mismatch"
  | final => "final"
  | const => "const"
  | duplicate => "duplicate"

def TypeHint.toJson : TypeHint → Json
  | builtin name => obj [("builtin", .str name)]
  | named path target => obj [("named", .str path), ("target", ofOption SymbolId.toJson target)]

def TypeRef.toJson (r : TypeRef) : Json :=
  obj
    [("path", str r.path.text), ("span", r.span.numbers),
      ("target", ofOption SymbolId.toJson r.target)]

def TraitUsage.toJson (u : TraitUsage) : Json :=
  obj
    [("path", str u.trait.path.text), ("item", ofOption str u.item),
      ("alias", ofOption str u.rename), ("flags", str u.flags.text), ("span", u.span.numbers)]

def SymbolData.fields : SymbolData → List (String × Json)
  | fn d =>
    [("params", SymbolId.listJson d.params), ("role", .str d.role.word), ("nested", .bool d.nested),
      ("is_expr", .bool d.isExpr), ("has_body", .bool d.hasBody),
      ("body_scope", ofOption ScopeId.toJson d.bodyScope)]
  | var d =>
    [("value", ofOption Value.exactJson d.value), ("hint", ofOption TypeHint.toJson d.hint),
      ("by_ref", .bool d.byRef), ("rest", .bool d.rest), ("optional", .bool d.optional),
      ("this_bound", .bool d.thisBound), ("init", ofOption (fun id => nat id.index) d.init)]
  | cls d =>
    [("superclass", ofOption TypeRef.toJson d.super),
      ("interfaces", arr (d.interfaces.map TypeRef.toJson)),
      ("traits", arr (d.traits.map TraitUsage.toJson))]
  | trait d => [("traits", arr (d.traits.map TraitUsage.toJson))]
  | iface d => [("interfaces", arr (d.interfaces.map TypeRef.toJson))]
  | imported d => [("path", .str d.path.text), ("target", ofOption SymbolId.toJson d.target)]

namespace Graph

def symbolJson (g : Graph) (id : SymbolId) : Json :=
  let s := g.symbol id
  sparse
    ([("id", id.toJson), ("name", str s.name), ("ns", str s.ns.word), ("kind", str s.kind.word),
      ("span", s.span.numbers), ("flags", str s.flags.text),
      ("scope", ofOption ScopeId.toJson s.scope), ("unreachable", bool !s.reachable),
      ("captured", bool s.captured), ("managed", bool s.managed),
      ("origin", ofOption SymbolId.toJson s.origin),
      ("node", ofOption (fun node => nat node.index) s.node),
      ("resolution", ofOption (fun r => str (Resolution.word r)) s.data.resolution?),
      ("members", ofOption ScopeId.toJson s.members?)] ++ s.data.fields)

end Graph

/-! ### Scopes -/

def NameMap.toJson {α : Type} (encode : α → Json) (m : NameMap α) : Json :=
  arr (m.entries.map fun (name, a) => arr [str name, encode a])

def Table.toJson (t : Table) : Json :=
  sparse (Namespace.all.map fun ns => (ns.word, (t.space ns).toJson SymbolId.toJson))

def MemberInfo.toJson (m : MemberInfo) : Json :=
  sparse
    [("host", m.host.toJson), ("super", ofOption ScopeId.toJson m.super),
      ("ctor", ofOption SymbolId.toJson m.ctor), ("dtor", ofOption SymbolId.toJson m.dtor),
      ("getters", m.getters.toJson SymbolId.toJson), ("setters", m.setters.toJson SymbolId.toJson),
      ("restricted", bool m.restricted)]

namespace Graph

def scopeJson (g : Graph) (id : ScopeId) : Json :=
  let s := g.scope id
  sparse
    [("id", id.toJson), ("kind", str s.kind.word), ("name", ofOption str s.name),
      ("parent", ofOption ScopeId.toJson s.parent), ("table", s.table.toJson),
      ("captured", SymbolId.listJson s.captured), ("delegate", ofOption ScopeId.toJson s.delegate),
      ("sealed", bool s.sealed), ("active", if s.isActive then nat s.active else null),
      ("dropped", SymbolId.listJson s.dropped), ("shadowed", SymbolId.listJson s.shadowed),
      ("inner", ofOption ScopeId.toJson s.inner), ("outer", ofOption ScopeId.toJson s.outer),
      ("member", ofOption MemberInfo.toJson s.member),
      ("modules", s.modules.toJson ScopeId.toJson)]

/-- All symbols. -/
def symbolsJson (g : Graph) : Json :=
  arr ((List.range g.symbols.size).map fun i => g.symbolJson ⟨i⟩)

/-- All scopes. -/
def scopesJson (g : Graph) : Json :=
  arr ((List.range g.scopes.size).map fun i => g.scopeJson ⟨i⟩)

end Graph

end Scoping
