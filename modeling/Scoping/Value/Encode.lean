import Scoping.Json.Basic
import Scoping.Value

/-!
# Values as JSON documents

A value is written as an object with its kind and, if it has one, its content.
-/

namespace Scoping.Value

/-- An object with a kind and a content. -/
def tagged (word : String) (content : Json) : Json := .obj [("kind", .str word), ("value", content)]

mutual

def toJson : Value → Json
  | undefined => .obj [("kind", .str "undefined")]
  | none => .obj [("kind", .str "none")]
  | null => .obj [("kind", .str "null")]
  | bool b => tagged "bool" (.bool b)
  | int i => tagged "int" (.int i)
  | float x => tagged "float" (.float x)
  | str s => tagged "str" (.str s)
  | list items => tagged "list" (.arr (itemsJson items))
  | tuple items => tagged "tuple" (.arr (itemsJson items))
  | dict entries => tagged "dict" (.arr (entriesJson entries))
  | symbol id => tagged "symbol" (.nat id.index)
  | new host args =>
    tagged "new" (.obj [("class", .nat host.index), ("args", .arr (itemsJson args))])

def itemsJson : List Value → List Json
  | [] => []
  | value :: rest => value.toJson :: itemsJson rest

def entriesJson : List (Value × Value) → List Json
  | [] => []
  | (key, value) :: rest => .arr [key.toJson, value.toJson] :: entriesJson rest

end

end Scoping.Value
