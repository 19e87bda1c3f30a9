import Scoping.Id
import Scoping.Double.Shortest
import Scoping.Text.Quoted

/-!
# Compile-time values

What a constant expression reduces to. An expression that cannot be reduced has the value
`undefined`. Integers are meant to lie in the signed 64-bit range; `Value.fits` is that test.
-/

namespace Scoping

inductive Value where
  /-- Not known at compile time. -/
  | undefined
  | none
  | null
  | bool (b : Bool)
  | int (i : Int)
  | float (x : Double)
  | str (s : String)
  | list (items : List Value)
  | tuple (items : List Value)
  | dict (entries : List (Value × Value))
  | symbol (id : SymbolId)
  | new (host : SymbolId) (args : List Value)
deriving Inhabited

namespace Value

/-- Does an integer lie in the signed 64-bit range? -/
def fits (i : Int) : Bool := -(Nat.pow 2 63 : Int) ≤ i && i < Nat.pow 2 63

/-- The integer, if it lies in the signed 64-bit range. -/
def checkedInt (i : Int) : Value := if fits i then int i else undefined

def isDefined : Value → Bool
  | undefined => false
  | _ => true

def str? : Value → Option String
  | str s => some s
  | _ => Option.none

mutual

/-- How a value is written in messages. -/
def text : Value → String
  | undefined => "<undefined>"
  | none => "none"
  | null => "null"
  | bool b => if b then "true" else "false"
  | int i => toString i
  | float x => x.text
  | str s => Text.quoted s
  | list items => "[" ++ String.intercalate ", " (texts items) ++ "]"
  | tuple items => "[" ++ String.intercalate ", " (texts items) ++ "]"
  | dict entries => "\x7b" ++ toString entries.length ++ " entries\x7d"
  | symbol id => id.text
  | new host _ => "new " ++ host.text

def texts : List Value → List String
  | [] => []
  | item :: rest => text item :: texts rest

end

end Value

end Scoping
