import Scoping.Double.Basic

/-!
# JSON values

JSON documents, with integers kept apart from other numbers: `1` is an integer and `1.0` is not.
Objects keep their fields in order.
-/

namespace Scoping

inductive Json where
  | null
  | bool (b : Bool)
  | int (i : Int)
  | float (x : Double)
  | str (s : String)
  | arr (items : List Json)
  | obj (fields : List (String × Json))
deriving Inhabited

namespace Json

/-- The value of a field of an object. -/
def field? (j : Json) (name : String) : Option Json :=
  match j with
  | obj fields => fields.lookup name
  | _ => none

def str? : Json → Option String
  | str s => some s
  | _ => none

def bool? : Json → Option Bool
  | bool b => some b
  | _ => none

def arr? : Json → Option (List Json)
  | arr items => some items
  | _ => none

def int? : Json → Option Int
  | int i => some i
  | _ => none

/-- A natural number below `bound`. -/
def natBelow? (bound : Nat) (j : Json) : Option Nat :=
  match j with
  | int i => if 0 ≤ i && i < bound then some i.toNat else none
  | _ => none

/-- A natural number as an integer value. -/
def nat (n : Nat) : Json := int n

/-- A value that may be absent, written as `null`. -/
def ofOption {α : Type} (encode : α → Json) : Option α → Json
  | none => null
  | some a => encode a

end Json

end Scoping
