import Scoping.Tree.Basic
import Scoping.Graph.Basic

/-!
# Constant expressions

`Reduce.node` computes the value of an expression at compile time: literals, names of constants,
engine constants, negation, sums of integers and joined texts. Every other expression, and every
integer beyond the signed 64-bit range, is undefined. A `Reducer` is any way to find such values.
-/

namespace Scoping

/-- A way to find the value of an expression of an annotated tree. -/
abbrev Reducer := Tree → Graph → NodeId → Except Halt Value

namespace Reduce

def literal : Literal → Value
  | .null => .null
  | .bool b => .bool b
  | .int i => .int i
  | .float x => .float x
  | .str s => .str s

/-- The value of a constant, by the symbol that its name is bound to. -/
def constant (g : Graph) (symbol : Option SymbolId) : Value :=
  match symbol.map g.symbol with
  | none => .undefined
  | some symbol =>
    if symbol.flags.isConst then (symbol.var?.bind (·.value)).getD .undefined else .undefined

def engineConst : Option Binding → Value
  | some (.bound value) => value
  | _ => .undefined

def negate : Value → Value
  | .int i => Value.checkedInt (-i)
  | .float x => .float x.neg
  | _ => .undefined

/-- The sum of two integers, or two texts joined. -/
def add : Value → Value → Value
  | .int a, .int b => Value.checkedInt (a + b)
  | .str a, .str b => .str (a ++ b)
  | _, _ => .undefined

/-- A text joined with a text or with the digits of an integer. -/
def concat : Value → Value → Value
  | .str a, .str b => .str (a ++ b)
  | .str a, .int b => .str (a ++ toString b)
  | _, _ => .undefined

/-- The value of an expression that is nested at most `fuel` deep. -/
def within (t : Tree) (g : Graph) : Nat → NodeId → Except Halt Value
  | 0, _ => .error .exhausted
  | fuel + 1, id => do
    let node ← t.read id
    match node.kind with
    | .literal value => pure (literal value)
    | .name _ => pure (constant g node.note.symbol)
    | .engineConst _ => pure (engineConst node.note.binding)
    | .unary op operand =>
      if op = "-" then negate <$> within t g fuel operand else pure .undefined
    | .binary op lhs rhs =>
      if op = "+" then do
        let a ← within t g fuel lhs
        let b ← within t g fuel rhs
        pure (add a b)
      else if op = "~" then do
        let a ← within t g fuel lhs
        let b ← within t g fuel rhs
        pure (concat a b)
      else pure .undefined
    | _ => pure .undefined

/-- The value of an expression. -/
def node : Reducer := fun t g id => within t g (t.size + 1) id

/-- The reducer that gives every expression the same value. -/
def always (value : Value) : Reducer := fun _ _ _ => .ok value

end Reduce

end Scoping
