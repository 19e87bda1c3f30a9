import Scoping.Proofs.Tree.Preorder
import Scoping.Reduce

/-!
# Constant expressions are exact

An expression over integers and texts has a value in the integers without bounds.
`Reduce.node_exact` says that this is the value that is computed, if every part of the expression
has one and no integer among them is beyond the signed 64-bit range, and that the expression is
undefined otherwise.
-/

namespace Scoping

namespace Reduce

/-- An integer without bounds or a text. -/
inductive Exact where
  | int (i : Int)
  | str (s : String)

namespace Exact

def toValue : Exact → Value
  | int i => .int i
  | str s => .str s

def toLiteral : Exact → Literal
  | int i => .int i
  | str s => .str s

/-- Texts have any length, integers are in the signed 64-bit range. -/
def Fits : Exact → Prop
  | int i => Value.fits i = true
  | str _ => True

end Exact

/-- An expression over integers and texts. -/
inductive Expr where
  | const (v : Exact)
  | unary (op : String) (operand : Expr)
  | binary (op : String) (lhs rhs : Expr)

namespace Expr

/-- The value of an expression, with integers of any size. -/
def value? : Expr → Option Exact
  | const v => some v
  | unary op e =>
    match op, e.value? with
    | "-", some (.int i) => some (.int (-i))
    | _, _ => none
  | binary op a b =>
    match op, a.value?, b.value? with
    | "+", some (.int i), some (.int j) => some (.int (i + j))
    | "+", some (.str s), some (.str s') => some (.str (s ++ s'))
    | "~", some (.str s), some (.str s') => some (.str (s ++ s'))
    | "~", some (.str s), some (.int i) => some (.str (s ++ toString i))
    | _, _, _ => none

/-- The expression and all that it is made of. -/
def parts : Expr → List Expr
  | const v => [const v]
  | unary op e => unary op e :: e.parts
  | binary op a b => binary op a b :: (a.parts ++ b.parts)

/-- Every part has a value, and no integer among them is out of range. -/
def Sound (e : Expr) : Prop := ∀ part ∈ e.parts, ∃ v, part.value? = some v ∧ v.Fits

theorem sound_unary {op : String} {e : Expr} :
    (unary op e).Sound ↔ (∃ v, (unary op e).value? = some v ∧ v.Fits) ∧ e.Sound :=
  List.forall_mem_cons

theorem sound_binary {op : String} {a b : Expr} : (binary op a b).Sound ↔
    (∃ v, (binary op a b).value? = some v ∧ v.Fits) ∧ a.Sound ∧ b.Sound :=
  List.forall_mem_cons.trans (and_congr_right fun _ => List.forall_mem_append)

/-- What an expression has to be reduced to. -/
def Meets (e : Expr) (value : Value) : Prop :=
  (∀ v, e.value? = some v → e.Sound → value = v.toValue) ∧ (¬ e.Sound → value = .undefined)

theorem Sound.value? {e : Expr} (h : e.Sound) : ∃ v, e.value? = some v ∧ v.Fits := by
  cases e <;> exact h _ List.mem_cons_self

theorem Meets.cases {e : Expr} {value : Value} (h : e.Meets value) :
    (∃ v, e.value? = some v ∧ v.Fits ∧ e.Sound ∧ value = v.toValue) ∨
      ¬ e.Sound ∧ value = .undefined := by
  by_cases hsound : e.Sound
  · obtain ⟨v, hv, hfits⟩ := hsound.value?
    exact .inl ⟨v, hv, hfits, hsound, h.1 v hv hsound⟩
  · exact .inr ⟨hsound, h.2 hsound⟩

theorem Meets.negate {e : Expr} {value : Value} (h : e.Meets value) :
    (unary "-" e).Meets (Reduce.negate value) := by
  rw [Meets, sound_unary]
  rcases h.cases with ⟨v, hv, hfits, hsound, rfl⟩ | ⟨hsound, rfl⟩
  · cases v <;>
      simp [Expr.value?, hv, hsound, Reduce.negate, Exact.toValue, Exact.Fits, Value.checkedInt]
  · simp [hsound, Reduce.negate]

section Binary

variable {a b : Expr} {x y : Value} (ha : a.Meets x) (hb : b.Meets y)

include ha hb

theorem Meets.add : (binary "+" a b).Meets (Reduce.add x y) := by
  rw [Meets, sound_binary]
  rcases ha.cases with ⟨v, hv, hfits, hsound, rfl⟩ | ⟨hsound, rfl⟩
  · rcases hb.cases with ⟨w, hw, hfits', hsound', rfl⟩ | ⟨hsound', rfl⟩
    · cases v <;> cases w <;> simp [Expr.value?, hv, hw, hsound, hsound', Reduce.add, Exact.toValue,
        Exact.Fits, Value.checkedInt]
    · simp [hsound', Reduce.add]
  · simp [hsound, Reduce.add]

theorem Meets.concat : (binary "~" a b).Meets (Reduce.concat x y) := by
  rw [Meets, sound_binary]
  rcases ha.cases with ⟨v, hv, hfits, hsound, rfl⟩ | ⟨hsound, rfl⟩
  · rcases hb.cases with ⟨w, hw, hfits', hsound', rfl⟩ | ⟨hsound', rfl⟩
    · cases v <;> cases w <;> simp [Expr.value?, hv, hw, hsound, hsound', Reduce.concat,
        Exact.toValue, Exact.Fits]
    · simp [hsound', Reduce.concat]
  · simp [hsound, Reduce.concat]

end Binary

/-- Other operators give no value. -/
theorem meets_undefined {e : Expr} (h : e.value? = none) : e.Meets .undefined :=
  ⟨fun _ hv => (nomatch h.symm.trans hv), fun _ => rfl⟩

end Expr

/-- The node is a literal, or a name bound to a constant variable, with the value. -/
def Holds (g : Graph) (node : Node) (v : Exact) : Prop :=
  node.kind = .literal v.toLiteral ∨ ∃ path x data, node.kind = .name path ∧
    node.note.symbol = some x ∧ (g.symbol x).flags.isConst = true ∧
      (g.symbol x).var? = some data ∧ data.value = some v.toValue

/-- The expression that starts at a node. Literals and constants are in the signed 64-bit range. -/
inductive Denotes (t : Tree) (g : Graph) : NodeId → Expr → Prop where
  | const {id node v} (hnode : t.node? id = some node) (hv : Holds g node v) (hfits : v.Fits) :
    Denotes t g id (.const v)
  | unary {id node op c e} (hnode : t.node? id = some node) (hkind : node.kind = .unary op c)
    (he : Denotes t g c e) : Denotes t g id (.unary op e)
  | binary {id node op c d a b} (hnode : t.node? id = some node)
    (hkind : node.kind = .binary op c d)
    (ha : Denotes t g c a) (hb : Denotes t g d b) : Denotes t g id (.binary op a b)

variable {t : Tree} {g : Graph} {id : NodeId} {e : Expr}

theorem Holds.children {node : Node} {v : Exact} (h : Holds g node v) :
    node.kind.children = [] := by
  rcases h with h | ⟨path, x, data, h, -⟩ <;> rw [h] <;> rfl

namespace Denotes

theorem child (h : Denotes t g id e) {c : NodeId} (hc : t.Link id c) :
    ∃ e', Denotes t g c e' ∧ sizeOf e' < sizeOf e := by
  obtain ⟨node, hnode, hc⟩ := hc
  cases h with
  | const hnode' hv =>
    cases hnode.symm.trans hnode'
    rw [hv.children] at hc
    cases hc
  | unary hnode' hkind he =>
    cases hnode.symm.trans hnode'
    rw [hkind] at hc
    cases List.mem_singleton.mp hc
    exact ⟨_, he, by rw [Expr.unary.sizeOf_spec]; omega⟩
  | binary hnode' hkind ha hb =>
    cases hnode.symm.trans hnode'
    rw [hkind] at hc
    rcases List.mem_pair.mp hc with rfl | rfl
    · exact ⟨_, ha, by rw [Expr.binary.sizeOf_spec]; omega⟩
    · exact ⟨_, hb, by rw [Expr.binary.sizeOf_spec]; omega⟩

theorem descend (h : Denotes t g id e) {c : NodeId} (hc : t.Below id c) :
    ∃ e', Denotes t g c e' ∧ sizeOf e' ≤ sizeOf e := by
  induction hc generalizing e with
  | here => exact ⟨e, h, Nat.le_refl _⟩
  | down hnode _ hchild _ ih =>
    obtain ⟨e₁, h₁, hlt⟩ := h.child ⟨_, hnode, hchild⟩
    obtain ⟨e₂, h₂, hle⟩ := ih h₁
    exact ⟨e₂, h₂, by omega⟩

/-- No link leads back: once around, the same node would denote a smaller expression. -/
theorem not_below (h : Denotes t g id e) {child : NodeId} (hlink : t.Link id child) :
    ¬ t.Below child id := fun hback => by
  induction hn : sizeOf e using Nat.strong_induction_on generalizing e with
  | _ n ih =>
    obtain ⟨e₁, h₁, hlt⟩ := h.child hlink
    obtain ⟨e₂, h₂, hle⟩ := h₁.descend hback
    exact ih (sizeOf e₂) (by omega) h₂ rfl

theorem acyclic (h : Denotes t g id e) : t.Acyclic id where
  inside hc := by
    obtain ⟨e', h', -⟩ := h.descend hc
    cases h' <;> exact Tree.lt_size_of_node? ‹_›
  forward hc hlink := by
    obtain ⟨e', h', -⟩ := h.descend hc
    exact h'.not_below hlink

end Denotes

theorem exists_children {fuel : Nat} {ids : List NodeId} {node : Node}
    (h : t.preorder fuel id = .ok ids) (hnode : t.node? id = some node) :
    ∃ n, fuel = n + 1 ∧ ∀ c ∈ node.kind.children, ∃ ids, t.preorder n c = .ok ids := by
  cases fuel with
  | zero => cases h
  | succ n =>
    obtain ⟨node', parts, hnode', hparts, -⟩ := Tree.preorder_succ_iff.mp h
    cases hnode.symm.trans hnode'
    refine ⟨n, rfl, fun c hc => ?_⟩
    obtain ⟨i, hi, rfl⟩ := List.mem_iff_getElem.mp hc
    exact ⟨_, hparts.get hi (hparts.length_eq ▸ hi)⟩

/-- Operators are applied to what their operands are reduced to. -/
theorem exists_meets {fuel : Nat} (h : Denotes t g id e) {ids : List NodeId}
    (hids : t.preorder fuel id = .ok ids) :
    ∃ value, within t g fuel id = .ok value ∧ e.Meets value := by
  induction h generalizing fuel ids with
  | @const id node v hnode hv hfits =>
    obtain ⟨fuel, rfl, -⟩ := exists_children hids hnode
    have hsound : (Expr.const v).Sound := by simp [Expr.Sound, Expr.parts, Expr.value?, hfits]
    refine ⟨v.toValue, ?_, fun w hw _ => by cases hw; rfl, fun hnot => absurd hsound hnot⟩
    rw [within, Tree.read_of_node? hnode]
    rcases hv with hkind | ⟨path, x, data, hkind, hx, hconst, hdata, hvalue⟩
    · cases v <;> simp only [bind, Except.bind, hkind] <;> rfl
    · simp [bind, Except.bind, hkind, constant, hx, hconst, hdata, hvalue, pure, Except.pure]
  | @unary id node op c e hnode hkind _ ih =>
    obtain ⟨fuel, rfl, hchildren⟩ := exists_children hids hnode
    rw [hkind] at hchildren
    obtain ⟨_, hc⟩ := hchildren c (by simp [NodeKind.children])
    obtain ⟨x, hx, hmeets⟩ := ih hc
    rw [within, Tree.read_of_node? hnode]
    simp only [bind, Except.bind, hkind]
    by_cases hop : op = "-"
    · exact ⟨_, by simp [hop, hx, Functor.map, Except.map], hop ▸ hmeets.negate⟩
    · exact ⟨_, if_neg hop, Expr.meets_undefined (by simp [Expr.value?, hop])⟩
  | @binary id node op c d a b hnode hkind _ _ iha ihb =>
    obtain ⟨fuel, rfl, hchildren⟩ := exists_children hids hnode
    rw [hkind] at hchildren
    obtain ⟨_, hc⟩ := hchildren c (by simp [NodeKind.children])
    obtain ⟨_, hd⟩ := hchildren d (by simp [NodeKind.children])
    obtain ⟨x, hx, hmeets⟩ := iha hc
    obtain ⟨y, hy, hmeets'⟩ := ihb hd
    rw [within, Tree.read_of_node? hnode]
    simp only [bind, Except.bind, hkind]
    by_cases hplus : op = "+"
    · exact ⟨_, by simp [hplus, hx, hy]; rfl, hplus ▸ hmeets.add hmeets'⟩
    by_cases htilde : op = "~"
    · exact ⟨_, by simp [htilde, hx, hy]; rfl, htilde ▸ hmeets.concat hmeets'⟩
    · exact ⟨_, by simp [hplus, htilde]; rfl,
        Expr.meets_undefined (by simp [Expr.value?, hplus, htilde])⟩

/-- An expression is reduced to its value in the integers without bounds, if all its parts have a
value and all its integers are in the signed 64-bit range. Otherwise it is undefined. -/
theorem node_exact (h : Denotes t g id e) :
    (∀ v, e.value? = some v → e.Sound → node t g id = .ok v.toValue) ∧
      (¬ e.Sound → node t g id = .ok .undefined) := by
  obtain ⟨ids, hids⟩ := h.acyclic.preorder (Nat.lt_succ_self _)
  obtain ⟨value, hvalue, hmeets⟩ := exists_meets h hids
  exact ⟨fun v hv hsound => hmeets.1 v hv hsound ▸ hvalue, fun hsound => hmeets.2 hsound ▸ hvalue⟩

/-- `9223372036854775807 + 1` and `"n" ~ 1`. -/
def sums : Tree where
  file := "a.phs"
  nodes := #[{ kind := .literal (.int 9223372036854775807) }, { kind := .literal (.int 1) },
    { kind := .binary "+" ⟨0⟩ ⟨1⟩ }, { kind := .literal (.str "n") },
    { kind := .binary "~" ⟨3⟩ ⟨1⟩ }]

/-- A sum beyond the range is undefined, and the digits of an integer are joined to a text. -/
theorem node_exact_sums :
    node sums default ⟨2⟩ = .ok .undefined ∧ node sums default ⟨4⟩ = .ok (.str "n1") := by
  have hmax : Denotes sums default ⟨0⟩ (.const (.int 9223372036854775807)) :=
    .const rfl (.inl rfl) rfl
  have hone : Denotes sums default ⟨1⟩ (.const (.int 1)) := .const rfl (.inl rfl) rfl
  have htext : Denotes sums default ⟨3⟩ (.const (.str "n")) := .const rfl (.inl rfl) trivial
  refine ⟨(node_exact (.binary rfl rfl hmax hone)).2 fun hsound => ?_,
    (node_exact (.binary rfl rfl htext hone)).1 (.str "n1") rfl ?_⟩
  · obtain ⟨v, hv, hfits⟩ := hsound.value?
    cases hv
    cases hfits
  · simp [Expr.Sound, Expr.parts, Expr.value?, Exact.Fits, Value.fits]

end Reduce

end Scoping
