import Scoping.Tree.Basic

/-!
# The part of a tree that is walked

Both walks over a unit go down from the root, but not everywhere: members of traits and interfaces
are left to the types that copy them, and a function without a body is not entered, so that the
default values of its parameters are not looked at either. `Tree.Walked` is the relation between a
node and what is walked below it.
-/

namespace Scoping

/-- Are the children of a node walked? -/
def NodeKind.isEntered : NodeKind → Bool
  | .traitDecl _ | .interfaceDecl _ => false
  | .fnDecl decl | .fnExpr decl => decl.body.isSome
  | _ => true

namespace Tree

variable {t : Tree} {id : NodeId} {ids ids' : List NodeId} {R : NodeId → NodeKind → Prop}

/-- Child links lead from the first node to the second, through nodes of certain kinds. -/
inductive Leads (through : NodeKind → Bool) (t : Tree) : NodeId → NodeId → Prop where
  | here (id : NodeId) : Leads through t id id
  | down {id child c : NodeId} {node : Node} (hnode : t.node? id = some node)
      (hthrough : through node.kind = true) (hchild : child ∈ node.kind.children)
      (hc : Leads through t child c) : Leads through t id c

/-- The second node is reached from the first through children of nodes that are entered. -/
abbrev Walked (t : Tree) : NodeId → NodeId → Prop := t.Leads NodeKind.isEntered

/-- The property holds of all that is walked below some nodes, and of these nodes. -/
def Throughout (t : Tree) (ids : List NodeId) (R : NodeId → NodeKind → Prop) : Prop :=
  ∀ id ∈ ids, ∀ {c node}, t.Walked id c → t.node? c = some node → R c node.kind

theorem throughout_nil : t.Throughout [] R := nofun

theorem throughout_append :
    t.Throughout (ids ++ ids') R ↔ t.Throughout ids R ∧ t.Throughout ids' R :=
  List.forall_mem_append

theorem Throughout.mono {R' : NodeId → NodeKind → Prop} (h : t.Throughout ids R)
    (hR : ∀ c kind, R c kind → R' c kind) : t.Throughout ids R' :=
  fun id hid _ _ hc hnode => hR _ _ (h id hid hc hnode)

theorem throughout_of_forall (h : ∀ id ∈ ids, t.Throughout [id] R) : t.Throughout ids R :=
  fun id hid => h id hid id List.mem_cons_self

theorem Throughout.of_mem (h : t.Throughout ids R) (hid : id ∈ ids) : t.Throughout [id] R := by
  intro q hq
  rw [List.mem_singleton.mp hq]
  exact h id hid

/-- A node and what is walked below it. -/
theorem throughout_node {kind : NodeKind}
    (hkind : ∀ node, t.node? id = some node → node.kind = kind)
    (hid : R id kind) (hchildren : kind.isEntered = true → t.Throughout kind.children R) :
    t.Throughout [id] R := by
  intro q hq c node hc hnode
  rw [List.mem_singleton.mp hq] at hc
  cases hc with
  | here => exact hkind node hnode ▸ hid
  | down hparent hentered hchild hc =>
    rw [hkind _ hparent] at hentered hchild
    exact hchildren hentered _ hchild hc hnode

theorem Throughout.here {node : Node} (h : t.Throughout [id] R) (hnode : t.node? id = some node) :
    R id node.kind :=
  h id List.mem_cons_self (.here id) hnode

theorem Throughout.children {node : Node} (h : t.Throughout [id] R) (hnode : t.node? id = some node)
    (hentered : node.kind.isEntered = true) : t.Throughout node.kind.children R :=
  fun _ hchild _ _ hc => h id List.mem_cons_self (.down hnode hentered hchild hc)

end Tree

end Scoping
