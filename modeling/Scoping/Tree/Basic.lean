import Scoping.Tree.Syntax
import Scoping.Value

/-!
# Syntax trees

A tree is an arena of nodes with a distinguished root. A node has a payload, a span and an
annotation, which the analysis fills in. Reading a node that is not in the arena halts whatever
is going on, with `Halt.missingNode`.

Child links are not required to point backwards, so the operations that follow them take the number
of links that they may follow in a row. In a tree without cycles a chain of links is shorter than
the arena is long; more links to `spare` make a difference only where a chain has no end.
-/

namespace Scoping

/-- Why an operation on trees stopped without an answer. -/
inductive Halt where
  /-- A node was read that is not in the arena. -/
  | missingNode (id : NodeId)
  /-- A chain of links was longer than allowed. -/
  | exhausted
deriving DecidableEq, Inhabited

/-- The value slot of an engine constant. -/
inductive Binding where
  | bound (value : Value)
  /-- Copied from a trait into a class: bound once the whole unit is resolved. -/
  | pending
deriving Inhabited

/-- What the analysis knows about a node. -/
structure Annotation where
  /-- The scope that the node opens. -/
  scope : Option ScopeId := none
  /-- The symbol that the node declares or refers to. -/
  symbol : Option SymbolId := none
  binding : Option Binding := none
  /-- The reduced path of a request for another source. -/
  value : Option Value := none
  handle : Option SourceHandle := none
deriving Inhabited

structure Node where
  kind : NodeKind
  span : Span := {}
  note : Annotation := {}
deriving Inhabited

/-- One unit: a file name, perhaps its text, and the nodes parsed from it. -/
structure Tree where
  file : String
  source : Option String := none
  nodes : Array Node := #[]
  root : NodeId := ⟨0⟩
deriving Inhabited

namespace Tree

def size (t : Tree) : Nat := t.nodes.size

def node? (t : Tree) (id : NodeId) : Option Node := t.nodes[id.index]?

/-- The node, or a halt if there is none. -/
def read (t : Tree) (id : NodeId) : Except Halt Node :=
  match t.node? id with
  | some node => .ok node
  | none => .error (.missingNode id)

/-- Changes the annotation of a node. -/
def annotate (t : Tree) (id : NodeId) (f : Annotation → Annotation) : Tree :=
  { t with nodes := t.nodes.modify id.index fun node => { node with note := f node.note } }

/-- Appends a node without annotation. -/
def push (t : Tree) (kind : NodeKind) (span : Span) : NodeId × Tree :=
  (⟨t.nodes.size⟩, { t with nodes := t.nodes.push { kind, span } })

def children (t : Tree) (id : NodeId) : Except Halt (List NodeId) :=
  (fun node => node.kind.children) <$> t.read id

/-- The nodes below and including `id`, parents first, along chains of at most `fuel` nodes. -/
def preorder (t : Tree) : Nat → NodeId → Except Halt (List NodeId)
  | 0, _ => .error .exhausted
  | fuel + 1, id => do
    let node ← t.read id
    let below ← node.kind.children.mapM (t.preorder fuel)
    pure (id :: below.flatten)

/-- All nodes below and including `id`, parents first. -/
def descendants (t : Tree) (id : NodeId) (spare : Nat := 0) : Except Halt (List NodeId) :=
  t.preorder (t.size + 1 + spare) id

/-- Appends a copy of a subtree, children before parents. -/
def copyWithin : Nat → NodeId → StateT Tree (Except Halt) NodeId
  | 0, _ => throw .exhausted
  | fuel + 1, id => do
    let node ← (← get).read id
    let copies ← node.kind.children.mapM (copyWithin fuel)
    modifyGet fun t => t.push (node.kind.withChildren copies) node.span

/-- Appends a copy of a subtree and gives the id of its top. Copies have no annotations. -/
def copySubtree (t : Tree) (id : NodeId) (spare : Nat := 0) : Except Halt (NodeId × Tree) :=
  (copyWithin (t.size + 1 + spare) id).run t

/-- Assigns every span of the tree to a file. -/
def setFile (t : Tree) (file : FileId) : Tree :=
  { t with
    nodes := t.nodes.map fun node =>
      { node with
        kind := node.kind.mapSpans (Span.withFile · file)
        span := node.span.withFile file } }

/-! ### Validity -/

/-- What is wrong with an arena. -/
inductive Fault where
  | rootMissing (root : NodeId) (size : Nat)
  | rootNotUnit (label : String)
  | childMissing (index : Nat) (label : String) (child : NodeId)
deriving DecidableEq, Inhabited

def Fault.message : Fault → String
  | rootMissing root size => s!"root {root.text} out of range ({size} nodes)"
  | rootNotUnit label => s!"root node is a {label}, expected a unit"
  | childMissing index label child =>
    s!"node {index} ({label}) refers to missing child {child.text}"

/-- The last child of a payload that lies outside an arena of the given size. -/
def lastMissing? (size : Nat) (kind : NodeKind) : Option NodeId :=
  (kind.children.filter fun child => size ≤ child.index).getLast?

/-- The first node that has a child outside the arena. -/
def missingChild? (t : Tree) : Option Fault :=
  t.nodes.toList.zipIdx.findSome? fun (node, index) =>
    (lastMissing? t.size node.kind).map (Fault.childMissing index node.kind.label)

/-- Is the root a unit, and are all child links inside the arena? -/
def validate (t : Tree) : Except Fault Unit :=
  match t.node? t.root with
  | none => .error (.rootMissing t.root t.size)
  | some root =>
    match root.kind with
    | .unit _ =>
      match t.missingChild? with
      | some fault => .error fault
      | none => .ok ()
    | kind => .error (.rootNotUnit kind.label)

end Tree

end Scoping
