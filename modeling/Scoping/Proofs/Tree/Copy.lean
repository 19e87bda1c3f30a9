import Mathlib.Data.List.Forall2
import Scoping.Proofs.Tree.Syntax
import Scoping.Tree.Basic

/-!
# Copies of subtrees

Trees grow at the end: `Tree.copySubtree` appends nodes and leaves those that are there alone. The
nodes that it appends form a copy of the subtree, `Tree.Alike`: same payloads and spans, with the
children of the copy in the place of the children. A copy fails only where a chain of links is too
long, never for want of a node, as long as all links stay inside the arena (`Tree.Closed`).
-/

namespace Scoping

namespace Tree

variable {t t' t'' : Tree} {ids tops : List NodeId} {spare : Nat} {node : Node} {id top : NodeId}

/-! ### Nodes after an update -/

@[simp]
theorem size_annotate (id : NodeId) (f : Annotation → Annotation) :
    (t.annotate id f).size = t.size := by
  simp [size, annotate]

theorem node?_annotate (id q : NodeId) (f : Annotation → Annotation) :
    (t.annotate id f).node? q =
      if q = id then (t.node? q).map fun node => { node with note := f node.note }
      else t.node? q := by
  have hindex : id.index = q.index ↔ q = id := by
    cases q
    cases id
    simp [eq_comm]
  simp [node?, annotate, Array.getElem?_modify, hindex]

theorem node?_annotate_of_some {id q : NodeId} {node : Node} {f : Annotation → Annotation}
    (h : t.node? q = some node) : (t.annotate id f).node? q =
      some (if q = id then { node with note := f node.note } else node) := by
  rw [node?_annotate, h]
  split <;> rfl

@[simp]
theorem size_push (kind : NodeKind) (span : Span) : (t.push kind span).2.size = t.size + 1 := by
  simp [size, push]

theorem node?_push (kind : NodeKind) (span : Span) (q : NodeId) :
    (t.push kind span).2.node? q =
      if q.index = t.size then some { kind, span } else t.node? q := by
  rw [node?, push]
  exact Array.getElem?_push

theorem lt_size_of_node? (h : t.node? id = some node) : id.index < t.size := by
  simp only [node?, Array.getElem?_eq_some_iff] at h
  exact h.1

theorem exists_node? (h : id.index < t.size) : ∃ node, t.node? id = some node :=
  ⟨_, Array.getElem?_eq_getElem h⟩

/-! ### Growth -/

/-- All links stay inside the arena. -/
def Closed (t : Tree) : Prop :=
  ∀ {id node}, t.node? id = some node → ∀ c ∈ node.kind.children, c.index < t.size

/-- The child links of a valid tree are inside the arena. -/
theorem closed_of_validate (h : t.validate = .ok ()) : t.Closed := by
  intro id node hnode child hchild
  refine Nat.lt_of_not_le fun hle => ?_
  have hmissing : t.missingChild? = none := by
    unfold validate at h
    split at h
    · cases h
    · split at h
      · split at h
        · cases h
        next hnone => exact hnone
      · cases h
  have hmem : (node, id.index) ∈ t.nodes.toList.zipIdx :=
    List.mk_mem_zipIdx_iff_getElem?.mpr (by rwa [Array.getElem?_toList])
  have hlast : lastMissing? t.size node.kind = none :=
    Option.map_eq_none_iff.mp (List.findSome?_eq_none_iff.mp hmissing _ hmem)
  rw [lastMissing?, List.getLast?_eq_none_iff] at hlast
  have hfilter : child ∈ node.kind.children.filter fun child => t.size ≤ child.index :=
    List.mem_filter.mpr ⟨hchild, decide_eq_true hle⟩
  rw [hlast] at hfilter
  cases hfilter

/-- The root of a valid tree is a unit. -/
theorem root_of_validate (h : t.validate = .ok ()) :
    ∃ node body, t.node? t.root = some node ∧ node.kind = .unit body := by
  unfold validate at h
  split at h
  · cases h
  next node hnode =>
    split at h
    next body hbody => exact ⟨node, body, hnode, hbody⟩
    next => cases h

/-- Nodes are appended and none is changed. -/
structure Grows (t t' : Tree) : Prop where
  file : t'.file = t.file
  root : t'.root = t.root
  size_le : t.size ≤ t'.size
  node? : ∀ {id}, id.index < t.size → t'.node? id = t.node? id

namespace Grows

protected theorem refl : t.Grows t := ⟨rfl, rfl, Nat.le_refl _, fun _ => rfl⟩

protected theorem trans (h : t.Grows t') (h' : t'.Grows t'') : t.Grows t'' where
  file := h'.file.trans h.file
  root := h'.root.trans h.root
  size_le := Nat.le_trans h.size_le h'.size_le
  node? hid := (h'.node? (Nat.lt_of_lt_of_le hid h.size_le)).trans (h.node? hid)

theorem push (kind : NodeKind) (span : Span) : t.Grows (t.push kind span).2 where
  file := rfl
  root := rfl
  size_le := by simp
  node? hid := by rw [node?_push, if_neg (by omega)]

theorem node?_eq_some (h : t.Grows t') {id : NodeId} {node : Node} (hid : t.node? id = some node) :
    t'.node? id = some node := by
  rw [h.node? (lt_size_of_node? hid), hid]

end Grows

/-- Nodes are appended and keep their payloads and spans; annotations may change. -/
structure Extends (t t' : Tree) : Prop where
  file : t'.file = t.file
  root : t'.root = t.root
  size_le : t.size ≤ t'.size
  node? : ∀ {id node}, t.node? id = some node →
    ∃ node', t'.node? id = some node' ∧ node'.kind = node.kind ∧ node'.span = node.span

namespace Extends

protected theorem refl : t.Extends t := ⟨rfl, rfl, Nat.le_refl _, fun h => ⟨_, h, rfl, rfl⟩⟩

protected theorem trans (h : t.Extends t') (h' : t'.Extends t'') : t.Extends t'' where
  file := h'.file.trans h.file
  root := h'.root.trans h.root
  size_le := Nat.le_trans h.size_le h'.size_le
  node? hnode := by
    obtain ⟨node', hnode', hkind, hspan⟩ := h.node? hnode
    obtain ⟨node'', hnode'', hkind', hspan'⟩ := h'.node? hnode'
    exact ⟨node'', hnode'', hkind'.trans hkind, hspan'.trans hspan⟩

theorem annotate (id : NodeId) (f : Annotation → Annotation) : t.Extends (t.annotate id f) where
  file := rfl
  root := rfl
  size_le := Nat.le_of_eq (size_annotate id f).symm
  node? hnode := ⟨_, node?_annotate_of_some hnode, by split <;> rfl, by split <;> rfl⟩

end Extends

theorem Grows.extends (h : t.Grows t') : t.Extends t' :=
  ⟨h.file, h.root, h.size_le, fun hnode => ⟨_, h.node?_eq_some hnode, rfl, rfl⟩⟩

/-! ### Copies -/

/-- The subtrees at `id` and `id'` have the same payloads and spans, node by node. -/
inductive Alike (t t' : Tree) : NodeId → NodeId → Prop where
  | node {id id' : NodeId} {node node' : Node} (hnode : t.node? id = some node)
    (hnode' : t'.node? id' = some node') (hspan : node'.span = node.span)
    (hshape : node'.kind.shape = node.kind.shape)
    (hlength : node'.kind.children.length = node.kind.children.length)
    (hchildren : ∀ (i : Nat) (c c' : NodeId), node.kind.children[i]? = some c →
      node'.kind.children[i]? = some c' → Alike t t' c c') : Alike t t' id id'

namespace Alike

variable {id id' id'' : NodeId}

protected theorem symm (h : t.Alike t' id id') : t'.Alike t id' id := by
  induction h with
  | node hnode hnode' hspan hshape hlength _ ih =>
    exact .node hnode' hnode hspan.symm hshape.symm hlength.symm fun i c c' hc hc' =>
      ih i c' c hc' hc

protected theorem trans (h : t.Alike t' id id') (h' : t'.Alike t'' id' id'') :
    t.Alike t'' id id'' := by
  induction h generalizing id'' with
  | @node id id' node node' hnode hnode' hspan hshape hlength _ ih =>
    cases h' with
    | @node _ _ other node'' hother hnode'' hspan' hshape' hlength' hchildren' =>
      cases hnode'.symm.trans hother
      refine .node hnode hnode'' (hspan'.trans hspan) (hshape'.trans hshape)
        (hlength'.trans hlength) fun i c c'' hc hc'' => ?_
      have hi : i < node'.kind.children.length := by
        rw [hlength]
        exact (List.getElem?_eq_some_iff.mp hc).1
      have hc' := List.getElem?_eq_getElem hi
      exact ih i c _ hc hc' (hchildren' i _ c'' hc' hc'')

/-- New nodes and annotations in the second tree change nothing. -/
theorem extends_right (h : t.Alike t' id id') (hext : t'.Extends t'') : t.Alike t'' id id' := by
  induction h with
  | node hnode hnode' hspan hshape hlength _ ih =>
    obtain ⟨node'', hnode'', hkind, hspan'⟩ := hext.node? hnode'
    refine .node hnode hnode'' (hspan'.trans hspan) (by rw [hkind, hshape])
      (by rw [hkind, hlength]) fun i c c' hc hc' => ?_
    rw [hkind] at hc'
    exact ih i c c' hc hc'

/-- Nodes that were appended to the first tree are not below those that were there before. -/
theorem of_grows (ht : t.Closed) (hgrows : t.Grows t') (hid : id.index < t.size)
    (h : t'.Alike t'' id id'') : t.Alike t'' id id'' := by
  induction h with
  | node hnode hnode' hspan hshape hlength _ ih =>
    rw [hgrows.node? hid] at hnode
    exact .node hnode hnode' hspan hshape hlength fun i c c' hc hc' =>
      ih i c c' hc hc' (ht hnode c (List.mem_of_getElem? hc))

end Alike

/-- What copying the subtrees at `ids` appends: nodes without annotation, with links only to other
new nodes, among them the copies `tops`. -/
structure Copied (t t' : Tree) (ids tops : List NodeId) : Prop where
  grows : t.Grows t'
  length_eq : tops.length = ids.length
  alike : ∀ (i : Nat) (id top : NodeId), ids[i]? = some id → tops[i]? = some top →
    t.Alike t' id top
  lt_size : ∀ top ∈ tops, t.size ≤ top.index ∧ top.index < t'.size
  fresh : ∀ {id node}, t.size ≤ id.index → t'.node? id = some node → node.note = {} ∧
    ∀ c ∈ node.kind.children, t.size ≤ c.index ∧ c.index < id.index

theorem Copied.closed (h : t.Copied t' ids tops) (ht : t.Closed) : t'.Closed := by
  intro id node hnode c hc
  by_cases hid : id.index < t.size
  · rw [h.grows.node? hid] at hnode
    exact Nat.lt_of_lt_of_le (ht hnode c hc) h.grows.size_le
  · have hlt := lt_size_of_node? hnode
    have hc := (h.fresh (Nat.le_of_not_lt hid) hnode).2 c hc
    omega

/-- What a node is bound to, or that it is pending. -/
def binding? (t : Tree) (id : NodeId) : Option Binding :=
  (t.node? id).bind fun node => node.note.binding

/-- Some part of the note on a node. -/
def noted? {α : Type} (t : Tree) (part : Annotation → Option α) (id : NodeId) : Option α :=
  (t.node? id).bind fun node => part node.note

theorem noted?_of_node? {α : Type} {part : Annotation → Option α} {id : NodeId} {node : Node}
    (hnode : t.node? id = some node) : t.noted? part id = part node.note := by
  rw [noted?, hnode, Option.bind_some]

section Annotate

variable {α : Type} {part : Annotation → Option α} {id : NodeId} {f : Annotation → Annotation}

theorem noted?_annotate_of_ne {q : NodeId} (h : q ≠ id) :
    (t.annotate id f).noted? part q = t.noted? part q := by
  rw [noted?, node?_annotate, if_neg h, noted?]

theorem noted?_annotate_self {node : Node} (hnode : t.node? id = some node) :
    (t.annotate id f).noted? part id = part (f node.note) := by
  rw [noted?, node?_annotate, if_pos rfl, hnode]
  rfl

/-- A note that leaves the part alone. -/
theorem noted?_annotate_of_eq
    (hf : ∀ node, t.node? id = some node → part (f node.note) = part node.note) (q : NodeId) :
    (t.annotate id f).noted? part q = t.noted? part q := by
  by_cases hq : q = id
  · subst hq
    cases hnode : t.node? q with
    | none => rw [noted?, node?_annotate, if_pos rfl, noted?, hnode, Option.map_none]
    | some node => rw [noted?_annotate_self hnode, hf node hnode, noted?_of_node? hnode]
  · exact noted?_annotate_of_ne hq

end Annotate

/-- Copies have no notes, and all else is as it was. -/
theorem Copied.noted? {α : Type} {part : Annotation → Option α} (h : t.Copied t' ids tops)
    (hpart : part {} = none) (id : NodeId) : t'.noted? part id = t.noted? part id := by
  rw [Tree.noted?, Tree.noted?]
  by_cases hid : id.index < t.size
  · rw [h.grows.node? hid]
  · have hold : t.node? id = none := Option.eq_none_iff_forall_ne_some.mpr fun node hnode =>
      hid (lt_size_of_node? hnode)
    rw [hold]
    cases hnew : t'.node? id with
    | none => rfl
    | some node =>
      rw [Option.bind_some, (h.fresh (Nat.le_of_not_lt hid) hnew).1]
      exact hpart

/-- What is below the nodes of the area is in the area. -/
def Encloses (t : Tree) (area : Set NodeId) : Prop :=
  ∀ id ∈ area, ∃ node, t.node? id = some node ∧ ∀ c ∈ node.kind.children, c ∈ area

theorem Extends.encloses {area : Set NodeId} (h : t.Extends t') (ht : t.Encloses area) :
    t'.Encloses area := by
  intro id hid
  obtain ⟨node, hnode, hchildren⟩ := ht id hid
  obtain ⟨node', hnode', hkind, -⟩ := h.node? hnode
  exact ⟨node', hnode', hkind ▸ hchildren⟩

/-- No symbol is noted on the node, nor in the area below it. -/
structure Untouched (t : Tree) (id : NodeId) (area : Set NodeId) : Prop where
  here : t.noted? (·.symbol) id = none
  notMem : id ∉ area
  children : ∀ node, t.node? id = some node → ∀ c ∈ node.kind.children, c ∈ area
  encloses : t.Encloses area
  below : ∀ c ∈ area, t.noted? (·.symbol) c = none

theorem Copied.untouched (h : t.Copied t' ids tops) {top : NodeId} (htop : top ∈ tops) :
    ∃ area, t'.Untouched top area := by
  obtain ⟨hle, hlt⟩ := h.lt_size top htop
  have hblank : ∀ {c : NodeId}, t.size ≤ c.index → t'.noted? (·.symbol) c = none := by
    intro c hc
    rw [h.noted? rfl]
    exact Option.bind_eq_none_iff.mpr fun node hnode =>
      absurd (lt_size_of_node? hnode) (Nat.not_lt.mpr hc)
  refine ⟨{c | t.size ≤ c.index ∧ c.index < top.index}, hblank hle, fun hmem =>
    Nat.lt_irrefl _ hmem.2, fun node hnode => (h.fresh hle hnode).2, fun id ⟨hid, hbefore⟩ => ?_,
    fun c hc => hblank hc.1⟩
  obtain ⟨node, hnode⟩ := exists_node? (Nat.lt_trans hbefore hlt)
  refine ⟨node, hnode, fun c hc => ?_⟩
  obtain ⟨hfrom, hto⟩ := (h.fresh hid hnode).2 c hc
  exact ⟨hfrom, Nat.lt_trans hto hbefore⟩

namespace Copied

theorem nil : t.Copied t [] [] :=
  ⟨.refl, rfl, fun _ _ _ h => by simp at h, fun _ h => by simp at h, fun h hnode => by
    have := lt_size_of_node? hnode
    omega⟩

/-- One copy after the other. -/
theorem cons (ht : t.Closed) {id top : NodeId} {ids tops : List NodeId}
    (hids : ∀ c ∈ ids, c.index < t.size) (h : t.Copied t' [id] [top])
    (h' : t'.Copied t'' ids tops) : t.Copied t'' (id :: ids) (top :: tops) where
  grows := h.grows.trans h'.grows
  length_eq := by simp [h'.length_eq]
  alike i c c' hc hc' := by
    cases i with
    | zero =>
      cases hc
      cases hc'
      exact (h.alike 0 _ _ rfl rfl).extends_right h'.grows.extends
    | succ i =>
      have hlt := hids c (List.mem_of_getElem? hc)
      exact .of_grows ht h.grows hlt (h'.alike i c c' hc hc')
  lt_size c hc := by
    have hsize := h.grows.size_le
    rcases List.mem_cons.mp hc with rfl | hc
    · have := h.lt_size _ List.mem_cons_self
      have := h'.grows.size_le
      omega
    · have := h'.lt_size c hc
      omega
  fresh {c node} hc hnode := by
    by_cases hlt : c.index < t'.size
    · rw [h'.grows.node? hlt] at hnode
      exact h.fresh hc hnode
    · obtain ⟨hnote, hchildren⟩ := h'.fresh (Nat.le_of_not_lt hlt) hnode
      refine ⟨hnote, fun c' hc' => ?_⟩
      have := hchildren c' hc'
      have := h.grows.size_le
      omega

/-- The copy of a node comes after the copies of its children. -/
theorem push {id : NodeId} {node : Node} {tops : List NodeId} (hnode : t.node? id = some node)
    (h : t.Copied t' node.kind.children tops) :
    t.Copied (t'.push (node.kind.withChildren tops) node.span).2 [id] [⟨t'.size⟩] := by
  have hgrows := Grows.push (t := t') (node.kind.withChildren tops) node.span
  have hchildren := NodeKind.children_withChildren h.length_eq
  have htop : (t'.push (node.kind.withChildren tops) node.span).2.node? ⟨t'.size⟩ =
      some { kind := node.kind.withChildren tops, span := node.span } := by
    rw [node?_push, if_pos rfl]
  refine ⟨h.grows.trans hgrows, rfl, fun i c c' hc hc' => ?_, fun c hc => ?_,
    fun {c other} hc hother => ?_⟩
  · obtain ⟨rfl, rfl⟩ : i = 0 ∧ id = c := by
      cases i <;> simp_all
    cases hc'
    refine .node hnode htop rfl (NodeKind.shape_withChildren h.length_eq) ?_ fun i c c' hc hc' => ?_
    · rw [hchildren, h.length_eq]
    · rw [hchildren] at hc'
      exact (h.alike i c c' hc hc').extends_right hgrows.extends
  · rw [List.mem_singleton.mp hc, size_push]
    exact ⟨h.grows.size_le, Nat.lt_succ_self _⟩
  · rw [node?_push] at hother
    split at hother
    next heq =>
      cases hother
      refine ⟨rfl, fun c' hc' => ?_⟩
      rw [hchildren] at hc'
      rw [heq]
      exact h.lt_size c' hc'
    next => exact h.fresh hc hother

end Copied

theorem run_copyWithin (fuel : Nat) (id : NodeId) (t : Tree) :
    (copyWithin (fuel + 1) id).run t = (t.read id).bind fun node =>
      ((node.kind.children.mapM (copyWithin fuel)).run t).map fun copies =>
        copies.2.push (node.kind.withChildren copies.1) node.span := by
  simp only [copyWithin, StateT.run_bind, StateT.run_get, StateT.run_monadLift, pure_bind,
    bind_assoc]
  cases t.read id <;> rfl

theorem run_mapM_copyWithin_cons (fuel : Nat) (id : NodeId) (ids : List NodeId) (t : Tree) :
    ((id :: ids).mapM (copyWithin fuel)).run t = ((copyWithin fuel id).run t).bind fun copy =>
      ((ids.mapM (copyWithin fuel)).run copy.2).map fun copies =>
        (copy.1 :: copies.1, copies.2) := by
  rw [List.mapM_cons, StateT.run_bind]
  cases (copyWithin fuel id).run t with
  | error halt => rfl
  | ok copy =>
    simp only [StateT.run_bind]
    rfl

/-- Copying subtrees of a closed tree gives copies, or fails because a chain is too long. -/
theorem copied_of_copyWithin : ∀ (fuel : Nat) {t : Tree} {id : NodeId}, t.Closed →
    id.index < t.size → match (copyWithin fuel id).run t with
      | .ok (top, t') => t.Copied t' [id] [top]
      | .error halt => halt = .exhausted
  | 0, t, id, _, _ => rfl
  | fuel + 1, t, id, ht, hid => by
    have hlist : ∀ (ids : List NodeId) {t : Tree}, t.Closed → (∀ c ∈ ids, c.index < t.size) →
        match (ids.mapM (copyWithin fuel)).run t with
        | .ok (tops, t') => t.Copied t' ids tops
        | .error halt => halt = .exhausted := by
      intro ids
      induction ids with
      | nil => exact fun _ _ => .nil
      | cons c rest ih =>
        intro t ht hids
        have hfirst := copied_of_copyWithin fuel ht (hids c List.mem_cons_self)
        rw [run_mapM_copyWithin_cons]
        cases hrun : (copyWithin fuel c).run t with
        | error halt => rwa [hrun] at hfirst
        | ok copy =>
          rw [hrun] at hfirst
          have hin : ∀ c' ∈ rest, c'.index < t.size := fun c' hc' =>
            hids c' (List.mem_cons_of_mem _ hc')
          have hrest := ih (hfirst.closed ht) fun c' hc' =>
            Nat.lt_of_lt_of_le (hin c' hc') hfirst.grows.size_le
          cases hrun' : (rest.mapM (copyWithin fuel)).run copy.2 with
          | error halt =>
            rw [hrun'] at hrest
            simpa only [Except.bind, hrun', Except.map] using hrest
          | ok copies =>
            rw [hrun'] at hrest
            simpa only [Except.bind, hrun', Except.map] using hfirst.cons ht hin hrest
    obtain ⟨node, hnode⟩ := exists_node? hid
    have hchildren := hlist node.kind.children ht (ht hnode)
    rw [run_copyWithin, read, hnode]
    cases hrun : (node.kind.children.mapM (copyWithin fuel)).run t with
    | error halt =>
      rw [hrun] at hchildren
      simpa only [Except.bind, hrun, Except.map] using hchildren
    | ok copies =>
      rw [hrun] at hchildren
      simp only [Except.bind, hrun, Except.map]
      exact hchildren.push hnode

/-- Only a node of the arena is copied. -/
theorem lt_size_of_copySubtree (h : t.copySubtree id spare = .ok (top, t')) :
    id.index < t.size := by
  rw [copySubtree, show t.size + 1 + spare = t.size + spare + 1 by omega, run_copyWithin] at h
  cases hnode : t.node? id with
  | none =>
    rw [read, hnode] at h
    cases h
  | some node => exact lt_size_of_node? hnode

/-- Copying a subtree of a closed tree gives a copy, or fails because a chain is too long. -/
theorem copied_of_copySubtree (ht : t.Closed) (h : t.copySubtree id spare = .ok (top, t')) :
    t.Copied t' [id] [top] := by
  have hcopied := copied_of_copyWithin (t.size + 1 + spare) ht (lt_size_of_copySubtree h)
  rw [copySubtree] at h
  rwa [h] at hcopied

theorem eq_exhausted_of_copySubtree {halt : Halt} (ht : t.Closed) (hid : id.index < t.size)
    (h : t.copySubtree id spare = .error halt) : halt = .exhausted := by
  have hfailed := copied_of_copyWithin (t.size + 1 + spare) ht hid
  rw [copySubtree] at h
  rwa [h] at hfailed

/-! ### Going through a subtree -/

section

variable {α β ε : Type} {f : α → Except ε β}

theorem mapM_eq_ok_iff : ∀ {items : List α} {results : List β},
    items.mapM f = .ok results ↔ List.Forall₂ (fun a b => f a = .ok b) items results
  | [], results => by
    rw [List.mapM_nil, List.forall₂_nil_left_iff]
    exact ⟨fun h => by cases h; rfl, fun h => h ▸ rfl⟩
  | a :: rest, results => by
    rw [List.mapM_cons, List.forall₂_cons_left_iff]
    constructor
    · intro h
      cases hfirst : f a with
      | error e =>
        rw [hfirst] at h
        cases h
      | ok b =>
        rw [hfirst] at h
        cases hrest : rest.mapM f with
        | error e =>
          rw [hrest] at h
          cases h
        | ok bs =>
          rw [hrest] at h
          cases h
          exact ⟨b, bs, rfl, mapM_eq_ok_iff.mp hrest, rfl⟩
    · rintro ⟨b, bs, hb, hbs, rfl⟩
      rw [hb, mapM_eq_ok_iff.mpr hbs]
      rfl

theorem exists_of_mapM_eq_error {items : List α} {e : ε} (h : items.mapM f = .error e) :
    ∃ a ∈ items, f a = .error e := by
  induction items with
  | nil => cases h
  | cons a rest ih =>
    rw [List.mapM_cons] at h
    cases hfirst : f a with
    | error e' =>
      rw [hfirst] at h
      cases h
      exact ⟨a, List.mem_cons_self, hfirst⟩
    | ok b =>
      rw [hfirst] at h
      cases hrest : rest.mapM f with
      | error e' =>
        rw [hrest] at h
        cases h
        obtain ⟨a', ha', h'⟩ := ih hrest
        exact ⟨a', List.mem_cons_of_mem _ ha', h'⟩
      | ok bs =>
        rw [hrest] at h
        cases h

end

theorem read_of_node? (h : t.node? id = some node) : t.read id = .ok node := by
  rw [Tree.read, h]

theorem preorder_succ_iff {fuel : Nat} : t.preorder (fuel + 1) id = .ok ids ↔
    ∃ node parts, t.node? id = some node ∧
      List.Forall₂ (fun c part => t.preorder fuel c = .ok part) node.kind.children parts ∧
        ids = id :: parts.flatten := by
  rw [preorder, Tree.read]
  cases hnode : t.node? id with
  | none => exact ⟨nofun, fun ⟨_, _, h, _⟩ => nomatch h⟩
  | some node =>
    cases hparts : node.kind.children.mapM (t.preorder fuel) with
    | error halt =>
      refine ⟨fun h => ?_, fun ⟨_, parts, h, hall, _⟩ => ?_⟩
      · simp [hparts, bind, Except.bind] at h
      · cases h
        cases (mapM_eq_ok_iff.mpr hall).symm.trans hparts
    | ok parts =>
      refine ⟨fun h => ?_, fun ⟨_, parts', h, hall, hids⟩ => ?_⟩
      · simp only [hparts, bind, Except.bind] at h
        cases h
        exact ⟨node, parts, rfl, mapM_eq_ok_iff.mp hparts, rfl⟩
      · cases h
        cases (mapM_eq_ok_iff.mpr hall).symm.trans hparts
        simp only [hparts, bind, Except.bind, hids]
        rfl

/-- A walk only comes to nodes that are in the tree. -/
theorem lt_size_of_mem_preorder : ∀ (fuel : Nat) {id : NodeId} {ids : List NodeId},
    t.preorder fuel id = .ok ids → ∀ c ∈ ids, c.index < t.size
  | fuel + 1, id, ids, h => by
    obtain ⟨node, parts, hnode, hparts, rfl⟩ := preorder_succ_iff.mp h
    refine List.forall_mem_cons.mpr ⟨lt_size_of_node? hnode, ?_⟩
    clear hnode h
    generalize node.kind.children = children at hparts
    induction hparts with
    | nil => exact nofun
    | cons hpart _ ih =>
      exact List.forall_mem_append.mpr ⟨lt_size_of_mem_preorder fuel hpart, ih⟩

/-- From a node of a closed tree, a walk halts only if a chain of nodes is too long. -/
theorem eq_exhausted_of_preorder (ht : t.Closed) : ∀ (fuel : Nat) {id : NodeId} {halt : Halt},
    id.index < t.size → t.preorder fuel id = .error halt → halt = .exhausted
  | 0, _, _, _, h => by
    cases h
    rfl
  | fuel + 1, id, halt, hid, h => by
    obtain ⟨node, hnode⟩ := exists_node? hid
    rw [preorder, read_of_node? hnode] at h
    cases hbelow : node.kind.children.mapM (t.preorder fuel) with
    | error halt' =>
      simp only [hbelow, bind, Except.bind] at h
      cases h
      obtain ⟨child, hchild, herror⟩ := exists_of_mapM_eq_error hbelow
      exact eq_exhausted_of_preorder ht fuel (ht hnode child hchild) herror
    | ok below =>
      simp only [hbelow, bind, Except.bind] at h
      cases h

end Tree

end Scoping
