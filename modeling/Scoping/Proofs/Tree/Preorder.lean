import Mathlib.Data.List.Forall2
import Mathlib.Data.Fintype.Card
import Scoping.Proofs.Tree.Copy
import Scoping.Proofs.Tree.Walked

/-!
# Copies node by node

A subtree is listed parents first and copied children first, a shared node once for every way that
leads to it. `Tree.copySubtree_exact` compares the two: where links do not lead outside the arena or
in a circle, the listing of the copy matches the listing of the subtree, position by position, and
consists of the nodes that were appended, each of them once.
-/

namespace Scoping

namespace Tree

variable {t t₀ t' t'' : Tree} {fuel : Nat} {id c : NodeId} {ids ids' copies copies' : List NodeId}

/-! ### Subtrees without cycles -/

/-- The second node is the first one or below it. -/
abbrev Below (t : Tree) : NodeId → NodeId → Prop := t.Leads fun _ => true

/-- The second node is a child of the first. -/
def Link (t : Tree) (id c : NodeId) : Prop :=
  ∃ node, t.node? id = some node ∧ c ∈ node.kind.children

/-- Below a node, links stay inside the arena and never lead back. -/
structure Acyclic (t : Tree) (id : NodeId) : Prop where
  inside : ∀ {c}, t.Below id c → c.index < t.size
  forward : ∀ {c child}, t.Below id c → t.Link c child → ¬ t.Below child c

theorem Below.step (h : t.Link id c) {d : NodeId} (hd : t.Below c d) : t.Below id d := by
  obtain ⟨node, hnode, hc⟩ := h
  exact .down hnode rfl hc hd

theorem Below.link (h : t.Below id c) {d : NodeId} (hd : t.Link c d) : t.Below id d := by
  induction h with
  | here id => exact .step hd (.here d)
  | down hnode hthrough hchild _ ih => exact .down hnode hthrough hchild (ih hd)

theorem Acyclic.child (h : t.Acyclic id) (hc : t.Link id c) : t.Acyclic c :=
  ⟨fun hd => h.inside (.step hc hd), fun hd => h.forward (.step hc hd)⟩

/-- The nodes of an arena, without repetition, are not more than its size. -/
theorem length_le_size {path : List NodeId} (hnodup : path.Nodup)
    (hinside : ∀ p ∈ path, p.index < t.size) : path.length ≤ t.size := by
  have hinj : Function.Injective NodeId.index := fun a b h => by cases a; cases b; cases h; rfl
  have hsub : path.map NodeId.index ⊆ List.range t.size := by
    intro i hi
    obtain ⟨p, hp, rfl⟩ := List.mem_map.mp hi
    exact List.mem_range.mpr (hinside p hp)
  simpa using ((hnodup.map hinj).subperm hsub).length_le

/-- A walk down from a node without cycles below it ends: the nodes on the way to where it is are
all different, so that there are not more of them than the arena has. -/
theorem exists_preorder (fuel : Nat) : ∀ {path : List NodeId} {id : NodeId}, path.Nodup →
    (∀ p ∈ path, p.index < t.size ∧ ∃ c, t.Link p c ∧ t.Below c id) → t.Acyclic id →
    t.size < path.length + fuel → ∃ ids, t.preorder fuel id = .ok ids := by
  induction fuel with
  | zero =>
    intro path id hnodup hpath _ hfuel
    have hlength := length_le_size hnodup fun p hp => (hpath p hp).1
    omega
  | succ fuel ih =>
    intro path id hnodup hpath hid hfuel
    have hinside := hid.inside (.here id)
    obtain ⟨node, hnode⟩ := exists_node? hinside
    have hnew : id ∉ path := fun hmem => by
      obtain ⟨c, hc, hback⟩ := (hpath id hmem).2
      exact hid.forward (.here id) hc hback
    have hchildren : ∀ c ∈ node.kind.children, ∃ ids, t.preorder fuel c = .ok ids := by
      intro c hc
      have hlink : t.Link id c := ⟨node, hnode, hc⟩
      refine ih (List.nodup_cons.mpr ⟨hnew, hnodup⟩) (List.forall_mem_cons.mpr
        ⟨⟨hinside, c, hlink, .here c⟩, fun p hp => ?_⟩) (hid.child hlink) (by simp; omega)
      obtain ⟨hp, first, hfirst, hbelow⟩ := hpath p hp
      exact ⟨hp, first, hfirst, hbelow.link hlink⟩
    obtain ⟨parts, hparts⟩ : ∃ parts, node.kind.children.mapM (t.preorder fuel) = .ok parts := by
      cases hrun : node.kind.children.mapM (t.preorder fuel) with
      | ok parts => exact ⟨parts, rfl⟩
      | error halt =>
        obtain ⟨c, hc, herror⟩ := exists_of_mapM_eq_error hrun
        obtain ⟨ids, hids⟩ := hchildren c hc
        cases hids.symm.trans herror
    exact ⟨_, preorder_succ_iff.mpr ⟨node, parts, hnode, mapM_eq_ok_iff.mp hparts, rfl⟩⟩

theorem Acyclic.preorder (h : t.Acyclic id) (hfuel : t.size < fuel) :
    ∃ ids, t.preorder fuel id = .ok ids :=
  exists_preorder fuel List.nodup_nil (by simp) h (by simpa using hfuel)

/-! ### Listings -/

/-- A listing stays the same when nodes are appended, and along longer chains. -/
theorem Grows.preorder (h : t.Grows t') : ∀ {fuel fuel' : Nat} {id : NodeId} {ids : List NodeId},
    fuel ≤ fuel' → t.preorder fuel id = .ok ids → t'.preorder fuel' id = .ok ids
  | fuel + 1, fuel' + 1, id, ids, hle, hids => by
    obtain ⟨node, parts, hnode, hparts, rfl⟩ := preorder_succ_iff.mp hids
    refine preorder_succ_iff.mpr ⟨node, parts, h.node?_eq_some hnode, ?_, rfl⟩
    exact hparts.imp fun c part hpart => h.preorder (Nat.le_of_succ_le_succ hle) hpart
  | fuel + 1, 0, _, _, hle, _ => absurd hle (Nat.not_succ_le_zero fuel)

/-- Two nodes have the same span and the same payload but for their children. -/
def Twin (t t' : Tree) (id id' : NodeId) : Prop :=
  ∃ node node', t.node? id = some node ∧ t'.node? id' = some node' ∧
    node'.kind.shape = node.kind.shape ∧ node'.span = node.span

/-- From `t` to `t'` nodes are appended, without annotations, that match nodes of `t₀` one by
one. -/
structure Doubles (t₀ t t' : Tree) (ids copies : List NodeId) : Prop where
  grows : t.Grows t'
  twins : List.Forall₂ (t₀.Twin t') ids copies
  fresh : copies.Perm ((List.range' t.size ids.length).map NodeId.mk)
  size_eq : t'.size = t.size + ids.length
  note : ∀ {c node}, t.size ≤ c.index → t'.node? c = some node → node.note = {}

namespace Doubles

theorem nil : Doubles t₀ t t [] [] :=
  ⟨.refl, .nil, .nil, rfl, fun hc hnode => absurd (lt_size_of_node? hnode) (Nat.not_lt.mpr hc)⟩

theorem append (h : Doubles t₀ t t' ids copies) (h' : Doubles t₀ t' t'' ids' copies') :
    Doubles t₀ t t'' (ids ++ ids') (copies ++ copies') where
  grows := h.grows.trans h'.grows
  twins := by
    refine List.rel_append (h.twins.imp fun a b hab => ?_) h'.twins
    obtain ⟨node, node', hnode, hnode', hsame⟩ := hab
    exact ⟨node, node', hnode, h'.grows.node?_eq_some hnode', hsame⟩
  fresh := by
    have hrange : List.range' t.size (ids ++ ids').length =
        List.range' t.size ids.length ++ List.range' t'.size ids'.length := by
      rw [List.length_append, h.size_eq, List.range'_append_1]
    rw [hrange, List.map_append]
    exact h.fresh.append h'.fresh
  size_eq := by rw [h'.size_eq, h.size_eq, List.length_append, Nat.add_assoc]
  note {c node} hc hnode := by
    by_cases hlt : c.index < t'.size
    · exact h.note hc ((h'.grows.node? hlt).symm.trans hnode)
    · exact h'.note (Nat.le_of_not_lt hlt) hnode

/-- The copy of a node is appended after those of the nodes below. -/
theorem push {node : Node} {kind : NodeKind} (h : Doubles t₀ t t' ids copies)
    (hnode : t₀.node? id = some node) (hkind : kind.shape = node.kind.shape) :
    Doubles t₀ t (t'.push kind node.span).2 (id :: ids) (⟨t'.size⟩ :: copies) := by
  have hlast : Doubles t₀ t' (t'.push kind node.span).2 [id] [⟨t'.size⟩] := by
    have htop : (t'.push kind node.span).2.node? ⟨t'.size⟩ = some { kind, span := node.span } := by
      rw [node?_push, if_pos rfl]
    refine ⟨.push _ _, .cons ⟨node, _, hnode, htop, hkind, rfl⟩ .nil, .refl _, size_push _ _,
      fun {c other} hc hother => ?_⟩
    rw [node?_push] at hother
    split at hother
    · cases hother
      rfl
    · exact absurd (lt_size_of_node? hother) (Nat.not_lt.mpr hc)
  obtain ⟨hgrows, htwins, hfresh, hsize, hnote⟩ := h.append hlast
  have hlength : (id :: ids).length = (ids ++ [id]).length := by simp
  refine ⟨hgrows, .cons ?_ ?_, ?_, hlength ▸ hsize, hnote⟩
  · exact (List.forall₂_cons.mp hlast.twins).1
  · exact h.twins.imp fun a b ⟨node, node', ha, hb, hsame⟩ =>
      ⟨node, node', ha, hlast.grows.node?_eq_some hb, hsame⟩
  · rw [hlength]
    exact (List.perm_append_singleton _ _).symm.trans hfresh

end Doubles

/-- Copying doubles what is listed, and the copy is listed in the same order. -/
theorem doubles_of_preorder : ∀ {fuel : Nat} {t : Tree} {id : NodeId} {ids : List NodeId},
    t₀.Grows t → t₀.preorder fuel id = .ok ids → ∃ top t' copies,
      (copyWithin fuel id).run t = .ok (top, t') ∧ Doubles t₀ t t' ids copies ∧
        t'.preorder fuel top = .ok copies ∧ top.index + 1 = t'.size
  | fuel + 1, t, id, ids, ht, hids => by
    have hlist : ∀ {items : List NodeId} {parts : List (List NodeId)} {t : Tree}, t₀.Grows t →
        List.Forall₂ (fun c part => t₀.preorder fuel c = .ok part) items parts →
        ∃ tops t' copies, (items.mapM (copyWithin fuel)).run t = .ok (tops, t') ∧
          tops.length = items.length ∧ Doubles t₀ t t' parts.flatten copies.flatten ∧
            List.Forall₂ (fun top copy => t'.preorder fuel top = .ok copy) tops copies := by
      intro items parts t ht hparts
      induction hparts generalizing t with
      | nil => exact ⟨[], t, [], rfl, rfl, .nil, .nil⟩
      | @cons c part items parts hpart _ ih =>
        obtain ⟨top, t₁, copy, hrun, hdoubles, hcopy, -⟩ := doubles_of_preorder ht hpart
        obtain ⟨tops, t₂, copies, hruns, hlength, hrest, hcopies⟩ := ih (ht.trans hdoubles.grows)
        refine ⟨top :: tops, t₂, copy :: copies, ?_, by simp [hlength], hdoubles.append hrest,
          .cons (hrest.grows.preorder (Nat.le_refl _) hcopy) hcopies⟩
        rw [run_mapM_copyWithin_cons, hrun]
        simp only [Except.bind, hruns, Except.map]
    obtain ⟨node, parts, hnode, hparts, rfl⟩ := preorder_succ_iff.mp hids
    obtain ⟨tops, t', copies, hrun, hlength, hdoubles, hcopies⟩ := hlist ht hparts
    have hpush := hdoubles.push hnode (NodeKind.shape_withChildren hlength)
    refine ⟨⟨t'.size⟩, _, _, ?_, hpush, ?_, (size_push _ _).symm⟩
    · rw [run_copyWithin, read_of_node? (ht.node?_eq_some hnode)]
      simp only [Except.bind, hrun, Except.map]
      rfl
    · refine preorder_succ_iff.mpr ⟨_, copies, by rw [node?_push, if_pos rfl], ?_, rfl⟩
      rw [NodeKind.children_withChildren hlength]
      exact hcopies.imp fun _ _ => (Grows.push _ _).preorder (Nat.le_refl _)

/-- A subtree without cycles is copied exactly: no node that was there changes, one node is appended
for every position in the listing of the subtree, the top last and none with an annotation, and the
copy is listed with the same spans and the same payloads but for the children, each position with a
new node of its own. -/
theorem copySubtree_exact (spare : Nat) (h : t.Acyclic id) :
    ∃ ids top t' copies, t.descendants id spare = .ok ids ∧
      t.copySubtree id spare = .ok (top, t') ∧ t.Grows t' ∧ t'.size = t.size + ids.length ∧
      top.index + 1 = t'.size ∧ t'.descendants top spare = .ok copies ∧
      List.Forall₂ (t.Twin t') ids copies ∧ (∀ c ∈ copies, t.size ≤ c.index) ∧ copies.Nodup ∧
      ∀ c node, t.size ≤ c.index → t'.node? c = some node → node.note = {} := by
  obtain ⟨ids, hids⟩ : ∃ ids, t.preorder (t.size + 1 + spare) id = .ok ids := h.preorder (by omega)
  obtain ⟨top, t', copies, hrun, hdoubles, hcopies, htop⟩ := doubles_of_preorder .refl hids
  have hsize := hdoubles.grows.size_le
  refine ⟨ids, top, t', copies, hids, hrun, hdoubles.grows, hdoubles.size_eq, htop,
    Grows.refl.preorder (by omega) hcopies, hdoubles.twins, fun c hc => ?_, ?_,
    fun _ _ => hdoubles.note⟩
  · obtain ⟨i, hi, rfl⟩ := List.mem_map.mp (hdoubles.fresh.mem_iff.mp hc)
    exact (List.mem_range'_1.mp hi).1
  · exact hdoubles.fresh.nodup_iff.mpr (.map (fun a b => NodeId.mk.inj) List.nodup_range')

/-- Links to earlier nodes do not lead back. -/
theorem acyclic_of_descending (hid : id.index < t.size)
    (h : ∀ {c d}, t.Link c d → d.index < c.index) : t.Acyclic id := by
  have hle : ∀ {c d}, t.Below c d → d.index ≤ c.index := by
    intro c d hd
    induction hd with
    | here => exact Nat.le_refl _
    | down hnode _ hchild _ ih => exact ih.trans (h ⟨_, hnode, hchild⟩).le
  exact ⟨fun hc => (hle hc).trans_lt hid, fun _ hlink hback => (h hlink).not_ge (hle hback)⟩

/-- `1 + 1`, with one node for both operands. -/
def sharedOperand : Tree where
  file := "a.phs"
  nodes := #[{ kind := .literal (.int 1) }, { kind := .binary "+" ⟨0⟩ ⟨0⟩ }]

/-- The copy has two operands of its own. -/
theorem copySubtree_exact_sharedOperand :
    sharedOperand.descendants ⟨1⟩ = .ok [⟨1⟩, ⟨0⟩, ⟨0⟩] ∧
      ∃ top t', sharedOperand.copySubtree ⟨1⟩ = .ok (top, t') ∧ t'.size = 5 ∧ top = ⟨4⟩ := by
  have hacyclic : sharedOperand.Acyclic ⟨1⟩ := by
    refine acyclic_of_descending (by decide) ?_
    rintro ⟨_ | _ | n⟩ d ⟨node, hnode, hd⟩ <;> cases hnode
    · cases hd
    · rcases List.mem_pair.mp hd with rfl | rfl <;> exact Nat.zero_lt_one
  obtain ⟨ids, top, t', copies, hids, hcopy, -, hsize, htop, -⟩ := copySubtree_exact 0 hacyclic
  cases hids
  refine ⟨rfl, top, t', hcopy, hsize, ?_⟩
  cases top
  simp_all [sharedOperand, size]

end Tree

end Scoping
