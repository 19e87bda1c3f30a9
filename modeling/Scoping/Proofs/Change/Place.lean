import Mathlib.Data.List.Find
import Scoping.Proofs.Change.Hierarchy
import Scoping.Reference.Walk

/-!
# What a reference may be bound to

Some references are only bound on conditions (`NodeKind.Suits`): `new` to a class of which objects
can be made, or else an error is reported, and `this` to the class in which it stands, if the
nearest function that is not an expression is not static there. A condition that is met once stays
met: whether a class is abstract is settled when it has been resolved (`Graph.Settles`), and where a
node stands (`Tree.Placed`) is a matter of the symbols that are noted on the classes and functions
around it, which the second walk does not replace (`Analysis.Firm`). So the conditions are met for
all references that have been bound since the beginning, provided that they are met by each
reference when it gets bound (`Analysis.Suited`), for no other part of an analysis binds references
(`Analysis.Spares`).
-/

namespace Scoping

/-- Does a node refer to a symbol that is declared elsewhere? -/
def NodeKind.isReference : NodeKind → Bool
  | .name _ | .new .. | .member .. | .this | .selfRef | .super => true
  | _ => false

theorem NodeKind.fits_of_isReference {kind : NodeKind} (h : kind.isReference = true) (g : Graph)
    (x : SymbolId) : kind.Fits g (some x) := by
  cases kind with
  | name | new | member | this | selfRef | super => rfl
  | _ => cases h

theorem NodeKind.isFrame_of_isReference {kind : NodeKind} (h : kind.isReference = true) :
    kind.isFrame = false ∧ kind.isDeclaration = false := by
  cases kind with
  | name | new | member | this | selfRef | super => exact ⟨rfl, rfl⟩
  | _ => cases h

/-! ### Conditions -/

namespace Graph

variable {g g' : Graph} {x : SymbolId}

/-- A class of which it is settled that it is not abstract. -/
structure Instantiable (g : Graph) (x : SymbolId) : Prop where
  kind : (g.symbol x).kind = .cls
  settled : (g.symbol x).data.resolution? ≠ some .unresolved
  concrete : g.isAbstract x = false

theorem Instantiable.settles (h : g.Instantiable x) (hsettles : g.Settles g')
    (hkind : (g'.symbol x).kind = (g.symbol x).kind) : g'.Instantiable x := by
  obtain ⟨r, hr⟩ : ∃ r, (g.symbol x).data.resolution? = some r := by
    have hcls := h.kind
    rw [Symbol.kind] at hcls
    cases hdata : (g.symbol x).data with
    | cls data => exact ⟨_, rfl⟩
    | _ =>
      rw [hdata] at hcls
      cases hcls
  have hne : r ≠ .unresolved := fun heq => h.settled (hr.trans (congrArg some heq))
  obtain ⟨hr', habstract⟩ := hsettles x _ hr hne
  refine ⟨hkind.trans h.kind, fun hunresolved => hne ?_, habstract.trans h.concrete⟩
  exact Option.some.inj (hr'.symm.trans hunresolved)

/-- The first function that is not an expression. -/
def named? (g : Graph) (functions : List SymbolId) : Option SymbolId :=
  functions.find? fun f => (g.symbol f).fn?.any fun data => !data.isExpr

end Graph

/-- The node stands in a class, or in none, and inside that class in some functions, innermost
first. These are the symbols noted on the nodes around it. A class is entered by its members or by
what has been copied into its member scope. -/
inductive Tree.Placed (t : Tree) (g : Graph) : Option SymbolId → List SymbolId → NodeId → Prop where
  | root : Placed t g none [] t.root
  | member {cls : Option SymbolId} {functions : List SymbolId} {id c : NodeId} {node : Node}
    {k : SymbolId} {decl : ClassDecl} : Placed t g cls functions id → t.node? id = some node →
    node.kind = .classDecl decl → node.note.symbol = some k → c ∈ decl.members →
    Placed t g (some k) [] c
  | copy {cls : Option SymbolId} {functions : List SymbolId} {id c : NodeId} {node : Node}
    {k x : SymbolId} {decl : ClassDecl} {members : ScopeId} : Placed t g cls functions id →
    t.node? id = some node → node.kind = .classDecl decl → node.note.symbol = some k →
    (g.symbol k).members? = some members → g.Lodges members x → (g.symbol x).origin ≠ none →
    (g.symbol x).subtree? = some c → Placed t g (some k) [] c
  | inside {cls : Option SymbolId} {functions : List SymbolId} {id c : NodeId} {node : Node}
    {f : SymbolId} {decl : FnDecl} : Placed t g cls functions id → t.node? id = some node →
    node.kind = .fnDecl decl ∨ node.kind = .fnExpr decl → node.note.symbol = some f →
    f.index < g.symbols.size → c ∈ node.kind.children → Placed t g cls (f :: functions) c
  | child {cls : Option SymbolId} {functions : List SymbolId} {id c : NodeId} {node : Node} :
    Placed t g cls functions id → t.node? id = some node → node.kind.isFrame = false →
    c ∈ node.kind.children → Placed t g cls functions c

theorem NodeKind.isFrame_of_fn {kind : NodeKind} {decl : FnDecl}
    (h : kind = .fnDecl decl ∨ kind = .fnExpr decl) : kind.isFrame = true := by
  rcases h with rfl | rfl <;> rfl

namespace Analysis

/-- Classes and functions keep the symbols that are noted on them, and symbols stay where they
live. -/
structure Firm (s s' : Analysis) : Prop extends Advances s s' where
  frames : ∀ {id node x}, s.tree.node? id = some node → node.kind.isFrame = true →
    node.note.symbol = some x → s'.tree.noted? (·.symbol) id = some x
  lodges : ∀ {members x}, s.graph.Lodges members x → s'.graph.Lodges members x

theorem Firm.node? {s s' : Analysis} {id : NodeId} {node : Node} {x : SymbolId} (h : s.Firm s')
    (hnode : s.tree.node? id = some node) (hframe : node.kind.isFrame = true)
    (hx : node.note.symbol = some x) :
    ∃ node', s'.tree.node? id = some node' ∧ node'.kind = node.kind ∧
      node'.note.symbol = some x := by
  obtain ⟨node', hnode', hkind, -⟩ := h.tree.node? hnode
  exact ⟨node', hnode', hkind, (Tree.noted?_of_node? hnode').symm.trans (h.frames hnode hframe hx)⟩

theorem Firm.trans {s s' s'' : Analysis} (h : s.Firm s') (h' : s'.Firm s'') : s.Firm s'' where
  toAdvances := h.toAdvances.trans h'.toAdvances
  frames hnode hframe hx := by
    obtain ⟨node', hnode', hkind, hx'⟩ := h.node? hnode hframe hx
    exact h'.frames hnode' (hkind ▸ hframe) hx'
  lodges hx := h'.lodges (h.lodges hx)

end Analysis

namespace Tree.Placed

variable {s s' : Analysis} {cls : Option SymbolId} {functions : List SymbolId} {id : NodeId}

theorem firm (hid : s.tree.Placed s.graph cls functions id) (h : s.Firm s') :
    s'.tree.Placed s'.graph cls functions id := by
  induction hid with
  | root => exact h.tree.root ▸ .root
  | member _ hnode hkind hk hc ih =>
    obtain ⟨node', hnode', hsame, hk'⟩ := h.node? hnode (hkind ▸ rfl) hk
    exact .member ih hnode' (hsame.trans hkind) hk' hc
  | @copy _ _ _ _ _ k x _ members _ hnode hkind hk hmembers hx horigin hc ih =>
    obtain ⟨node', hnode', hsame, hk'⟩ := h.node? hnode (hkind ▸ rfl) hk
    have hhost := h.graph.endures
      (Graph.lt_size_of (P := (·.members? = some members)) hmembers nofun)
    have hlt := Graph.lt_size_of (P := (·.origin ≠ none)) horigin fun h => h rfl
    exact .copy ih hnode' (hsame.trans hkind) hk' (hhost.members?.trans hmembers) (h.lodges hx)
      ((h.graph.endures hlt).origin ▸ horigin) ((h.graph.subtree? hlt (.inr horigin)).trans hc)
  | inside _ hnode hkind hf hlt hc ih =>
    obtain ⟨node', hnode', hsame, hf'⟩ := h.node? hnode (NodeKind.isFrame_of_fn hkind) hf
    exact .inside ih hnode' (hsame ▸ hkind) hf' (Nat.lt_of_lt_of_le hlt h.graph.symbols_le)
      (hsame ▸ hc)
  | child _ hnode hframe hc ih =>
    obtain ⟨node', hnode', hsame, -⟩ := h.tree.node? hnode
    exact .child ih hnode' (hsame ▸ hframe) (hsame ▸ hc)

variable {t : Tree} {g g' : Graph}

theorem lt_size (h : t.Placed g cls functions id) : ∀ f ∈ functions, f.index < g.symbols.size := by
  induction h with
  | root | member | copy => exact nofun
  | inside _ _ _ _ hlt _ ih => exact List.forall_mem_cons.mpr ⟨hlt, ih⟩
  | child _ _ _ _ ih => exact ih

theorem named?_eq (h : t.Placed g cls functions id) (hg : g.Advances g') :
    g'.named? functions = g.named? functions := by
  refine List.find?_congr fun f hf => ?_
  have hsame := (hg.endures (h.lt_size f hf)).isExpr
  rw [Bool.eq_iff_iff]
  cases hfn : (g.symbol f).fn? <;> cases hfn' : (g'.symbol f).fn? <;> rw [hfn, hfn'] at hsame <;>
    simp_all

end Tree.Placed

/-- What must be so if a reference is bound to a symbol. -/
def NodeKind.Suits (aim : Analysis.Aim) (s : Analysis) (id : NodeId) (x : SymbolId) :
    NodeKind → Prop
  | .new .. => s.log.Clean → s.graph.Instantiable x
  | .this => aim.noted → ∃ functions, s.tree.Placed s.graph (some x) functions id ∧
    ∀ f, s.graph.named? functions = some f → (s.graph.symbol f).flags.isStatic = false
  | _ => True

namespace Analysis

variable {fine : Prop} {aim : Aim} {types : Set SymbolId} {area area' : Set NodeId}
  {given : Tree} {s s' s'' : Analysis} {id : NodeId}

theorem Suits.firm {kind : NodeKind} {x : SymbolId} (h : s.Firm s')
    (hsettles : s.graph.Settles s'.graph) (hid : kind.Suits aim s id x) :
    kind.Suits aim s' id x := by
  cases kind with
  | new =>
    intro hclean
    have hx := hid (h.clean hclean)
    exact hx.settles hsettles
      (h.graph.endures (Graph.lt_size_of (P := (·.kind = .cls)) hx.kind nofun)).kind
  | this =>
    intro hnoted
    obtain ⟨functions, hplaced, hstatic⟩ := hid hnoted
    refine ⟨functions, hplaced.firm h, fun f hf => ?_⟩
    rw [hplaced.named?_eq h.graph] at hf
    have hlt := hplaced.lt_size f (List.mem_of_find?_eq_some hf)
    exact (congrArg Graph.Core.isStatic (h.graph.endures hlt).core).trans (hstatic f hf)
  | _ => trivial

/-! ### References that are bound -/

/-- Symbols are only noted on declarations in the area. -/
def Spares (area : Set NodeId) (s s' : Analysis) : Prop :=
  ∀ id, s'.tree.noted? (·.symbol) id = s.tree.noted? (·.symbol) id ∨
    id ∈ area ∧ ∃ node, s'.tree.node? id = some node ∧ node.kind.isDeclaration = true

/-- The nodes on which no symbol is noted. -/
def blank (s : Analysis) : Set NodeId := {id | s.tree.noted? (·.symbol) id = none}

namespace Spares

protected theorem trans (h : s.Spares area s') (htree : s'.tree.Extends s''.tree)
    (harea : ∀ id, s'.tree.noted? (·.symbol) id = s.tree.noted? (·.symbol) id → id ∈ area' →
      id ∈ area)
    (h' : s'.Spares area' s'') : s.Spares area s'' := by
  intro id
  rcases h' id, h id with ⟨hsame' | ⟨hid', hdecl⟩, hsame | ⟨hid, node, hnode, hkind⟩⟩
  · exact .inl (hsame'.trans hsame)
  · obtain ⟨node', hnode', hsame, -⟩ := htree.node? hnode
    exact .inr ⟨hid, node', hnode', hsame ▸ hkind⟩
  · exact .inr ⟨harea id hsame hid', hdecl⟩
  · exact .inr ⟨hid, hdecl⟩

theorem of_noted (h : ∀ id, s'.tree.noted? (·.symbol) id = s.tree.noted? (·.symbol) id) :
    s.Spares area s' := fun id => .inl (h id)

/-- A declaration gets a note. -/
theorem annotate {node : Node} {f : Annotation → Annotation} (hid : id ∈ area)
    (hnode : s.tree.node? id = some node) (hkind : node.kind.isDeclaration = true) :
    s.Spares area { s with tree := s.tree.annotate id f } := by
  intro q
  by_cases hq : q = id
  · subst hq
    exact .inr ⟨hid, _, node?_annotate_self hnode _, hkind⟩
  · exact .inl (Tree.noted?_annotate_of_ne hq)

/-- Of a reference nothing is noted. -/
theorem noted?_eq {node : Node} (h : s.Spares area s') (hnode : s'.tree.node? id = some node)
    (hkind : node.kind.isReference = true) :
    s'.tree.noted? (·.symbol) id = s.tree.noted? (·.symbol) id := by
  refine (h id).resolve_right ?_
  rintro ⟨-, other, hother, hdecl⟩
  cases hnode.symm.trans hother
  rw [(NodeKind.isFrame_of_isReference hkind).2] at hdecl
  cases hdecl

end Spares

theorem Declares.spares (h : Declares fine area s s') (hs : s.graph.Coherent) (hfine : fine)
    (hintact : s.Intact) : s.Spares area s' := by
  induction h with
  | refl | graph | log => exact .of_noted fun _ => rfl
  | trans hfirst hlast ih ih' =>
    have hafter := (hfirst.onward hs fun _ => hintact).after
    have hadvances := (hlast.onward hafter.1 hafter.2).advances hfine
    exact (ih hs hintact).trans hadvances.tree (fun _ _ h => h) (ih' hafter.1 (hafter.2 hfine))
  | setScope => exact .of_noted (Tree.noted?_annotate_of_eq fun _ _ => rfl)
  | note hid hnode hdecl => exact .annotate (hid hfine) hnode hdecl

/-- The second walk notes symbols only on declarations that had none. -/
theorem Changes.spares (h : Changes aim types s s') (hs : s.graph.Coherent) (hfine : aim.fine)
    (hintact : s.Intact) : s.Spares s.blank s' := by
  have hblank : ∀ {s s' : Analysis} id, s'.tree.noted? (·.symbol) id = s.tree.noted? (·.symbol) id →
      id ∈ s'.blank → id ∈ s.blank := fun _ hsame hid => hsame.symm.trans hid
  have hcopy : ∀ {s s₁ s₂ : Analysis} {trait member copy : SymbolId} {name : String}
      {flags : Flags} {g : Graph}, s.graph.Coherent → s.Intact → Changes aim types s s₁ →
      s.Spares s.blank s₁ → Hierarchy.copyMember member trait name flags s₁ = .ok copy s₂ →
      s.Spares s.blank { s₂ with graph := g } := by
    intro s s₁ s₂ trait member copy name flags g hs hintact hfirst ih hcopy
    have hafter := (hfirst.onward hs fun _ => hintact).after
    have hmember := Hierarchy.copiedMember_of_copyMember (hafter.2 hfine) hcopy
    exact ih.trans hmember.advances.tree hblank (.of_noted (hmember.noted rfl))
  induction h with
  | refl | graph | conclude => exact .of_noted fun _ => rfl
  | trans hfirst hlast ih ih' =>
    have hafter := (hfirst.onward hs fun _ => hintact).after
    have hadvances := (hlast.onward hafter.1 hafter.2).advances hfine
    exact (ih hs hintact).trans hadvances.tree hblank (ih' hafter.1 (hafter.2 hfine))
  | declare h harea =>
    exact fun id => (h.spares hs hfine hintact id).imp_right fun hid =>
      hid.imp_left (harea hfine id)
  | adopt f hnode hkind hnone =>
    refine .annotate ?_ hnode (by rw [hkind]; rfl)
    exact (Tree.noted?_of_node? hnode).trans (hnone hfine)
  | defer => exact .of_noted (Tree.noted?_annotate_of_eq fun _ _ => rfl)
  | copyEntry _ hfirst hrun _ ih | copySlot _ _ hfirst hrun _ ih =>
    exact hcopy hs hintact hfirst (ih hs hintact) hrun

theorem Onward.firm (h : Onward fine types s s') (hfine : fine) (hspares : s.Spares s.blank s') :
    s.Firm s' where
  toAdvances := h.advances hfine
  frames {id _ _} hnode _ hx := by
    have hnoted := (Tree.noted?_of_node? hnode).trans hx
    refine ((hspares id).resolve_right fun hid => ?_).trans hnoted
    cases hid.1.symm.trans hnoted
  lodges := h.steps.lodges h.coherent

/-- All references that are bound meet their conditions, unless they were given as they are. -/
def Suited (aim : Aim) (given : Tree) (s : Analysis) : Prop :=
  ∀ id node x, s.tree.node? id = some node → node.kind.isReference = true →
    node.note.symbol = some x → given.noted? (·.symbol) id = some x ∨ node.kind.Suits aim s id x

theorem Suited.spares (hs : s.Suited aim given) (h : s.Firm s')
    (hsettles : s.graph.Settles s'.graph) (hspares : s.Spares s.blank s') :
    s'.Suited aim given := by
  intro id node' x hnode' hkind hx
  have hsame := hspares.noted?_eq hnode' hkind
  rw [Tree.noted?_of_node? hnode', hx] at hsame
  obtain ⟨node, hnode, hold⟩ := Option.bind_eq_some_iff.mp hsame.symm
  obtain ⟨other, hother, hsame, -⟩ := h.tree.node? hnode
  cases hother.symm.trans hnode'
  rw [hsame] at hkind ⊢
  exact (hs id node x hnode hkind hold).imp_right (Suits.firm h hsettles)

/-! ### Where the walk is -/

/-- The walk may go to the node in this context, as far as that matters. -/
def Stands (aim : Aim) (ctx : Reference.Context) (s : Analysis) (id : NodeId) : Prop :=
  s.Known aim id ∧ (aim.noted → s.tree.Placed s.graph ctx.cls ctx.functions id)

/-- What is known of any stretch of the second walk. -/
structure Heads (aim : Aim) (s s' : Analysis) : Prop extends Onward aim.fine ∅ᶜ s s' where
  firm : aim.fine → s.Firm s'

theorem Heads.trans (h : Heads aim s s') (h' : Heads aim s' s'') : Heads aim s s'' :=
  ⟨h.toOnward.trans h'.toOnward, fun hfine => (h.firm hfine).trans (h'.firm hfine)⟩

variable {ctx : Reference.Context}

theorem Heads.stands (h : Heads aim s s') (hid : s.Stands aim ctx id) : s'.Stands aim ctx id :=
  ⟨h.known hid.1, fun hnoted => (hid.2 hnoted).firm (h.firm (aim.fine_of_noted hnoted))⟩

theorem Stands.child {node : Node} {c : NodeId} (hid : s.Stands aim ctx id) (hs : s.Proper aim)
    (hnode : s.tree.node? id = some node) (hframe : node.kind.isFrame = false)
    (hc : c ∈ node.kind.children) : s.Stands aim ctx c :=
  ⟨hs.known_child hnode hc, fun hnoted => .child (hid.2 hnoted) hnode hframe hc⟩

end Analysis

end Scoping
