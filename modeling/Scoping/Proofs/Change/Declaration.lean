import Scoping.Proofs.Change.Obeys
import Scoping.Proofs.Tree.Walked

/-!
# The first walk over a unit

All that the first walk does is in `Analysis.Declares`, as long as it starts in a site of the graph.
Once a unit has been declared, every node that the second walk reaches has the notes that the walk
relies on (`NodeKind.Declared`): units, modules, classes and functions with a body open scopes, and
declarations are noted. The walk keeps away from members of traits and interfaces, and this is the
only reason for it not to look into a function that has a body.
-/

namespace Scoping

/-! ### What is attained -/

/-- What is noted on a node that has been declared. -/
def NodeKind.Declared (s : Analysis) (id : NodeId) : NodeKind → Prop
  | .unit _ | .moduleDecl .. => s.Opens id
  | .classDecl _ => s.Noted id ∧ s.Opens id
  | .fnDecl decl | .fnExpr decl => decl.body.isSome = true → s.Noted id ∧ s.Opens id
  | .varDecl .. | .enumDecl .. => s.Noted id
  | _ => True

theorem NodeKind.Declared.advances {s s' : Analysis} {id : NodeId} {kind : NodeKind}
    (h : s.Advances s') (hid : kind.Declared s id) : kind.Declared s' id := by
  cases kind with
  | unit | moduleDecl => exact h.opens hid
  | classDecl => exact ⟨h.noted hid.1, h.opens hid.2⟩
  | fnDecl | fnExpr => exact fun hbody => ⟨h.noted (hid hbody).1, h.opens (hid hbody).2⟩
  | varDecl | enumDecl => exact h.noted hid
  | _ => trivial

namespace Analysis

/-- Nodes that were there in the beginning keep their payloads. -/
theorem Follows.kind_eq {root s : Analysis} {id : NodeId} {node : Node} (hs : Follows root s)
    (hnode : s.tree.node? id = some node) (first : Node)
    (hfirst : root.tree.node? id = some first) : first.kind = node.kind := by
  obtain ⟨node', hnode', hkind, -⟩ := hs.advances.tree.node? hfirst
  cases hnode.symm.trans hnode'
  exact hkind.symm

theorem node?_annotate_self {t : Tree} {id : NodeId} {node : Node} (hnode : t.node? id = some node)
    (f : Annotation → Annotation) :
    (t.annotate id f).node? id = some { node with note := f node.note } := by
  rw [Tree.node?_annotate, if_pos rfl, hnode, Option.map_some]

end Analysis

namespace Declaration

open Analysis

variable {aim : Aim} {types : Set SymbolId} {root s s₁ s' : Analysis} {visit : Walk}
  {ctx : Context} {id c : NodeId} {ids : List NodeId} {node : Node} {decl : FnDecl} {g : Graph}
  {log : Log} {kind : NodeKind} {f : SymbolId} {Q : Unit → Analysis → Prop} {area : Set NodeId}

/-- The walk may go to the node, as far as that matters. -/
structure Within (aim : Aim) (area : Set NodeId) (s : Analysis) (id : NodeId) : Prop where
  known : s.Known aim id
  mem : aim.fine → id ∈ area
  encloses : aim.fine → s.tree.Encloses area

theorem Within.onward (hid : Within aim area s id) (h : Onward aim.fine types s s') :
    Within aim area s' id :=
  ⟨h.known hid.known, hid.mem, fun hfine => (h.advances hfine).tree.encloses (hid.encloses hfine)⟩

theorem Within.child (hid : Within aim area s id) (hs : s.Proper aim)
    (hnode : s.tree.node? id = some node) (hc : c ∈ node.kind.children) :
    Within aim area s c := by
  refine ⟨hs.known_child hnode hc, fun hfine => ?_, hid.encloses⟩
  obtain ⟨node', hnode', hchildren⟩ := hid.encloses hfine id (hid.mem hfine)
  cases hnode.symm.trans hnode'
  exact hchildren c hc

/-- From the state `s` on, the computation makes declarations in the area, and `Q` holds of its
result. -/
abbrev Registers {α : Type} (aim : Aim) (area : Set NodeId) (s : Analysis) (x : AnalysisM α)
    (Q : α → Analysis → Prop := fun _ _ => True) : Prop :=
  Analysis.Obeys aim (Declares aim.fine area) s s x Q

/-- All that is walked below some nodes of the tree of a unit has been declared. -/
def AllDeclared (root : Analysis) (ids : List NodeId) (s : Analysis) : Prop :=
  root.tree.Throughout ids fun c kind => kind.Declared s c

theorem lasting_allDeclared (ids : List NodeId) : Lasting (AllDeclared root ids) :=
  fun _ _ h hs => hs.mono fun _ _ => .advances h

/-- The members of the type around are walked at once: if there is such a type, it is a class. -/
def HostWalked (ctx : Context) (s : Analysis) : Prop :=
  ∀ x, ctx.host = some x → x.index < s.graph.symbols.size ∧ (s.graph.symbol x).kind = .cls

theorem lasting_hostWalked (ctx : Context) : Lasting (HostWalked ctx) := by
  intro s s' h hs x hx
  obtain ⟨hlt, hkind⟩ := hs x hx
  exact ⟨Nat.lt_of_lt_of_le hlt h.graph.symbols_le, (h.graph.endures hlt).kind.trans hkind⟩

/-- On the way from `s` to `s'`, everything below some nodes has been declared. -/
def Covers (fine : Prop) (ctx : Context) (ids : List NodeId) (s s' : Analysis) : Prop :=
  fine → ∀ root, Follows root s → HostWalked ctx s → AllDeclared root ids s'

namespace Covers

variable {fine : Prop}

theorem before (h : Onward fine types s s₁) (hcovers : Covers fine ctx ids s₁ s') :
    Covers fine ctx ids s s' := fun hfine root hs hhost =>
  hcovers hfine root (hs.next (h.advances hfine)) (lasting_hostWalked ctx (h.advances hfine) hhost)

theorem after (h : Onward fine types s₁ s') (hcovers : Covers fine ctx ids s s₁) :
    Covers fine ctx ids s s' := fun hfine root hs hhost =>
  lasting_allDeclared ids (h.advances hfine) (hcovers hfine root hs hhost)

theorem append {ids' : List NodeId} (h : Covers fine ctx ids s s')
    (h' : Covers fine ctx ids' s s') :
    Covers fine ctx (ids ++ ids') s s' := fun hfine root hs hhost =>
  Tree.throughout_append.mpr ⟨h hfine root hs hhost, h' hfine root hs hhost⟩

/-- Only the host counts. -/
theorem congr {ctx' : Context} (hhost : ctx.host = ctx'.host) (h : Covers fine ctx ids s s') :
    Covers fine ctx' ids s s' := fun hfine root hs hwalked =>
  h hfine root hs fun x hx => hwalked x (hhost.symm.trans hx)

end Covers

/-- The node itself and everything below it has been declared on the way from `s` to `s'`. -/
def Finishes (fine : Prop) (ctx : Context) (id : NodeId) (kind : NodeKind) (s s' : Analysis) :
    Prop :=
  fine → ∀ root, Follows root s → HostWalked ctx s →
    kind.Declared s' id ∧ (kind.isEntered = true → AllDeclared root kind.children s')

variable {fine : Prop}

theorem Finishes.covers (hnode : s.tree.node? id = some node)
    (h : Finishes fine ctx id node.kind s s') : Covers fine ctx [id] s s' :=
  fun hfine root hs hhost => Tree.throughout_node (hs.kind_eq hnode)
    (h hfine root hs hhost).1 (h hfine root hs hhost).2

/-- A walk that makes declarations, wherever it is. -/
def Walk.Obeys (aim : Aim) (area : Set NodeId) (visit : Walk) : Prop :=
  ∀ {ctx : Context} {id : NodeId} {s : Analysis}, s.graph.Site ctx.scope → Within aim area s id →
    Registers aim area s (visit ctx id)
      fun _ s' => Covers aim.fine ctx [id] s s'

theorem Walk.Obeys.forM (hvisit : visit.Obeys aim area) (hsite : s.graph.Site ctx.scope)
    (hids : ∀ id ∈ ids, Within aim area s id) :
    Registers aim area s (ids.forM (visit ctx))
      fun _ s' => Covers aim.fine ctx ids s s' := by
  refine (Analysis.Obeys.forM (F := fun id s' => Covers aim.fine ctx [id] s s')
    (fun id hid s' h => (hvisit (h.site hsite) ((hids id hid).onward h)).imp
      fun _ _ hcovers => hcovers.before h) fun _ _ _ _ _ h hcovers => hcovers.after h).imp ?_
  exact fun _ _ h hfine root hs hhost =>
    Tree.throughout_of_forall fun id hid => h id hid hfine root hs hhost

/-! ### Entering symbols -/

theorem bind_onGraph {α β : Type} (f : Graph → α × Graph) (k : α → AnalysisM β) (s : Analysis) :
    (onGraph f >>= k) s = k (f s.graph).1 { s with graph := (f s.graph).2 } := rfl

theorem run_declare (scope : ScopeId) (x : SymbolId) (s : Analysis) :
    ∃ log : Log, s.log.Grows log ∧ Analysis.declare scope x s =
      .ok (s.graph.declare scope x).1 { s with graph := (s.graph.declare scope x).2, log } := by
  rw [Analysis.declare, bind_onGraph]
  cases (s.graph.declare scope x).1 with
  | reject reason existing => exact ⟨_, .push, rfl⟩
  | _ => exact ⟨s.log, .refl, rfl⟩

theorem run_discard_declare (scope : ScopeId) (x : SymbolId) (s : Analysis) :
    ∃ log : Log, s.log.Grows log ∧ discard (Analysis.declare scope x) s =
      .ok () { s with graph := (s.graph.declare scope x).2, log } := by
  obtain ⟨log, hlog, hrun⟩ := run_declare scope x s
  refine ⟨log, hlog, ?_⟩
  change EStateM.map _ (Analysis.declare scope x) s = _
  rw [EStateM.map, hrun]

theorem run_declareAll (scope : ScopeId) : ∀ (symbols : List SymbolId) (s : Analysis),
    ∃ log : Log, s.log.Grows log ∧ (symbols.forM fun x => discard (Analysis.declare scope x)) s =
      .ok () { s with graph := s.graph.declareAll scope symbols, log }
  | [], s => ⟨s.log, .refl, rfl⟩
  | x :: rest, s => by
    obtain ⟨log, hlog, hrun⟩ := run_discard_declare scope x s
    obtain ⟨log', hlog', hrun'⟩ := run_declareAll scope rest
      { s with graph := (s.graph.declare scope x).2, log }
    refine ⟨log', hlog.trans hlog', ?_⟩
    change EStateM.bind (discard (Analysis.declare scope x)) (fun _ => rest.forM _) s = _
    rw [EStateM.bind, hrun]
    exact hrun'

theorem run_declareSlot (scope : ScopeId) (role : Role) (x : SymbolId) (s : Analysis) :
    ∃ log : Log, s.log.Grows log ∧ declareSlot scope role x s =
      .ok () { s with graph := (s.graph.declareSlot scope role x).2, log } := by
  rw [declareSlot, bind_onGraph]
  cases (s.graph.declareSlot scope role x).1 with
  | filled | unavailable => exact ⟨s.log, .refl, rfl⟩
  | replaced | taken => exact ⟨_, .push, rfl⟩

theorem run_declareFunction (ctx : Context) (place : FnPlace) (role : Role) (span : Span)
    (f : SymbolId) (s : Analysis) :
    ∃ (entry : Graph.Entry) (log : Log), s.log.Grows log ∧
      declareFunction ctx place role span f s =
        .ok () { s with graph := s.graph.enterAs ctx.scope f entry, log } := by
  unfold declareFunction
  split
  · exact ⟨.nowhere, s.log, .refl, rfl⟩
  · split
    · obtain ⟨log, hlog, hrun⟩ := run_discard_declare ctx.scope f s
      exact ⟨.table, log, hlog, hrun⟩
    · split
      · obtain ⟨log, hlog, hrun⟩ := run_declareSlot ctx.scope role f s
        exact ⟨.slot role, log, hlog, hrun⟩
      · obtain ⟨log, hlog, hrun⟩ := run_discard_declare ctx.scope f
          { s with log := s.log.problem .misplacedRole span }
        exact ⟨.table, log, Log.Grows.trans .push hlog, hrun⟩

/-! ### Scopes, imports and types -/

/-- References that are written down have no targets. -/
theorem filterMap_target_map (paths : List QualName) (span : Span) :
    (paths.map fun path => ({ path, span } : TypeRef)).filterMap TypeRef.target = [] := by
  induction paths with
  | nil => rfl
  | cons path rest ih => exact ih

theorem typed_class (decl : ClassDecl) (id : NodeId) (span : Span) (members : ScopeId) :
    (decl.symbol id span members).Typed members where
  origin := rfl
  ns := rfl
  interfaces := filterMap_target_map decl.implements span
  super? := by
    change (decl.super.map fun path => ({ path, span } : TypeRef)).bind TypeRef.target = none
    cases decl.super <;> rfl
  resolution _ hr := (Option.some.inj hr).symm
  scope := rfl
  isType := rfl
  members? := rfl
  managed := rfl
  subtree? := rfl

theorem typed_interface (decl : InterfaceDecl) (id : NodeId) (span : Span) (members : ScopeId) :
    (decl.symbol id span members).Typed members where
  origin := rfl
  ns := rfl
  interfaces := filterMap_target_map decl.supers span
  super? := rfl
  resolution _ hr := (Option.some.inj hr).symm
  scope := rfl
  isType := rfl
  members? := rfl
  managed := rfl
  subtree? := rfl

theorem typed_trait (decl : TraitDecl) (id : NodeId) (span : Span) (members : ScopeId) :
    (decl.symbol id span members).Typed members where
  origin := rfl
  ns := rfl
  interfaces := rfl
  super? := rfl
  resolution _ hr := (Option.some.inj hr).symm
  scope := rfl
  isType := rfl
  members? := rfl
  managed := rfl
  subtree? := rfl

theorem Finishes.of_children (hdeclared : kind.Declared s' id)
    (hcovers : Covers fine ctx kind.children s s') : Finishes fine ctx id kind s s' :=
  fun hfine root hs hhost => ⟨hdeclared, fun _ => hcovers hfine root hs hhost⟩

theorem Finishes.intro (h : Onward fine types s s₁) (h' : Onward fine types s₁ s')
    (hdeclared : kind.Declared s₁ id) (hcovers : Covers fine ctx kind.children s₁ s') :
    Finishes fine ctx id kind s s' :=
  fun hfine root hs hhost => ⟨hdeclared.advances (h'.advances hfine),
    fun _ => hcovers.before h hfine root hs hhost⟩

/-- A portion of a declaration that is noted on its node. -/
theorem declares_symbol {x : Option SymbolId} (hid : fine → id ∈ area)
    (hgraph : Graph.Enrol (fun id => fine → id.index < s.tree.size) s.graph g)
    (hnode : s.tree.node? id = some node) (hdecl : node.kind.isDeclaration = true)
    (hfits : node.kind.Fits g x) (hlog : s.log.Grows log)
    (hbacked : node.kind.Backed g { node.note with symbol := x }) :
    Declares fine area s
      { s with
        graph := g, tree := s.tree.annotate id fun note => { note with symbol := x }, log } :=
  .trans (.log hlog) (.trans (.graph (s := { s with log }) hgraph)
    (.note (s := { s with graph := g, log }) (f := fun note => { note with symbol := x }) hid hnode
      hdecl hfits (fun _ _ h => .inl h) (fun _ h => h) (fun _ => ⟨rfl, rfl⟩) hbacked))

theorem declares_type {x : SymbolId} {q : ScopeId} (hid : fine → id ∈ area)
    (hgraph : Graph.Enrol (fun id => fine → id.index < s.tree.size) s.graph g)
    (hnode : s.tree.node? id = some node) (hdecl : node.kind.isDeclaration = true)
    (hfits : node.kind.Fits g (some x)) (hq : q.index < g.scopes.size) (hlog : s.log.Grows log)
    (hmembers : (g.symbol x).members? = some q) : Declares fine area s
      { s with
        graph := g
        tree := s.tree.annotate id fun note => { note with symbol := some x, scope := some q }
        log } := by
  refine .trans (.log hlog) (.trans (.graph (s := { s with log }) hgraph)
    (.note (s := { s with graph := g, log }) (f := fun note =>
      { note with symbol := some x, scope := some q }) hid hnode hdecl hfits (fun _ p hp => .inr ?_)
      (fun _ _ => rfl) (fun _ => ⟨rfl, rfl⟩) fun _ y hy => ?_))
  · cases hp
    exact hq
  · cases hy
    exact ⟨Graph.lt_size_of_members? hmembers, fun _ _ hq => hq ▸ hmembers⟩

/-- A walk inside a block. -/
theorem inBlock_obeys {k : Context → AnalysisM Unit} (hsite : s.graph.Site ctx.scope)
    (hid : s.Known aim id) (hat : aim.fine → At id kind s) (hclass : kind.isClass = false)
    (hk : ∀ q s₁, Onward aim.fine ∅ s s₁ → s₁.graph.Site q →
      Registers aim area s₁ (k { ctx with scope := q }) Q) :
    Registers aim area s (openBlock ctx id >>= k) Q := by
  simp only [openBlock, bind_assoc, pure_bind]
  refine .onGraph_bind (.annotate_bind ?_ fun _ _ => .settle (fun _ => ?_) fun hs h => ?_)
  · exact hid
  · exact .trans (.graph (.newBlock hsite)) (.setScope hat hclass (s.graph.newScope_lt .block _))
  · exact hk _ _ h (hsite.newScope hs.coherent .block rfl).2

theorem visitModule_obeys (hvisit : visit.Obeys aim area) (hsite : s.graph.Site ctx.scope)
    (hid : Within aim area s id) (hnode : s.tree.node? id = some node) {name : Option QualName}
    {body : List NodeId}
    (hkind : node.kind = .moduleDecl name body) :
    Registers aim area s (visitModule visit ctx id name body)
      fun _ s' => Finishes aim.fine ctx id node.kind s s' := by
  refine .onGraph_bind (.annotate_bind ?_ fun _ _ => .settle (fun hs => ?_) fun hs h => ?_)
  · exact known_of_node? hnode
  · exact .trans (.graph (.openModule name hsite.inside)) (.setScope (fun _ => ⟨node, hnode, hkind⟩)
      rfl (Graph.openModule_spec ∅ hs.coherent hsite.inside name).2.inside.lt_size)
  · have hmodule := (Graph.openModule_spec ∅ hs.coherent hsite.inside name).2
    refine (hvisit.forM hmodule fun c hc => (hid.child hs hnode ?_).onward h).keep.imp
      fun _ s' ⟨h', hcovers⟩ => ?_
    · rw [hkind]
      exact hc
    · rw [hkind]
      refine .intro h h' ?_ (hcovers.congr rfl)
      exact ⟨_, node?_annotate_self hnode _, rfl⟩

theorem visitUse_obeys (hsite : s.graph.Site ctx.scope) (hid : Within aim area s id)
    (hnode : s.tree.node? id = some node)
    {path : QualName} {rename : Option String} {isPublic : Bool}
    (hkind : node.kind = .useDecl path rename isPublic) (span : Span) :
    Registers aim area s (visitUse ctx id span path rename isPublic)
      fun _ s' => Finishes aim.fine ctx id node.kind s s' := by
  refine .onGraph_bind (.annotate_bind ?_ fun _ _ => ?_)
  · exact known_of_node? hnode
  obtain ⟨log, hlog, hrun⟩ := run_discard_declare ctx.scope _ _
  refine .done hrun (fun _ => ?_) ?_
  · refine declares_symbol (x := some ⟨s.graph.symbols.size⟩) hid.mem (.newSymbols hsite
      (l := [_]) fun s hs => ?_) hnode (by rw [hkind]; rfl) (by rw [hkind]; rfl) hlog
      (by rw [hkind]; exact nofun)
    obtain rfl := List.mem_singleton.mp hs
    exact ⟨⟨rfl, rfl, rfl, rfl, rfl, rfl, nofun⟩, nofun⟩
  · rw [hkind]
    exact fun _ _ _ _ => ⟨trivial, fun _ => Tree.throughout_nil⟩

/-- A type is declared, and its members are walked at once. -/
theorem visitType_obeys (hvisit : visit.Obeys aim area) (hsite : s.graph.Site ctx.scope)
    (hid : Within aim area s id) (hnode : s.tree.node? id = some node)
    (hdecl : node.kind.isDeclaration = true)
    (hfits : ∀ g x, node.kind.Fits g (some x)) {symbol : Symbol} (hsymbol : symbol.Typed ctx.scope)
    {members : List NodeId} (hmembers : members ⊆ node.kind.children) :
    Registers aim area s (visitType visit ctx id symbol members)
      fun _ s' => aim.fine → (s'.Noted id ∧ s'.Opens id) ∧
        (symbol.kind = .cls → ∀ root, Follows root s → AllDeclared root members s') := by
  change Analysis.Obeys aim _ s s (onGraph (·.allocType ctx.scope symbol) >>= fun a =>
    annotate id (fun note => { note with symbol := some a.1, scope := some a.2 }) >>= fun _ =>
      discard (Analysis.declare ctx.scope a.1) >>= fun _ =>
        members.forM (visit { scope := a.2, host := some a.1 })) _
  refine .onGraph_bind (.annotate_bind ?_ fun _ _ => ?_)
  · exact known_of_node? hnode
  obtain ⟨log, hlog, hrun⟩ := run_discard_declare ctx.scope ⟨s.graph.symbols.size⟩ _
  have hlt : (⟨s.graph.symbols.size⟩ : SymbolId).index <
      (s.graph.allocType ctx.scope symbol).2.symbols.size := by
    rw [Graph.size_symbols_allocType]
    exact Nat.lt_succ_self _
  have hdeclare : Graph.Edits ∅ (s.graph.allocType ctx.scope symbol).2
      ((s.graph.allocType ctx.scope symbol).2.declare ctx.scope ⟨s.graph.symbols.size⟩).2 :=
    .single .declare
  refine .next hrun (.settle (fun hs => ?_) fun hs h => ?_)
  · refine declares_type hid.mem (.newType hsite hsymbol) hnode hdecl (hfits _ _) ?_ hlog ?_
    · exact (Graph.newType_steps hs.coherent hsite hsymbol.scope hsymbol.managed).2.inside.lt_size
    · refine (hdeclare.endures hlt).members?.trans ?_
      rw [Graph.symbol_allocType, if_pos rfl, hsymbol.members?_setMembers]
      rfl
  · have hinside := (Graph.newType_steps hs.coherent hsite hsymbol.scope hsymbol.managed).2
    refine (hvisit.forM hinside fun c hc => (hid.child hs hnode (hmembers hc)).onward h).keep.imp
      fun _ s' ⟨h', hcovers⟩ hfine => ?_
    refine ⟨⟨(h'.advances hfine).noted ?_, (h'.advances hfine).opens ?_⟩, fun hcls root hroot => ?_⟩
    · exact ⟨_, node?_annotate_self hnode _, hfits _ _⟩
    · exact ⟨_, node?_annotate_self hnode _, rfl⟩
    refine hcovers hfine root (hroot.next (h.advances hfine)) ?_
    rintro x ⟨⟩
    refine ⟨Nat.lt_of_lt_of_le hlt hdeclare.symbols_le, (hdeclare.endures hlt).kind.trans ?_⟩
    rw [Graph.symbol_allocType, if_pos rfl, ← hcls]
    obtain ⟨_, _, _, _, _, _, _, _, _, _, data⟩ := symbol
    cases data <;> rfl

/-! ### Functions -/

/-- The body of a function is visited after its parameters have been entered in its scope. -/
theorem visitBody_obeys (hvisit : visit.Obeys aim area) {scope : ScopeId}
    (hsite : s.graph.Site scope)
    (hpending : s.graph.Pending (s.graph.paramsOf f))
    (hchildren : ∀ c ∈ decl.params.filterMap Param.default ++ decl.body.toList,
      Within aim area s c) :
    Registers aim area s (visitBody visit ctx f decl scope)
      fun _ s' => Covers aim.fine { scope, depth := ctx.depth + 1 }
        (decl.params.filterMap Param.default ++ decl.body.toList) s s' := by
  refine .currentGraph_bind ?_
  obtain ⟨log, hlog, hrun⟩ := run_declareAll scope (s.graph.paramsOf f) s
  refine .next hrun (.settle (fun _ => ?_) fun hs h => ?_)
  · exact .trans (.log hlog) (.graph (s := { s with log }) (.declareParams hsite hpending))
  have hsite₁ := h.site hsite
  refine (hvisit.forM hsite₁ fun c hc => (hchildren c (List.mem_append_left _ hc)).onward h).bind
    fun _ s₂ h₂ hdefaults => ?_
  have hsite₂ := h₂.site hsite₁
  have hbody : ∀ c ∈ decl.body.toList, Within aim area s₂ c := fun c hc =>
    (hchildren c (List.mem_append_right _ hc)).onward (h.trans h₂)
  refine Analysis.Obeys.imp (Analysis.Obeys.keep (Q := fun _ s' => Covers aim.fine _
    decl.body.toList s₂ s') ?_) fun _ s' ⟨h', hcovers⟩ =>
      ((hdefaults.after h').append (hcovers.before h₂)).before h
  revert hbody
  cases decl.body with
  | none => exact fun _ => .pure fun _ _ _ _ => Tree.throughout_nil
  | some body =>
    intro hbody
    have hwithin := hbody body List.mem_cons_self
    refine .read_bind hwithin.known fun node hnode => ?_
    split
    next statements hblock =>
      refine .annotate_bind hwithin.known fun _ _ => .settle (fun _ => ?_) fun hs₂ h₃ => ?_
      · exact .setScope (fun _ => ⟨node, hnode, hblock⟩) rfl hsite₂.inside.lt_size
      refine (hvisit.forM (h₃.site hsite₂) fun c hc => (hwithin.child hs₂ hnode ?_).onward h₃).imp
        fun _ s' hcovers hfine root hroot hhost => ?_
      · rw [hblock]
        exact hc
      · refine Tree.throughout_node (hroot.kind_eq hnode) ?_ ?_
        · rw [hblock]
          trivial
        · rw [hblock]
          exact fun _ => hcovers.before h₃ hfine root hroot hhost
    next => exact hvisit hsite₂ hwithin

/-- The scope of a function is opened. -/
theorem openFunction_bind {R : Analysis → Analysis → Prop}
    [Track aim.fine types (Onward aim.fine types) R]
    (hR : ∀ {s s'}, (∀ area, Declares aim.fine area s s') → R s s') {parent : ScopeId}
    {delegate : Option ScopeId} (hid : s.Known aim id) (hat : aim.fine → At id kind s)
    (hclass : kind.isClass = false) (hplace : s.graph.Place parent)
    (hfree : s.graph.Site parent ∨ delegate ≠ none)
    (hmembers : ∀ d, delegate = some d → s.graph.MemberScope d)
    (hpending : s.graph.Pending (s.graph.paramsOf f)) {k : ScopeId → AnalysisM Unit}
    (hk : ∀ q s₁, Onward aim.fine types s s₁ → s₁.graph.Site q →
      s₁.graph.Pending (s₁.graph.paramsOf f) → s₁.Opens id →
      (∀ c, s₁.tree.noted? (·.symbol) c = s.tree.noted? (·.symbol) c) →
      Analysis.Obeys aim R s₁ s₁ (k q) Q) :
    Analysis.Obeys aim R s s (openFunction id f parent delegate >>= k) Q := by
  simp only [openFunction, bind_assoc, pure_bind]
  refine .onGraph_bind (.modifyGraph_bind (.annotate_bind ?_ fun node hnode =>
    .modifyGraph_bind (.settle (fun hs => hR ?_) fun hs h => ?_)))
  · exact hid
  all_goals obtain ⟨hsteps, hspares, hsite, hsame⟩ :=
    Graph.openBody_spec f hs.coherent hplace hfree hmembers
  · exact fun _ => .trans (.graph (.openBody f hplace hfree hmembers))
      (.setScope hat hclass hsite.inside.lt_size)
  · have hpending' := hpending.spares hs.coherent hspares hsteps.grows
    rw [← hsame] at hpending'
    exact hk _ _ h hsite hpending' ⟨_, node?_annotate_self hnode _, rfl⟩
      (Tree.noted?_annotate_of_eq fun _ _ => rfl)

/-- Where a function stands that is declared in a context. -/
def Context.place (ctx : Context) (g : Graph) (isExpr : Bool) : FnPlace :=
  let isMember := ctx.isMember g && !isExpr
  { isMember
    isExpr
    hostKind := if isMember then ctx.hostKind g else none
    nested := 0 < ctx.depth }

theorem isDeferred_place (h : HostWalked ctx s) (isExpr : Bool) :
    (ctx.place s.graph isExpr).isDeferred = false := by
  have hkind : ctx.hostKind s.graph = none ∨ ctx.hostKind s.graph = some .cls := by
    rw [Context.hostKind]
    cases hhost : ctx.host with
    | none => exact .inl rfl
    | some x =>
      rw [Option.map_some, (h x hhost).2]
      exact .inr rfl
  unfold FnPlace.isDeferred Context.place
  dsimp only
  split
  · rcases hkind with h | h <;> rw [h] <;> rfl
  · rfl

theorem visitFunction_eq (visit : Walk) (ctx : Context) (id : NodeId) (span : Span) (decl : FnDecl)
    (isExpr : Bool) : visitFunction visit ctx id span decl isExpr = (do
      let g ← currentGraph
      let function ← onGraph (·.alloc (decl.symbol (ctx.place g isExpr) id span))
      Analysis.bind id function
      declareFunction ctx (ctx.place g isExpr) decl.role span function
      let params ← onGraph (·.allocAll (decl.params.map fun param => param.symbol span))
      modifyGraph (·.modifyData function (·.mapFn fun f => { f with params }))
      if decl.body.isNone || (ctx.place g isExpr).isDeferred then Pure.pure ()
      else
        let scope ← openFunction id function ctx.scope none
        visitBody visit ctx function decl scope) := by
  simp only [visitFunction]
  rfl

/-- A function is declared, and its body is walked unless that is put off. -/
theorem visitFunction_obeys (hvisit : visit.Obeys aim area) (hsite : s.graph.Site ctx.scope)
    (hid : Within aim area s id) (hnode : s.tree.node? id = some node)
    (hkind : node.kind = .fnDecl decl ∨ node.kind = .fnExpr decl) (span : Span) (isExpr : Bool) :
    Registers aim area s (visitFunction visit ctx id span decl isExpr)
      fun _ s' => Finishes aim.fine ctx id node.kind s s' := by
  have hchildren : node.kind.children =
      decl.params.filterMap Param.default ++ decl.body.toList := by
    rcases hkind with h | h <;> rw [h] <;> rfl
  have hclass : node.kind.isClass = false := by rcases hkind with h | h <;> rw [h] <;> rfl
  rw [visitFunction_eq]
  refine .currentGraph_bind ?_
  have hdeferred : HostWalked ctx s → (ctx.place s.graph isExpr).isDeferred = false :=
    fun h => isDeferred_place h isExpr
  generalize ctx.place s.graph isExpr = place at hdeferred ⊢
  refine .onGraph_bind (.annotate_bind ?_ fun _ _ => ?_)
  · exact known_of_node? hnode
  obtain ⟨entry, log, hlog, hrun⟩ :=
    run_declareFunction ctx place decl.role span ⟨s.graph.symbols.size⟩ _
  have hplain : (decl.symbol place id span).Plain fun id => aim.fine → id.index < s.tree.size := by
    refine ⟨rfl, rfl, rfl, rfl, rfl, rfl, ?_⟩
    rintro _ ⟨⟩ _
    exact Tree.lt_size_of_node? hnode
  have hparams : s.Proper aim → ∀ p ∈ decl.params.map fun param => param.symbol span,
      (p.Plain fun id => aim.fine → id.index < s.tree.size) ∧ p.kind = .var ∧
        p.flags.isParam = true := by
    intro hs p hp
    obtain ⟨param, hparam, rfl⟩ := List.mem_map.mp hp
    refine ⟨⟨rfl, rfl, rfl, rfl, rfl, rfl, fun c hc => hs.child_lt hnode ?_⟩, rfl, rfl⟩
    rw [hchildren]
    exact List.mem_append_left _ (List.mem_filterMap.mpr ⟨param, hparam, hc⟩)
  obtain ⟨hle, hlink⟩ := Graph.newFunction_spec s.graph ctx.scope
    (s := decl.symbol place id span) rfl entry (decl.params.map fun param => param.symbol span)
  have hfits : node.kind.Fits (s.graph.newFunction ctx.scope (decl.symbol place id span) entry
      (decl.params.map fun param => param.symbol span)) (some ⟨s.graph.symbols.size⟩) := by
    rw [List.length_map] at hle
    rcases hkind with h | h <;> rw [h] <;> exact ⟨_, rfl, Nat.le_of_eq hle.symm⟩
  refine .next hrun (.onGraph_bind (.modifyGraph_bind (.settle (fun hs => ?_) fun hs h => ?_)))
  · refine declares_symbol hid.mem (.newFunction hsite hplain (hparams hs)) hnode ?_ hfits hlog
      fun _ y hy => ⟨?_, fun hclass' => ?_⟩
    · rcases hkind with h | h <;> rw [h] <;> rfl
    · exact Option.some.inj hy ▸ Graph.lt_size_of (P := (·.node = some id)) hlink nofun
    · exact absurd (hclass.symm.trans hclass') Bool.false_ne_true
  refine .ite (fun hleft => .pure fun _ _ _ hhost => ?_) fun hentered => ?_
  · -- a function that has a body is left out in a trait or an interface only
    rw [hdeferred hhost, Bool.or_false, Option.isNone_iff_eq_none] at hleft
    rcases hkind with h | h <;> rw [h] <;> simp [NodeKind.Declared, NodeKind.isEntered, hleft]
  · have hpending := (Graph.newFunction_steps hs.coherent hsite hplain.admissible
      (fun p hp => (hparams hs p hp).1) entry).2
    have hsite₁ := h.site hsite
    refine openFunction_bind (fun h => h _) ?_ (fun hfine => .onward h hfine ⟨node, hnode, rfl⟩)
      hclass hsite₁.toPlace (.inl hsite₁) ?_ hpending fun q s₂ h₂ hinside hpending₂ hopens _ => ?_
    · exact h.known hid.known
    · exact nofun
    refine (visitBody_obeys hvisit hinside hpending₂ fun c hc => (hid.child hs hnode
      (hchildren ▸ hc)).onward (h.trans h₂)).keep.imp fun _ s' ⟨h', hcovers⟩ => ?_
    intro hfine root hroot hhost
    have hall := hcovers hfine root ((hroot.next (h.advances hfine)).next (h₂.advances hfine)) nofun
    have hnoted := ((h₂.trans h').advances hfine).noted ⟨_, node?_annotate_self hnode _, hfits⟩
    have hdeclared := And.intro hnoted ((h'.advances hfine).opens hopens)
    rw [hchildren]
    rcases hkind with h | h <;> rw [h] <;> exact ⟨fun _ => hdeclared, fun _ => hall⟩

/-! ### Variables -/

/-- Variables and enumerations enter one symbol for each item, and then visit the initializers. -/
theorem visitVariables_obeys (hvisit : visit.Obeys aim area) (hsite : s.graph.Site ctx.scope)
    (hid : Within aim area s id) (hnode : s.tree.node? id = some node) {mods mods' : List Modifier}
    {items : List VarItem}
    (hkind : node.kind = .varDecl mods' items ∨ node.kind = .enumDecl mods' items) (span : Span)
    (isEnum : Bool) :
    Registers aim area s (visitVariables visit ctx id span mods items isEnum)
      fun _ s' => Finishes aim.fine ctx id node.kind s s' := by
  have hchildren : node.kind.children = items.filterMap VarItem.init := by
    rcases hkind with h | h <;> rw [h] <;> rfl
  refine .currentGraph_bind (.onGraph_bind ?_)
  have hlength := items.length_map fun item =>
    item.symbol id span (variableFlags ctx s.graph mods isEnum) (ctx.isMember s.graph)
  have hplain : s.Proper aim → ∀ p ∈ items.map fun item =>
      item.symbol id span (variableFlags ctx s.graph mods isEnum) (ctx.isMember s.graph),
      (p.Plain fun id => aim.fine → id.index < s.tree.size) ∧ p.kind ≠ .fn := by
    intro hs p hp
    obtain ⟨item, hitem, rfl⟩ := List.mem_map.mp hp
    refine ⟨⟨rfl, rfl, rfl, rfl, rfl, rfl, fun c hc => hs.child_lt hnode ?_⟩, nofun⟩
    rw [hchildren]
    exact List.mem_filterMap.mpr ⟨item, hitem, hc⟩
  generalize items.map _ = declared at hlength hplain
  have hfits : ∀ g, node.kind.Fits g (s.graph.allocAll declared).1.head? := by
    have hhead : items = [] ∨ (s.graph.allocAll declared).1.head?.isSome = true := by
      have hsymbols := (Graph.length_allocAll declared s.graph).trans hlength
      revert hsymbols
      cases (s.graph.allocAll declared).1 with
      | nil => exact fun h => .inl (List.eq_nil_of_length_eq_zero h.symm)
      | cons => exact fun _ => .inr rfl
    rcases hkind with h | h <;> rw [h] <;> exact fun _ => hhead
  refine .annotate_bind ?_ fun _ _ => ?_
  · exact known_of_node? hnode
  obtain ⟨log, hlog, hrun⟩ := run_declareAll ctx.scope (s.graph.allocAll declared).1 _
  refine .next hrun (.settle (fun hs => ?_) fun hs h => ?_)
  · refine declares_symbol hid.mem (.newSymbols hsite (hplain hs)) hnode ?_ (hfits _) hlog ?_
    all_goals rcases hkind with h | h <;> rw [h]
    all_goals first | rfl | exact nofun
  refine (hvisit.forM (h.site hsite) fun c hc => (hid.child hs hnode
    (hchildren ▸ hc)).onward h).keep.imp fun _ s' ⟨h', hcovers⟩ =>
      .intro h h' ?_ (hchildren ▸ hcovers)
  rcases hkind with h | h <;> rw [h] <;> exact ⟨_, node?_annotate_self hnode _, hfits _⟩

theorem declareIdent_obeys (hsite : s.graph.Site ctx.scope) (span : Span) (ident : Ident) :
    Registers aim area s (declareIdent ctx span ident) := by
  refine .onGraph_bind ?_
  obtain ⟨log, hlog, hrun⟩ := run_discard_declare ctx.scope _ _
  refine .done hrun (fun _ => .trans (.log hlog) (.graph (s := { s with log })
    (.newSymbols hsite (l := [_]) fun s hs => ?_))) trivial
  obtain rfl := List.mem_singleton.mp hs
  exact ⟨⟨rfl, rfl, rfl, rfl, rfl, rfl, nofun⟩, nofun⟩

/-! ### The walk -/

/-- One visit of the first walk registers what the node declares if the visits below it do. -/
theorem visitNode_obeys (hvisit : visit.Obeys aim area) :
    Walk.Obeys aim area (visitNode visit) := by
  intro ctx id s hsite hid
  refine .read_bind hid.known fun node hnode => .of_proper fun hs => ?_
  refine Analysis.Obeys.imp (P := fun _ s' => Finishes aim.fine ctx id node.kind s s') ?_
    fun _ _ h => h.covers hnode
  have hbelow : ∀ c ∈ node.kind.children, Within aim area s c := fun c hc =>
    hid.child hs hnode hc
  obtain ⟨kind, span, note⟩ := node
  cases kind with
  | unit body =>
    refine .annotate_bind ?_ fun _ _ => .settle (fun _ => ?_) fun _ h => ?_
    · exact hid.known
    · exact .setScope (fun _ => ⟨_, hnode, rfl⟩) rfl hsite.inside.lt_size
    refine (hvisit.forM (h.site hsite) fun c hc => (hbelow c hc).onward h).keep.imp
      fun _ s' ⟨h', hcovers⟩ => .intro h h' ?_ hcovers
    exact ⟨_, node?_annotate_self hnode _, rfl⟩
  | moduleDecl name body => exact visitModule_obeys hvisit hsite hid hnode rfl
  | useDecl path rename isPublic => exact visitUse_obeys hsite hid hnode rfl span
  | classDecl decl =>
    exact (visitType_obeys hvisit hsite hid hnode rfl (fun _ _ => rfl) (typed_class decl id span _)
      (List.Subset.refl _)).imp fun _ s' h hfine root hroot _ =>
        ⟨(h hfine).1, fun _ => (h hfine).2 rfl root hroot⟩
  | traitDecl decl =>
    exact (visitType_obeys hvisit hsite hid hnode rfl (fun _ _ => rfl) (typed_trait decl id span _)
      (List.Subset.refl _)).imp fun _ _ _ _ _ _ _ => ⟨trivial, nofun⟩
  | interfaceDecl decl =>
    exact (visitType_obeys hvisit hsite hid hnode rfl (fun _ _ => rfl)
      (typed_interface decl id span _) (List.Subset.refl _)).imp
        fun _ _ _ _ _ _ _ => ⟨trivial, nofun⟩
  | fnDecl decl => exact visitFunction_obeys hvisit hsite hid hnode (.inl rfl) span false
  | fnExpr decl => exact visitFunction_obeys hvisit hsite hid hnode (.inr rfl) span true
  | varDecl mods items => exact visitVariables_obeys hvisit hsite hid hnode (.inl rfl) span false
  | enumDecl mods items => exact visitVariables_obeys hvisit hsite hid hnode (.inr rfl) span true
  | block body | forLoop init test step body =>
    refine inBlock_obeys hsite hid.known (fun _ => ⟨_, hnode, rfl⟩) rfl fun q s₁ h hinside => ?_
    exact (hvisit.forM hinside fun c hc => (hbelow c hc).onward h).keep.imp
      fun _ s' ⟨h', hcovers⟩ => .intro h h' trivial (hcovers.congr rfl)
  | forIn key value iter body =>
    refine (hvisit hsite (hbelow iter List.mem_cons_self)).bind fun _ s₁ h₁ hiter => ?_
    refine inBlock_obeys (h₁.site hsite) (h₁.known hid.known) (fun hfine => .onward h₁ hfine
      ⟨_, hnode, rfl⟩) rfl fun q s₂ h₂ hinside => ?_
    refine (Analysis.Obeys.forM_ fun ident _ s' h => declareIdent_obeys (h.site hinside) span
      ident).bind fun _ s₃ h₃ _ => ?_
    have h₁₃ := h₂.trans h₃
    refine (hvisit (h₃.site hinside) ((hbelow body ?_).onward (h₁.trans h₁₃))).keep.imp
      fun _ s' ⟨h', hbody⟩ => .of_children trivial ?_
    · exact List.mem_cons_of_mem _ List.mem_cons_self
    · exact (hiter.after (h₁₃.trans h')).append ((hbody.congr rfl).before (h₁.trans h₁₃))
  | _ => exact (hvisit.forM hsite hbelow).imp fun _ s' => .of_children trivial

theorem visit_obeys : ∀ fuel, Walk.Obeys aim area (Declaration.visit fuel)
  | 0 => fun _ _ => .exhausted
  | fuel + 1 => visitNode_obeys (visit_obeys fuel)

theorem walk_obeys : Walk.Obeys aim area walk :=
  fun hsite hid => .get_bind (visit_obeys _ hsite hid)

/-- A unit is declared in a new scope. -/
theorem unit_obeys (aim : Aim) (hroot : Within aim area s s.tree.root) :
    Registers aim area s unit fun q s' =>
      (q = ⟨s.graph.scopes.size⟩ ∧ s'.graph.Site q ∧ (s'.graph.scope q).kind = .unit) ∧
        (aim.fine → ∀ root, Follows root s → AllDeclared root [root.tree.root] s') := by
  refine .get_bind (.onGraph_bind (.modifyGraph_bind (.settle (fun _ => ?_) fun hs h => ?_)))
  · exact .graph (.newUnit s.tree.file)
  obtain ⟨-, hsite, hkind⟩ := Graph.newUnit_steps hs.coherent s.tree.file
  refine Analysis.Obeys.bind (walk_obeys ?_ (hroot.onward h))
    fun _ s' h' hcovers => .pure ⟨⟨rfl, h'.site hsite, ?_⟩, fun hfine root hfollows => ?_⟩
  · exact hsite
  · exact (h'.steps.grows.kind hsite.inside.lt_size).trans hkind
  · rw [← hfollows.advances.tree.root]
    exact hcovers hfine root (hfollows.next (h.advances hfine)) nofun

end Declaration

end Scoping
