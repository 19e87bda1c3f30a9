import Scoping.Proofs.Change.Course

/-!
# The second walk over a unit

All that the second walk does is in `Analysis.Course`. It goes wherever `Tree.Walked` leads,
provided that the first walk has noted what it needs there (`Declaration.AllDeclared`). A name that
it comes across is bound, or else an error is reported. So in the end, if there are no errors, all
these names are bound (`Reference.AllBound`).
-/

namespace Scoping

/-- The reducer finds what it needs in a closed tree. -/
def Reducer.Confined (reducer : Reducer) : Prop :=
  ∀ {t g id halt}, t.Closed → id.index < t.size → reducer t g id = .error halt → halt = .exhausted

/-- What has been attained for a node that has been visited: a name is bound, or an error has been
reported. -/
def NodeKind.Bound (s : Analysis) (id : NodeId) : NodeKind → Prop
  | .name _ => s.log.Clean → s.Noted id
  | _ => True

theorem NodeKind.Bound.advances {s s' : Analysis} {id : NodeId} {kind : NodeKind}
    (h : s.Advances s') (hid : kind.Bound s id) : kind.Bound s' id := by
  cases kind with
  | name => exact fun hclean => h.noted (hid (h.clean hclean))
  | _ => trivial

/-- Can a reference be bound to any symbol? -/
def NodeKind.isFree : NodeKind → Bool
  | .name _ | .member .. | .selfRef | .super => true
  | _ => false

theorem NodeKind.suits_of_isFree {kind : NodeKind} (h : kind.isFree = true) (aim : Analysis.Aim)
    (s : Analysis) (id : NodeId) (x : SymbolId) :
    kind.isReference = true ∧ kind.Suits aim s id x := by
  cases kind with
  | name | member | selfRef | super => exact ⟨rfl, trivial⟩
  | _ => cases h

namespace Analysis

variable {aim : Aim} {s s' : Analysis} {id : NodeId}

/-- The node can be bound to any symbol, as far as that matters. -/
def Refers (aim : Aim) (s : Analysis) (id : NodeId) : Prop :=
  s.Known aim id ∧ (aim.fine → ∃ kind : NodeKind, kind.isFree = true ∧ At id kind s)

theorem Refers.onward (hid : s.Refers aim id) (h : Heads aim s s') : s'.Refers aim id :=
  ⟨h.known hid.1, fun hfine => (hid.2 hfine).imp fun _ hkind =>
    hkind.imp_right (.onward h.toOnward hfine)⟩

theorem refers_of_node? {node : Node} (hnode : s.tree.node? id = some node)
    (hkind : node.kind.isFree = true) : s.Refers aim id :=
  ⟨known_of_node? hnode, fun _ => ⟨node.kind, hkind, node, hnode, rfl⟩⟩

theorem Obeys.reduce (henv : aim.home → aim.env.reducer.Confined) (hid : s.Known aim id) :
    Obeys aim (Course aim) s s (Analysis.reduce aim.env id) := by
  refine .get_bind ⟨fun hs h => ?_, fun hs hhome h => ?_⟩
  · cases hvalue : aim.env.reducer s.tree s.graph id with
    | error halt =>
      rw [hvalue] at h
      cases h
    | ok value =>
      rw [hvalue] at h
      obtain ⟨-, rfl⟩ := ok_pure h
      exact ⟨.refl, trivial⟩
  · cases hvalue : aim.env.reducer s.tree s.graph id with
    | ok value =>
      rw [hvalue] at h
      cases h
    | error halt =>
      rw [hvalue] at h
      cases h
      exact henv hhome (hs.intact (aim.fine_of_home hhome)).closed (hid hhome) hvalue

end Analysis

namespace Reference

open Analysis Declaration

variable {aim : Aim} {root s s' s₁ : Analysis} {visit : Walk}
  {ctx : Context} {id : NodeId} {ids ids' : List NodeId} {node : Node} {note : Annotation}
  {which : EngineConst} {args : List NodeId} {items : List VarItem} {c callee : NodeId}
  {kind : NodeKind} {scope : ScopeId} {cls copy x : SymbolId}

/-- From the state `s` on, the computation keeps to the course of the second walk, and `Q` holds of
its result. -/
abbrev Steers {α : Type} (aim : Aim) (s : Analysis) (x : AnalysisM α)
    (Q : α → Analysis → Prop := fun _ _ => True) : Prop :=
  Analysis.Obeys aim (Course aim) s s x Q

/-! ### What is attained -/

/-- All names that are walked below some nodes of the tree of a unit are bound, or an error has been
reported. -/
def AllBound (root : Analysis) (ids : List NodeId) (s : Analysis) : Prop :=
  root.tree.Throughout ids fun c kind => kind.Bound s c

theorem lasting_allBound (ids : List NodeId) : Lasting (AllBound root ids) :=
  fun _ _ h hs => hs.mono fun _ _ => .advances h

/-- There is nothing to bind at a node that has been appended to the tree. -/
theorem allBound_absent (habsent : root.tree.node? id = none) : AllBound root [id] s := by
  have hkind : ∀ first, root.tree.node? id = some first → first.kind = .this := by
    intro first hfirst
    rw [habsent] at hfirst
    cases hfirst
  exact Tree.throughout_node hkind trivial fun _ => Tree.throughout_nil

/-- On the way from `s` to `s'`, the names below some nodes have been bound. -/
def Binds (fine : Prop) (ids : List NodeId) (s s' : Analysis) : Prop :=
  fine → ∀ root, Follows root s → AllDeclared root ids s → AllBound root ids s'

namespace Binds

variable {fine : Prop}

theorem of_advances (h : fine → s.Advances s₁) (hbinds : Binds fine ids s₁ s') :
    Binds fine ids s s' := fun hfine root hs hdeclared =>
  hbinds hfine root (hs.next (h hfine)) (lasting_allDeclared ids (h hfine) hdeclared)

theorem before (h : Heads aim s s₁) (hbinds : Binds aim.fine ids s₁ s') :
    Binds aim.fine ids s s' :=
  hbinds.of_advances h.advances

theorem and_advances (h : fine → s₁.Advances s') (hbinds : Binds fine ids s s₁) :
    Binds fine ids s s' := fun hfine root hs hdeclared =>
  lasting_allBound ids (h hfine) (hbinds hfine root hs hdeclared)

theorem after (h : Heads aim s₁ s') (hbinds : Binds aim.fine ids s s₁) :
    Binds aim.fine ids s s' :=
  hbinds.and_advances h.advances

theorem nil : Binds fine [] s s' := fun _ _ _ _ => Tree.throughout_nil

theorem append (h : Binds fine ids s s') (h' : Binds fine ids' s s') :
    Binds fine (ids ++ ids') s s' := fun hfine root hs hdeclared =>
  Tree.throughout_append.mpr ⟨h hfine root hs (Tree.throughout_append.mp hdeclared).1,
    h' hfine root hs (Tree.throughout_append.mp hdeclared).2⟩

theorem of_forall (h : ∀ id ∈ ids, Binds fine [id] s s') : Binds fine ids s s' :=
  fun hfine root hs hdeclared => Tree.throughout_of_forall fun id hid =>
    h id hid hfine root hs (hdeclared.of_mem hid)

theorem filterMap {α : Type} {items : List α} {slot : α → Option NodeId}
    (h : ∀ a ∈ items, Binds fine (slot a).toList s s') :
    Binds fine (items.filterMap slot) s s' := by
  refine .of_forall fun id hid => ?_
  obtain ⟨a, ha, hslot⟩ := List.mem_filterMap.mp hid
  have hbinds := h a ha
  rwa [hslot] at hbinds

end Binds

/-- The node itself and what is walked below it has been bound on the way from `s` to `s'`, if the
first walk has noted what it takes. -/
def Completes (fine : Prop) (id : NodeId) (kind : NodeKind) (s s' : Analysis) : Prop :=
  fine → kind.Declared s id → kind.Bound s' id ∧
    (kind.isEntered = true → Binds fine kind.children s s')

theorem Completes.binds {fine : Prop} (hnode : s.tree.node? id = some node)
    (h : Completes fine id node.kind s s') : Binds fine [id] s s' := by
  intro hfine root hs hdeclared
  cases hfirst : root.tree.node? id with
  | none => exact allBound_absent hfirst
  | some first =>
    have hkind := hs.kind_eq hnode first hfirst
    have hhere := hdeclared.here hfirst
    have hbelow := hdeclared.children hfirst
    rw [hkind] at hhere hbelow
    obtain ⟨hbound, hchildren⟩ := h hfine hhere
    exact Tree.throughout_node (hs.kind_eq hnode) hbound fun hentered =>
      hchildren hentered hfine root hs (hbelow hentered)

theorem Completes.of_children {fine : Prop} (hbound : kind.Bound s' id)
    (h : Binds fine kind.children s s') : Completes fine id kind s s' :=
  fun _ _ => ⟨hbound, fun _ => h⟩

/-- What a walk relies on: no type is being resolved, the reducer finds what it needs, and a copy is
only walked inside the class that it was copied into. -/
structure Safe (aim : Aim) (ctx : Context) (s : Analysis) : Prop where
  idle : s.Idle aim
  confined : aim.home → aim.env.reducer.Confined
  grounded : ctx.cls = none → ctx.traitOrigin = none

theorem Safe.onward (hs : Safe aim ctx s) (h : Heads aim s s') : Safe aim ctx s' :=
  ⟨hs.idle.onward h.toOnward, hs.confined, hs.grounded⟩

theorem Safe.at (hs : Safe aim ctx s) (scope : ScopeId) : Safe aim { ctx with scope } s :=
  ⟨hs.idle, hs.confined, hs.grounded⟩

theorem Safe.marks (hs : Safe aim ctx s) (h : s.Marks s') : Safe aim ctx s' :=
  ⟨h.ready hs.idle, hs.confined, hs.grounded⟩

/-- A walk that keeps to its course, wherever it is. -/
def Walk.Obeys (aim : Aim) (visit : Walk) : Prop :=
  ∀ {ctx : Context} {id : NodeId} {s : Analysis}, Safe aim ctx s → s.Stands aim ctx id →
    Steers aim s (visit ctx id) fun _ s' => Binds aim.fine [id] s s'

theorem Walk.Obeys.forM (hvisit : visit.Obeys aim) (hs : Safe aim ctx s)
    (hids : ∀ id ∈ ids, s.Stands aim ctx id) :
    Steers aim s (ids.forM (visit ctx))
      fun _ s' => Binds aim.fine ids s s' := by
  refine (Analysis.Obeys.forM (F := fun id s' => Binds aim.fine [id] s s')
    (fun id hid s' h => (hvisit (hs.onward h) (h.stands (hids id hid))).imp
      fun _ _ hbinds => hbinds.before h) fun _ _ _ _ _ h hbinds => hbinds.after h).imp ?_
  exact fun _ _ h => .of_forall h

/-! ### Contexts and constants -/

theorem resolveTypesIn_obeys (hs : s.Idle aim) (scope : ScopeId) :
    Steers aim s (resolveTypesIn aim.env scope) :=
  .currentGraph_bind (.forM_ fun x _ _ h =>
    ((Hierarchy.resolveType_obeys (hs.onward h.toOnward) x).widen .changes).anyway)

theorem moveTo_obeys (hs : s.Idle aim) (ctx : Context) (scope : ScopeId) :
    Steers aim s (moveTo aim.env ctx scope)
      fun inside _ => inside = { ctx with scope } := by
  refine .ite (fun hscope => .pure ?_) fun _ => (resolveTypesIn_obeys hs scope).bind
    fun _ _ _ _ => .pure rfl
  rw [hscope]

theorem moveInto_obeys (hs : s.Idle aim) (ctx : Context)
    (note : Annotation) :
    Steers aim s (moveInto aim.env ctx note)
      fun inside _ => ∃ scope, inside = { ctx with scope } := by
  unfold moveInto
  split
  · exact (moveTo_obeys hs ctx _).imp fun _ _ h => ⟨_, h⟩
  · exact .pure ⟨_, rfl⟩

theorem setValue_obeys (x : SymbolId) (value : Value) :
    Steers aim s (setValue x value) :=
  .done rfl (fun _ => .changes (.graph (.fill x fun _ => rfl))) trivial

theorem setReachable_obeys (x : SymbolId) :
    Steers aim s (setReachable x) :=
  .done rfl (fun _ => .changes (.graph (.reach x))) trivial

section Initializers

variable (hvisit : visit.Obeys aim) (hs : Safe aim ctx s) {pairs : List (SymbolId × VarItem)}

include hvisit hs

theorem visitInit_obeys (x : SymbolId) (init : Option NodeId)
    (hinit : ∀ c ∈ init.toList, s.Stands aim ctx c) :
    Steers aim s (visitInit aim.env visit ctx x init)
      fun _ s' => Binds aim.fine init.toList s s' := by
  cases init with
  | none => exact .pure .nil
  | some init =>
    have hknown := hinit init List.mem_cons_self
    refine (hvisit hs hknown).bind fun _ s₁ h hbinds => .symbol_bind ?_
    refine Obeys.imp (Obeys.keep (Q := fun _ _ => True)
      (.ite (fun _ => ?_) fun _ => .pure trivial)) fun _ _ h' => hbinds.after h'.1
    exact (Obeys.reduce hs.confined (h.known hknown.1)).bind fun value _ _ _ =>
      setValue_obeys x value

theorem visitVariables_obeys
    (hpairs : ∀ pair ∈ pairs, ∀ c ∈ pair.2.init.toList, s.Stands aim ctx c) :
    Steers aim s (visitVariables aim.env visit ctx pairs)
      fun _ s' => ∀ pair ∈ pairs, Binds aim.fine pair.2.init.toList s s' := by
  refine .forM (F := fun (pair : SymbolId × VarItem) s' => Binds aim.fine pair.2.init.toList s s')
    (fun pair hpair s₁ h => ?_) fun _ _ _ _ _ h hbinds => hbinds.after h
  refine (visitInit_obeys hvisit (hs.onward h) pair.1 pair.2.init fun c hc =>
    h.stands (hpairs pair hpair c hc)).bind fun _ s₂ h₂ hbinds => ?_
  exact (setReachable_obeys pair.1).keep.imp fun _ _ h' => (hbinds.after h'.1).before h

/-- The members of an enumeration are visited in order, each with the value that is next. -/
theorem visitEnum_obeys (hpairs : ∀ pair ∈ pairs, ∀ c ∈ pair.2.init.toList, s.Stands aim ctx c)
    (next : Int) :
    Steers aim s (visitEnum aim.env visit ctx next pairs)
      fun _ s' => ∀ pair ∈ pairs, Binds aim.fine pair.2.init.toList s s' := by
  induction pairs generalizing next s with
  | nil => exact .pure nofun
  | cons pair rest ih =>
    obtain ⟨x, item⟩ := pair
    have hrest : ∀ (value : Value) s₁, Heads aim s s₁ →
        Binds aim.fine item.init.toList s s₁ → Steers aim s₁ (do
          setReachable x
          setValue x value
          visitEnum aim.env visit ctx (nextMember next value) rest) fun _ s' =>
            ∀ pair ∈ (x, item) :: rest, Binds aim.fine pair.2.init.toList s s' := by
      intro value s₁ h₁ hbinds
      refine (setReachable_obeys x).bind fun _ s₂ h₂ _ => (setValue_obeys x value).bind
        fun _ s₃ h₃ _ => ?_
      have h₁₃ := h₁.trans (h₂.trans h₃)
      refine (ih (hs.onward h₁₃) (fun pair hpair c hc => h₁₃.stands (hpairs pair
        (List.mem_cons_of_mem _ hpair) c hc)) _).keep.imp fun _ s' ⟨h', hlast⟩ => ?_
      exact List.forall_mem_cons.mpr ⟨hbinds.after ((h₂.trans h₃).trans h'),
        fun pair hpair => (hlast pair hpair).before h₁₃⟩
    have hfirst := hpairs (x, item) List.mem_cons_self
    unfold visitEnum
    cases hinit : item.init with
    | none =>
      rw [hinit] at hrest
      exact .of_proper fun hproper =>
        hrest _ s (Course.refl.heads hproper.coherent hproper.intact) .nil
    | some init =>
      rw [hinit] at hrest hfirst
      have hknown := hfirst init List.mem_cons_self
      refine (hvisit hs hknown).bind fun _ s₁ h₁ hbinds => ?_
      exact (Obeys.reduce hs.confined (h₁.known hknown.1)).bind fun value s₂ h₂ _ =>
        hrest value s₂ (h₁.trans h₂) (hbinds.after h₂)

end Initializers

theorem bindConstant_obeys (hid : At id (.engineConst which) s) (text : String) :
    Steers aim s (bindConstant id text) := by
  refine .annotate ?_ fun _ _ => ⟨fun _ => .constant text hid, trivial⟩
  obtain ⟨node, hnode, -⟩ := hid
  exact known_of_node? hnode

theorem visitEngineConst_obeys (hs : Safe aim ctx s) (hid : At id (.engineConst which) s) :
    Steers aim s (visitEngineConst ctx id node which) := by
  unfold visitEngineConst
  split
  · exact .pure trivial
  · refine .ite (fun hfloating => ?_) fun _ => .currentGraph_bind ?_
    · -- there is a class around every copy
      rw [Bool.and_eq_true, Option.isNone_iff_eq_none] at hfloating
      rw [hs.grounded hfloating.1] at hfloating
      cases hfloating.2
    · split
      · exact bindConstant_obeys hid _
      · refine .next rfl (.settle (fun _ => .changes (.log .push)) fun _ _ => ?_)
        exact bindConstant_obeys (s := { s with log := s.log.warn _ _ }) hid _

/-! ### Names and members -/

theorem report_obeys {span : Span} {problem : Problem} : Steers aim s (report span problem) :=
  (Obeys.report span problem).anyway

theorem accept_obeys (span : Span) (what : String) (result : Lookup) :
    Steers aim s (accept span what result)
      fun found s' => found = none → ¬ s'.log.Clean := by
  refine .currentGraph_bind ?_
  split
  · exact .pure nofun
  · exact (Obeys.report span _).bind fun _ _ _ hreported => .pure fun _ => hreported

theorem lookupPath_obeys (scope : ScopeId) (path : QualName) (ns : Namespace) :
    Steers aim s (onGraph (·.lookupPath scope path ns)) :=
  .done rfl (fun _ => .changes (.graph (.lookUp scope path ns))) trivial

theorem lookupName_obeys (scope : ScopeId) (path : QualName) :
    Steers aim s (lookupName scope path) := by
  refine (lookupPath_obeys scope path .value).bind fun result _ _ _ => ?_
  split
  · exact lookupPath_obeys scope path .type
  · exact .pure trivial

theorem bindNode_obeys (href : s.Refers aim id) (x : SymbolId) :
    Steers aim s (Analysis.bind id x)
      fun _ s' => aim.fine → s'.Noted id := by
  refine .annotate href.1 fun node hnode => ⟨fun _ => .refer node.kind x .refl
    fun hfine => ?_, fun hfine => ?_⟩
  all_goals
    obtain ⟨kind, hkind, node', hnode', rfl⟩ := href.2 hfine
    cases hnode.symm.trans hnode'
    obtain ⟨hreference, hsuits⟩ := NodeKind.suits_of_isFree hkind aim s id x
  · exact ⟨hreference, ⟨node, hnode, rfl⟩, hsuits⟩
  · exact ⟨_, node?_annotate_self hnode _, NodeKind.fits_of_isReference hreference _ x⟩

theorem bindName_obeys (hs : s.Idle aim) (href : s.Refers aim id) (ctx : Context) (span : Span)
    (path : QualName) :
    Steers aim s (bindName aim.env ctx id span path)
      fun _ s' => aim.fine → s'.log.Clean → s'.Noted id := by
  refine (lookupName_obeys ctx.scope path).bind fun result s₁ h₁ _ =>
    (accept_obeys span _ result).bind fun found s₂ h₂ hnone => ?_
  have h := h₁.trans h₂
  cases found with
  | none => exact .pure fun _ hclean => absurd hclean (hnone rfl)
  | some x =>
    refine ((Hierarchy.resolveType_obeys (hs.onward h.toOnward) x).widen .changes).bind
      fun _ s₃ h₃ _ => ?_
    refine Obeys.bind (P := fun _ _ => True) (.currentGraph_bind (.ite
      (fun _ => report_obeys) fun _ => .pure trivial))
      fun _ s₄ h₄ _ => ?_
    have h' := h.trans (h₃.trans h₄)
    exact (bindNode_obeys (href.onward h') x).bind fun _ _ _ hnoted =>
      .pure fun hfine _ => hnoted hfine

theorem requireClass_obeys (ctx : Context) (span : Span) (keyword : String) :
    Steers aim s (requireClass ctx span keyword)
      fun found _ => ∀ cls, found = some cls → ctx.cls = some cls := by
  unfold requireClass
  split
  next hcls => exact .pure fun _ h => h ▸ hcls
  · exact (Obeys.report _ _).bind fun _ _ _ _ => .pure nofun

theorem requireSuperclass_obeys (ctx : Context) (span : Span) :
    Steers aim s (requireSuperclass aim.env ctx span) := by
  refine (requireClass_obeys ctx span "super").bind fun cls _ _ _ => ?_
  split
  · exact .pure trivial
  · refine .currentGraph_bind ?_
    split
    · exact .pure trivial
    · exact report_obeys.bind fun _ _ _ _ => .pure trivial

theorem bindThis_obeys (hid : s.Stands aim ctx id) (hat : At id .this s) (span : Span) :
    Steers aim s (bindThis ctx id span) := by
  refine (requireClass_obeys ctx span "this").bind fun found s₁ h hfound => ?_
  split
  · exact .pure trivial
  next cls =>
    refine .currentGraph_bind ?_
    split
    · exact report_obeys.bind fun _ _ _ _ => .pure trivial
    next hproblem =>
      refine Obeys.bind (P := fun _ _ => True) (.annotate (h.known hid.1) fun node hnode =>
        ⟨fun _ => .refer .this cls .refl fun hfine => ⟨rfl, .onward h.toOnward hfine hat,
          fun hnoted => ⟨ctx.functions, ?_, fun f hf => ?_⟩⟩, trivial⟩) fun _ _ _ _ => .pure trivial
      · exact hfound cls rfl ▸ (h.stands hid).2 hnoted
      · -- there would have been a problem
        have hmethod : ctx.method? s₁.graph = some f := hf
        unfold thisProblem? at hproblem
        split at hproblem
        · cases hproblem
        · rw [hmethod, Option.bind_some] at hproblem
          split at hproblem
          · cases hproblem
          next hstatic => exact Bool.eq_false_iff.mpr hstatic

section Keywords

variable (href : s.Refers aim id)

include href

theorem bindSelf_obeys (ctx : Context) (span : Span) :
    Steers aim s (bindSelf ctx id span) := by
  refine (requireClass_obeys ctx span "self").bind fun cls s₁ h _ => ?_
  split
  · exact .pure trivial
  · exact (bindNode_obeys (href.onward h) _).bind fun _ _ _ _ => .pure trivial

theorem bindSuper_obeys (ctx : Context) (span : Span) :
    Steers aim s (bindSuper aim.env ctx id span) := by
  refine (requireSuperclass_obeys ctx span).bind fun super s₁ h _ => ?_
  split
  · exact .pure trivial
  · exact (bindNode_obeys (href.onward h) _).bind fun _ _ _ _ => .pure trivial

theorem bindMember_obeys (cls : SymbolId) (span : Span) (name : String) (viaSuper : Bool)
    (problem? : Graph → SymbolId → Option Problem) :
    Steers aim s (bindMember cls id span name viaSuper problem?) := by
  refine Obeys.bind (P := fun _ _ => True) (.currentGraph_bind ?_) fun member s₁ h _ => ?_
  · split
    · exact .pure trivial
    · exact (accept_obeys _ _ _).anyway
  · have hbind : ∀ x s₂, Heads aim s s₂ →
        Steers aim s₂ (Analysis.bind id x) := fun x s₂ h =>
      (bindNode_obeys (href.onward h) x).anyway
    split
    · exact .pure trivial
    · refine .currentGraph_bind ?_
      split
      · exact (Obeys.report _ _).bind fun _ s₂ h₂ _ => hbind _ s₂ (h.trans h₂)
      · exact hbind _ s₁ h

end Keywords

/-! ### Modules, classes and functions -/

theorem visitModule_eq (env : Environment) (visit : Walk) (ctx : Context)
    (hscope : node.note.scope = some scope) (body : List NodeId) :
    visitModule env visit ctx node body = (do
      let isModule := ((← currentGraph).scope scope).kind == .module
      let enclosingModule := if isModule then some scope else none
      inScope scope node.span do
        let inside ← moveTo env { ctx with enclosingModule } scope
        body.forM (visit inside)) := by
  simp only [visitModule, hscope, inScope, bind_assoc]

theorem visitModule_obeys (hvisit : visit.Obeys aim) (hs : Safe aim ctx s)
    (hnode : s.tree.node? id = some node) {body : List NodeId}
    (hbody : ∀ c ∈ body, s.Stands aim ctx c) :
    Steers aim s (visitModule aim.env visit ctx node body)
      fun _ s' => node.note.scope.isSome = true → Binds aim.fine body s s' := by
  cases hscope : node.note.scope with
  | none =>
    unfold visitModule
    rw [hscope]
    exact .pure nofun
  | some scope =>
    rw [visitModule_eq aim.env visit ctx hscope]
    refine .of_proper fun hproper => .currentGraph_bind ?_
    refine (inScope_obeys (P := fun s' => Binds aim.fine body s s') node.span (fun hfine =>
      (hproper.intact hfine).scope_lt hnode hscope) fun hmarks => ?_).imp
        fun _ s' ⟨s₂, hbinds, hlast⟩ _ => hbinds.and_advances fun _ => hlast
    have hbegun := hs.marks hmarks
    refine (moveTo_obeys hbegun.idle _ scope).bind fun inside s₁ h₁ hinside => ?_
    have hinside' : Safe aim inside s₁ := ⟨hbegun.idle.onward h₁.toOnward, hs.confined,
      hinside ▸ hs.grounded⟩
    exact (hvisit.forM hinside' fun c hc =>
      h₁.stands (hinside ▸ hmarks.stands hproper.coherent (hbody c hc))).imp fun _ _ hbinds =>
        (hbinds.before h₁).of_advances fun _ => hmarks.advances

theorem visitUse_obeys (node : Node) (path : QualName) :
    Steers aim s (visitUse node path) := by
  refine .currentGraph_bind ?_
  split
  · exact .pure trivial
  · dsimp only
    split
    · exact .done rfl (fun _ => .changes (.graph (.linkImport _ _))) trivial
    · exact .ite (fun _ => report_obeys) fun _ =>
        .ite (fun _ => .pure trivial) fun _ => report_obeys

theorem visitRequire_obeys (hvisit : visit.Obeys aim) (hs : Safe aim ctx s) {path : NodeId}
    {foreign : Bool} (hid : At id (.require path foreign) s) (span : Span)
    (hpath : s.Stands aim ctx path) :
    Steers aim s (visitRequire aim.env visit ctx id span path foreign)
      fun _ s' => Binds aim.fine [path] s s' := by
  refine (hvisit hs hpath).bind fun _ s₁ h₁ hbinds => ?_
  refine (Obeys.keep (Q := fun _ _ => True) ?_).imp fun _ _ h => hbinds.after h.1
  refine (Obeys.reduce hs.confined (h₁.known hpath.1)).bind fun value s₂ h₂ _ => ?_
  split
  · exact report_obeys
  next raw hvalue =>
    refine .get_bind (.next rfl (.annotate ?_ fun _ _ => ⟨fun _ => ?_, trivial⟩))
    · obtain ⟨node, hnode, -⟩ := hid
      exact (h₁.trans h₂).known (known_of_node? hnode)
    · exact .require (fun hfine => At.onward (h₁.trans h₂).toOnward hfine hid) hvalue rfl

theorem known_of_subtree? (hs : s.Proper aim) (hc : (s.graph.symbol x).subtree? = some c) :
    s.Known aim c :=
  fun hhome => hs.cited hhome c ⟨x, hc⟩

/-- The subtree of a member that was copied into a class stands in that class. -/
theorem placed_copy {outer : Option SymbolId} {functions : List SymbolId} {decl : ClassDecl}
    {members : ScopeId} (hs : s.Proper aim) (hnoted : aim.noted)
    (hid : s.tree.Placed s.graph outer functions id) (hnode : s.tree.node? id = some node)
    (hkind : node.kind = .classDecl decl) (hcls : node.note.symbol = some cls)
    (hmembers : (s.graph.symbol cls).members? = some members)
    (hcopy : copy ∈ copiedMembers s.graph cls members) (h : Heads aim s s')
    (hc : (s'.graph.symbol copy).subtree? = some c) :
    s'.tree.Placed s'.graph (some cls) [] c := by
  have hfirm := h.firm (aim.fine_of_noted hnoted)
  obtain ⟨hmem, horigin⟩ := List.mem_filter.mp hcopy
  rw [Option.isSome_iff_ne_none] at horigin
  have hlodges : s.graph.Lodges members copy := by
    refine Graph.lodges_of_mem_members hs.coherent (hs.sorted hnoted).resident
      (hs.intact (aim.fine_of_noted hnoted)).regular hmembers ?_
    rwa [Graph.slotIds, Graph.membersOf?, hmembers, Option.bind_some]
  have hlt := Graph.lt_size_of (P := (·.origin ≠ none)) horigin fun h => h rfl
  rw [hfirm.graph.subtree? hlt (.inr horigin)] at hc
  exact (Tree.Placed.copy hid hnode hkind hcls hmembers hlodges horigin hc).firm hfirm

theorem visitCopy_obeys (hvisit : visit.Obeys aim) (hctx : ctx.cls.isSome = true)
    (hs : Safe aim ctx s)
    (hcopy : ∀ c, s.Proper aim → (s.graph.symbol copy).subtree? = some c → s.Stands aim ctx c) :
    Steers aim s (visitCopy aim.env visit ctx copy) := by
  refine .of_proper fun hproper => .symbol_bind ?_
  have hinside : Safe aim { ctx with traitOrigin := (s.graph.symbol copy).origin } s :=
    ⟨hs.idle, hs.confined, fun hnone => absurd hctx (Option.not_isSome_iff_eq_none.mpr hnone)⟩
  split
  next data hdata =>
    refine (hvisit.forM hinside fun c hc => hcopy c hproper ?_).anyway
    rw [Symbol.subtree?, hdata]
    exact Option.mem_toList.mp hc
  next data hdata =>
    refine (visitInit_obeys hvisit hinside copy data.init fun c hc =>
      hcopy c hproper ?_).anyway
    rw [Symbol.subtree?, hdata]
    exact Option.mem_toList.mp hc
  next => exact .pure trivial

theorem visitClass_eq (env : Environment) (visit : Walk) (ctx : Context)
    (hsymbol : node.note.symbol = some cls) (hscope : node.note.scope = some scope)
    (members : List NodeId) :
    visitClass env visit ctx node members = (do
      Hierarchy.resolveType env cls
      inScope scope node.span do
        let inside ←
          moveTo env
            { scope := ctx.scope, cls := some cls, enclosingModule := ctx.enclosingModule } scope
        members.forM (visit inside)
        (copiedMembers (← currentGraph) cls scope).forM (visitCopy env visit inside)) := by
  simp only [visitClass, hsymbol, hscope, inScope, bind_assoc]

/-- A class is resolved before its members are visited, and copies of trait members come last. -/
theorem visitClass_obeys (hvisit : visit.Obeys aim) (hs : Safe aim ctx s)
    (hid : s.Stands aim ctx id)
    (hnode : s.tree.node? id = some node) {decl : ClassDecl} (hkind : node.kind = .classDecl decl) :
    Steers aim s (visitClass aim.env visit ctx node decl.members)
      fun _ s' => node.note.symbol.isSome = true → node.note.scope.isSome = true →
        Binds aim.fine decl.members s s' := by
  cases hsymbol : node.note.symbol with
  | none =>
    unfold visitClass
    rw [hsymbol]
    exact .pure nofun
  | some cls =>
  cases hscope : node.note.scope with
  | none =>
    unfold visitClass
    rw [hsymbol, hscope]
    exact .pure nofun
  | some scope =>
    rw [visitClass_eq aim.env visit ctx hsymbol hscope]
    refine .of_proper fun hproper => ((Hierarchy.resolveType_obeys hs.idle cls).widen .changes).bind
      fun _ s₁ h₁ _ => ?_
    have hmembers : ∀ c ∈ decl.members, s.Stands aim { scope, cls := some cls } c := fun c hc =>
      ⟨hproper.known_child hnode (hkind ▸ hc), fun hnoted =>
        .member (hid.2 hnoted) hnode hkind hsymbol hc⟩
    refine (inScope_obeys (P := fun s' => Binds aim.fine decl.members s s') node.span (fun hfine =>
      lasting_open scope (h₁.advances hfine) ((hproper.intact hfine).scope_lt hnode hscope))
        fun hmarks => ?_).imp fun _ s' ⟨s₂, hbinds, hlast⟩ _ _ => hbinds.and_advances fun _ => hlast
    have hready := hmarks.ready (hs.onward h₁).idle
    refine (moveTo_obeys hready _ scope).bind fun inside s₂ h₂ hinside => ?_
    have hcls : inside.cls = some cls := congrArg Context.cls hinside
    have hfunctions : inside.functions = [] := congrArg Context.functions hinside
    have hinside' : Safe aim inside s₂ :=
      ⟨hready.onward h₂.toOnward, hs.confined, fun hnone => nomatch hcls.symm.trans hnone⟩
    refine (hvisit.forM hinside' fun c hc => h₂.stands (hinside ▸
      hmarks.stands h₁.after.1 (h₁.stands (hmembers c hc)))).bind fun _ s₃ h₃ hbinds =>
        .of_proper fun hproper₃ => .currentGraph_bind ?_
    -- the copies are visited last, and what has been bound stays bound
    refine (Obeys.forM_ fun copy hcopy s' h => visitCopy_obeys hvisit (hcls ▸ rfl)
      (hinside'.onward (h₃.trans h)) fun c hs hc => ⟨known_of_subtree? hs hc, fun hnoted => ?_⟩
        ).keep.imp fun _ _ h => .before h₁
          (.of_advances (fun _ => hmarks.advances) ((hbinds.after h.1).before h₂))
    have hfine := aim.fine_of_noted hnoted
    have hfirm := ((h₁.firm hfine).trans (hmarks.firm h₁.after.1)).trans ((h₂.trans h₃).firm hfine)
    obtain ⟨node', hnode', hsame, hsymbol'⟩ := hfirm.node? hnode (hkind ▸ rfl) hsymbol
    obtain ⟨hlt, hscopes⟩ :=
      (hproper.sorted hnoted).backed id node hnode (hkind ▸ rfl) cls hsymbol
    rw [hcls, hfunctions]
    exact placed_copy hproper₃ hnoted ((hid.2 hnoted).firm hfirm) hnode' (hsame.trans hkind)
      hsymbol' ((hfirm.graph.endures hlt).members?.trans (hscopes (hkind ▸ rfl) scope hscope))
      hcopy h hc

theorem checkThisBound_obeys (ctx : Context) (params : List SymbolId) :
    Steers aim s (checkThisBound ctx params) := by
  refine .currentGraph_bind ?_
  split
  · exact .pure trivial
  · exact .forM_ fun _ _ _ _ => .ite (fun _ => report_obeys)
      fun _ => .pure trivial

/-- A body that is a block is passed over: only its statements are visited. -/
theorem visitBody_obeys (hvisit : visit.Obeys aim) (hs : Safe aim ctx s) {body : NodeId}
    (hbody : s.Stands aim ctx body) :
    Steers aim s (do
      match (← read body).kind with
      | .block statements => statements.forM (visit ctx)
      | _ => visit ctx body) fun _ s' => Binds aim.fine [body] s s' := by
  refine .read_bind hbody.1 fun node hnode => .of_proper fun hproper => ?_
  split
  next statements hblock =>
    have hchildren : node.kind.children = statements := congrArg NodeKind.children hblock
    refine (hvisit.forM hs fun c hc => hbody.child hproper hnode (by rw [hblock]; rfl)
      (hchildren ▸ hc)).imp
      fun _ s' hbinds => (Completes.of_children ?_ (hchildren ▸ hbinds)).binds hnode
    rw [hblock]
    trivial
  next => exact hvisit hs hbody

section Functions

variable (hvisit : visit.Obeys aim) (hs : Safe aim ctx s) {decl : FnDecl}

include hvisit hs

/-- All default values are visited if no parameter is without a symbol. -/
theorem visitDefaults_obeys {symbols : List SymbolId} {params : List Param}
    (hparams : ∀ c ∈ params.filterMap Param.default, s.Stands aim ctx c) :
    Steers aim s
      ((symbols.zip params).forM fun item => visitInit aim.env visit ctx item.1 item.2.default)
      fun _ s' => params.length ≤ symbols.length →
        Binds aim.fine (params.filterMap Param.default) s s' := by
  refine (Obeys.forM (F := fun (item : SymbolId × Param) s' =>
    Binds aim.fine item.2.default.toList s s') (fun item hitem s₁ h => ?_)
      fun _ _ _ _ _ h hbinds => hbinds.after h).imp fun _ s' h hlength => ?_
  · refine (visitInit_obeys hvisit (hs.onward h) item.1 item.2.default fun c hc =>
      h.stands (hparams c ?_)).imp fun _ _ hbinds => hbinds.before h
    exact List.mem_filterMap.mpr ⟨item.2, (List.of_mem_zip hitem).2, Option.mem_toList.mp hc⟩
  · refine .filterMap fun param hparam => ?_
    rw [← List.map_snd_zip hlength] at hparam
    obtain ⟨item, hitem, rfl⟩ := List.mem_map.mp hparam
    exact h item hitem

theorem visitFunctionBody_obeys {params : List SymbolId}
    (hdecl : ∀ c ∈ decl.params.filterMap Param.default ++ decl.body.toList, s.Stands aim ctx c) :
    Steers aim s (visitFunctionBody aim.env visit ctx params decl)
      fun _ s' => decl.params.length ≤ params.length →
        Binds aim.fine (decl.params.filterMap Param.default ++ decl.body.toList) s s' := by
  refine (visitDefaults_obeys hvisit hs fun c hc => hdecl c
    (List.mem_append_left _ hc)).bind fun _ s₁ h₁ hdefaults => ?_
  refine .optionally (checkThisBound_obeys ctx params) fun s₂ h₂ => ?_
  have h := h₁.trans h₂
  have hbody : ∀ c ∈ decl.body.toList, s₂.Stands aim ctx c := fun c hc =>
    h.stands (hdecl c (List.mem_append_right _ hc))
  clear hdecl
  revert hbody
  cases decl.body with
  | none => exact fun _ => .pure fun hlength => ((hdefaults hlength).after h₂).append .nil
  | some body =>
    exact fun hbody => (visitBody_obeys hvisit (hs.onward h)
      (hbody body List.mem_cons_self)).keep.imp fun _ _ ⟨h', hbinds⟩ hlength =>
        ((hdefaults hlength).after (h₂.trans h')).append (hbinds.before h)

/-- A function with a scope has its defaults and its body visited, and one without is left alone. -/
theorem visitFunction_obeys (hid : s.Stands aim ctx id) (hnode : s.tree.node? id = some node)
    (hkind : node.kind = .fnDecl decl ∨ node.kind = .fnExpr decl) :
    Steers aim s (visitFunction aim.env visit ctx node decl)
      fun _ s' => node.note.scope.isSome = true →
        (∃ f, node.note.symbol = some f ∧ decl.params.length ≤ (s.graph.paramsOf f).length) →
        Binds aim.fine (decl.params.filterMap Param.default ++ decl.body.toList) s s' := by
  refine .of_proper fun hproper => ?_
  unfold visitFunction
  cases hsymbol : node.note.symbol with
  | none => exact .pure fun _ ⟨_, hf, _⟩ => nomatch hf
  | some f =>
    have hdecl : ∀ c ∈ decl.params.filterMap Param.default ++ decl.body.toList,
        s.Stands aim { ctx with functions := f :: ctx.functions } c := by
      have hchildren : node.kind.children =
          decl.params.filterMap Param.default ++ decl.body.toList := by
        rcases hkind with h | h <;> rw [h] <;> rfl
      refine fun c hc => ⟨hproper.known_child hnode (hchildren ▸ hc), fun hnoted => ?_⟩
      exact .inside (hid.2 hnoted) hnode hkind hsymbol ((hproper.sorted hnoted).backed id node hnode
        (NodeKind.isFrame_of_fn hkind) f hsymbol).1 (hchildren ▸ hc)
    refine .currentGraph_bind (.optionally ((Hierarchy.resolveHints_obeys ctx.scope f).widen
      .changes) fun s₁ h₁ => ?_)
    cases node.note.scope with
    | none => exact .pure nofun
    | some scope =>
      refine .currentGraph_bind ((moveTo_obeys (hs.onward h₁).idle _ scope).bind
        fun inside s₂ h₂ hinside => ?_)
      have h := h₁.trans h₂
      have hinside' : Safe aim inside s₂ :=
        ⟨hs.idle.onward h.toOnward, hs.confined, hinside ▸ hs.grounded⟩
      refine (visitFunctionBody_obeys hvisit hinside' fun c hc =>
        h.stands (hinside ▸ hdecl c hc)).imp fun _ _ hbinds _ hf hfine => ?_
      obtain ⟨_, heq, hlength⟩ := hf
      obtain rfl := Option.some.inj heq
      exact ((hbinds ((h₁.advances hfine).graph.le_params hlength)).before h) hfine

end Functions

/-! ### Expressions -/

theorem bindSuperCall_obeys (href : s.Refers aim callee) (ctx : Context) (span calleeSpan : Span) :
    Steers aim s (bindSuperCall aim.env ctx span callee calleeSpan) := by
  refine (requireSuperclass_obeys ctx calleeSpan).bind fun super s₁ h _ => ?_
  have hbind : ∀ x, Steers aim s₁ (Analysis.bind callee x) := fun x =>
    (bindNode_obeys (href.onward h) x).anyway
  split
  · exact .pure trivial
  · refine .currentGraph_bind ?_
    split
    · exact hbind _
    · exact .ite (fun _ => report_obeys) fun _ => hbind _

section Calls

variable (hvisit : visit.Obeys aim) (hs : Safe aim ctx s)

include hvisit hs

theorem visitAssign_obeys {target value : NodeId}
    (htarget : s.Stands aim ctx target) (hvalue : s.Stands aim ctx value) :
    Steers aim s (visitAssign visit ctx target value)
      fun _ s' => Binds aim.fine [target, value] s s' := by
  refine (hvisit hs hvalue).bind fun _ s₁ h₁ hbinds => (hvisit (hs.onward h₁)
    (h₁.stands htarget)).bind fun _ s₂ h₂ hbinds' => ?_
  refine (Obeys.keep (Q := fun _ _ => True) (.read_bind ?_ fun node _ => ?_)).imp
    fun _ s' h => ((hbinds'.after h.1).before h₁).append (hbinds.after (h₂.trans h.1))
  · exact (h₁.trans h₂).known htarget.1
  · split
    · exact .pure trivial
    · refine .currentGraph_bind ?_
      split
      · exact report_obeys
      · exact .pure trivial

theorem visitSuperCall_obeys (href : s.Refers aim callee) (span calleeSpan : Span)
    (hargs : ∀ c ∈ args, s.Stands aim ctx c) :
    Steers aim s (visitSuperCall aim.env visit ctx span callee calleeSpan args)
      fun _ s' => Binds aim.fine args s s' := by
  refine .currentGraph_bind (.ite (fun _ => ?_) fun _ => ?_)
  · refine (bindSuperCall_obeys href ctx span calleeSpan).bind fun _ s₁ h₁ _ =>
      .currentGraph_bind ?_
    refine (withheld_obeys (P := fun s' => Binds aim.fine args s₁ s') (ctx.members? s₁.graph)
      fun s₂ hmarks => ?_).imp fun _ s' ⟨s₃, hbinds, hlast⟩ =>
        (hbinds.and_advances fun _ => hlast).before h₁
    have hinside : Safe aim { ctx with forwarding := true } s₂ :=
      ⟨((hs.onward h₁).marks hmarks).idle, hs.confined, hs.grounded⟩
    exact (hvisit.forM hinside
      fun c hc => hmarks.stands h₁.after.1 (h₁.stands (hargs c hc))).imp fun _ _ hbinds =>
        hbinds.of_advances fun _ => hmarks.advances
  · exact (Obeys.report _ _).bind fun _ s₁ h₁ _ => (hvisit.forM (hs.onward h₁)
      fun c hc => h₁.stands (hargs c hc)).imp fun _ _ hbinds => hbinds.before h₁

theorem visitCall_obeys (span : Span) (hknown : ∀ c ∈ callee :: args, s.Stands aim ctx c) :
    Steers aim s (visitCall aim.env visit ctx span callee args)
      fun _ s' => Binds aim.fine (callee :: args) s s' := by
  obtain ⟨hcallee, hargs⟩ := List.forall_mem_cons.mp hknown
  refine .read_bind hcallee.1 fun target htarget => ?_
  split
  next hsuper =>
    have hreference : target.kind.isFree = true := by rw [hsuper]; rfl
    refine (visitSuperCall_obeys hvisit hs (refers_of_node? htarget hreference) span
      target.span hargs).imp fun _ s' hbinds => ?_
    have hcalled : Binds aim.fine [callee] s s' := by
      refine (Completes.of_children ?_ ?_).binds htarget <;> rw [hsuper]
      · trivial
      · exact .nil
    exact hcalled.append hbinds
  next =>
    exact (hvisit hs hcallee).bind fun _ s₁ h₁ hbinds => (hvisit.forM (hs.onward h₁)
      fun c hc => h₁.stands (hargs c hc)).keep.imp fun _ _ ⟨h', hbinds'⟩ =>
        (hbinds.after h').append (hbinds'.before h₁)

end Calls

/-- Nothing is wrong only with classes that are not abstract. -/
theorem instantiable_of_none {g : Graph}
    (hsettled : (g.symbol x).data.resolution? ≠ some .unresolved)
    (h : uninstantiable? (g.symbol x) = none) : g.Instantiable x := by
  unfold uninstantiable? at h
  split at h
  next hkind =>
    split at h
    · cases h
    next habstract => exact ⟨hkind, hsettled, Bool.eq_false_iff.mpr habstract⟩
  all_goals cases h

theorem bindNew_obeys (hs : s.Idle aim) (hid : s.Known aim id)
    {host : QualName} (hat : At id (.new host args) s) (ctx : Context) (span : Span)
    (path : QualName) : Steers aim s (bindNew aim.env ctx id span path) := by
  refine (lookupPath_obeys ctx.scope path .type).bind fun result s₁ h₁ _ =>
    (accept_obeys span _ result).bind fun found s₂ h₂ _ => ?_
  cases found with
  | none => exact .pure trivial
  | some x =>
    refine ((Hierarchy.resolveType_obeys (hs.onward (h₁.trans h₂).toOnward) x).widen .changes).bind
      fun _ s₃ h₃ hsettled => .annotate_bind ?_ fun node hnode => .currentGraph_bind ?_
    · exact (h₁.trans (h₂.trans h₃)).known hid
    have hat₃ : aim.fine → At id (.new host args) s₃ := fun hfine =>
      .onward (h₁.trans (h₂.trans h₃)).toOnward hfine hat
    split
    · refine .done rfl (fun _ => .refer _ x .push fun hfine => ⟨rfl, hat₃ hfine, fun hclean => ?_⟩)
        trivial
      exact absurd hclean (Log.not_clean_problem _ _ _)
    next hnone =>
      exact .done rfl (fun _ => .refer _ x .refl fun hfine => ⟨rfl, hat₃ hfine, fun _ =>
        instantiable_of_none hsettled hnone⟩) trivial

section Members

variable (hs : Safe aim ctx s) (href : s.Refers aim id) {object : NodeId}

include hs href

theorem visitNamedMember_obeys (span objectSpan : Span) (hobject : s.Refers aim object)
    (path : QualName) (name : String) :
    Steers aim s
      (visitNamedMember aim.env ctx id span object objectSpan path name)
      fun _ s' => aim.fine → s'.log.Clean → s'.Noted object := by
  refine (bindName_obeys hs.idle hobject ctx objectSpan path).bind
    fun target s₁ h₁ hnoted => ?_
  refine (Obeys.keep (Q := fun _ _ => True) ?_).imp fun _ s' h hfine hclean =>
    (h.1.advances hfine).noted (hnoted hfine ((h.1.advances hfine).clean hclean))
  have hreport : ∀ p, Steers aim s₁ (report span p) := fun p =>
    (Obeys.report span p).anyway
  split
  · exact .pure trivial
  · refine .symbol_bind ?_
    split
    · exact bindMember_obeys (href.onward h₁) _ span name false _
    · exact hreport _
    · exact hreport _
    · exact .pure trivial

/-- A keyword or a name before the dot is bound first, and then the member; any other object is only
visited. -/
theorem visitMember_obeys (hvisit : visit.Obeys aim)
    (hobject : s.Stands aim ctx object) (span : Span) (name : String) :
    Steers aim s (visitMember aim.env visit ctx id span object name)
      fun _ s' => Binds aim.fine [object] s s' := by
  refine .read_bind hobject.1 fun node hnode => ?_
  -- a keyword is bound here, and then the member
  have hkeyword : ∀ {x : AnalysisM (Option SymbolId)} {f : Option SymbolId → AnalysisM Unit},
      node.kind.children = [] → (∀ s', node.kind.Bound s' object) →
      Steers aim s x → f none = pure () →
      (∀ cls, ∃ viaSuper problem?, f (some cls) = bindMember cls id span name viaSuper problem?) →
      Steers aim s (x >>= f)
        fun _ s' => Binds aim.fine [object] s s' := by
    intro x f hchildren hbound hx hnone hsome
    refine Obeys.imp (P := fun _ _ => True) (hx.bind fun found s₁ h₁ _ => ?_)
      fun _ s' _ => (Completes.of_children (hbound s') (hchildren ▸ .nil)).binds hnode
    cases found with
    | some cls =>
      obtain ⟨viaSuper, problem?, heq⟩ := hsome cls
      exact heq ▸ bindMember_obeys (href.onward h₁) cls span name viaSuper problem?
    | none => exact hnone ▸ .pure trivial
  obtain ⟨kind, nodeSpan, note⟩ := node
  cases kind with
  | this =>
    exact hkeyword rfl (fun _ => trivial)
      (bindThis_obeys hobject ⟨_, hnode, rfl⟩ nodeSpan) rfl fun _ => ⟨_, _, rfl⟩
  | selfRef =>
    exact hkeyword rfl (fun _ => trivial)
      (bindSelf_obeys (refers_of_node? hnode rfl) ctx nodeSpan) rfl fun _ => ⟨_, _, rfl⟩
  | super =>
    exact hkeyword rfl (fun _ => trivial)
      (bindSuper_obeys (refers_of_node? hnode rfl) ctx nodeSpan) rfl fun _ => ⟨_, _, rfl⟩
  | name path =>
    exact (visitNamedMember_obeys hs href span nodeSpan
      (refers_of_node? hnode rfl) path name).imp fun _ s' hnoted =>
        Completes.binds hnode fun hfine _ => ⟨hnoted hfine, fun _ => .nil⟩
  | _ => exact hvisit hs hobject

end Members

/-! ### The walk -/

/-- Every item of a declaration has its symbol. -/
theorem map_snd_itemSymbols (h : items = [] ∨ note.symbol.isSome = true) :
    (itemSymbols note items).map Prod.snd = items := by
  unfold itemSymbols
  cases hsymbol : note.symbol with
  | none =>
    rw [hsymbol] at h
    exact (h.resolve_right Bool.false_ne_true).symm
  | some first =>
    rw [List.map_map]
    exact List.zipIdx_map_fst 0 items

theorem mem_of_mem_itemSymbols {pair : SymbolId × VarItem} (h : pair ∈ itemSymbols note items) :
    pair.2 ∈ items := by
  unfold itemSymbols at h
  split at h
  · cases h
  · obtain ⟨⟨item, index⟩, hitem, rfl⟩ := List.mem_map.mp h
    exact List.fst_mem_of_mem_zipIdx hitem

/-- The initializers of a declaration are all there is below it. -/
theorem completes_items {fine : Prop} {span : Span}
    (hnode : s.tree.node? id = some ⟨kind, span, note⟩)
    (hdeclared : kind.Declared s id → s.Noted id)
    (hfits : ∀ g symbol, kind.Fits g symbol → items = [] ∨ symbol.isSome = true)
    (hchildren : kind.children = items.filterMap VarItem.init) (hbound : kind.Bound s' id)
    (h : ∀ pair ∈ itemSymbols note items, Binds fine pair.2.init.toList s s') :
    Completes fine id kind s s' := by
  refine fun _ hid => ⟨hbound, fun _ => hchildren ▸ .filterMap fun item hitem => ?_⟩
  rw [← map_snd_itemSymbols (hfits _ _ ((hdeclared hid).fits hnode))] at hitem
  obtain ⟨pair, hpair, rfl⟩ := List.mem_map.mp hitem
  exact h pair hpair

/-- One visit of the second walk obeys the course of an analysis if the visits below it do, kind by
kind. -/
theorem visitNode_obeys (hvisit : visit.Obeys aim) : Walk.Obeys aim (visitNode aim.env visit) := by
  intro ctx id s hs hid
  refine .read_bind hid.1 fun node hnode => .of_proper fun hproper => ?_
  refine Obeys.imp (P := fun _ s' => Completes aim.fine id node.kind s s') ?_
    fun _ _ h => h.binds hnode
  have hknown : node.kind.isFrame = false → ∀ c ∈ node.kind.children, s.Stands aim ctx c :=
    fun hframe c hc => hid.child hproper hnode hframe hc
  have href : node.kind.isFree = true → s.Refers aim id := refers_of_node? hnode
  have hinits : ∀ items : List VarItem, node.kind.isFrame = false →
      node.kind.children = items.filterMap VarItem.init →
      ∀ pair ∈ itemSymbols node.note items, ∀ c ∈ pair.2.init.toList, s.Stands aim ctx c :=
    fun items hframe hchildren pair hpair c hc => hknown hframe c (hchildren ▸
      List.mem_filterMap.mpr ⟨pair.2, mem_of_mem_itemSymbols hpair, Option.mem_toList.mp hc⟩)
  obtain ⟨kind, span, note⟩ := node
  cases kind with
  | moduleDecl name body =>
    refine (visitModule_obeys hvisit hs hnode (hknown rfl)).imp fun _ s' hbinds _ hdeclared =>
      ⟨trivial, fun _ => hbinds ?_⟩
    exact Option.isSome_iff_exists.mpr (hdeclared.exists_scope hnode)
  | useDecl path => exact (visitUse_obeys _ path).imp fun _ _ _ => .of_children trivial .nil
  | require path foreign =>
    exact (visitRequire_obeys hvisit hs ⟨_, hnode, rfl⟩ span
      (hknown rfl path List.mem_cons_self)).imp fun _ s' hbinds => .of_children trivial hbinds
  | classDecl decl =>
    refine (visitClass_obeys hvisit hs hid hnode rfl).imp fun _ s' hbinds _ hdeclared =>
      ⟨trivial, fun _ => hbinds (hdeclared.1.fits hnode) ?_⟩
    exact Option.isSome_iff_exists.mpr (hdeclared.2.exists_scope hnode)
  | traitDecl | interfaceDecl => exact .pure fun _ _ => ⟨trivial, nofun⟩
  | fnDecl decl | fnExpr decl =>
    refine (visitFunction_obeys hvisit hs hid hnode (by simp)).imp
      fun _ s' hbinds _ hdeclared =>
        ⟨trivial, fun hentered => hbinds ?_ ((hdeclared hentered).1.fits hnode)⟩
    exact Option.isSome_iff_exists.mpr ((hdeclared hentered).2.exists_scope hnode)
  | varDecl mods items =>
    exact (visitVariables_obeys hvisit hs (hinits items rfl rfl)).imp fun _ s' =>
      completes_items hnode (fun h => h) (fun _ _ h => h) rfl trivial
  | enumDecl mods items =>
    exact (visitEnum_obeys hvisit hs (hinits items rfl rfl) 0).imp fun _ s' =>
      completes_items hnode (fun h => h) (fun _ _ h => h) rfl trivial
  | block body | forLoop init test step body =>
    exact (moveInto_obeys hs.idle ctx note).bind fun _ s₁ h₁ ⟨scope, hinside⟩ => hinside ▸
      (hvisit.forM ((hs.onward h₁).at scope) fun c hc =>
        h₁.stands (hknown rfl c hc)).imp fun _ s' hbinds =>
          .of_children trivial (hbinds.before h₁)
  | forIn key value iter body =>
    obtain ⟨hiter, hbody⟩ := List.forall_mem_cons.mp (hknown rfl)
    refine (hvisit hs hiter).bind fun _ s₁ h₁ hbinds => .read_bind ?_ fun node _ =>
      (moveInto_obeys (hs.onward h₁).idle ctx node.note).bind fun _ s₂ h₂ ⟨scope, hinside⟩ => ?_
    · exact h₁.known hid.1
    have h := h₁.trans h₂
    exact hinside ▸ (hvisit ((hs.onward h).at scope)
      (h.stands (hbody body List.mem_cons_self))).keep.imp
      fun _ s' ⟨h', hbinds'⟩ => .of_children trivial
        ((hbinds.after (h₂.trans h')).append (hbinds'.before h))
  | name path =>
    exact .map _ (bindName_obeys hs.idle (href rfl) ctx span path) fun _ s' hnoted hfine _ =>
      ⟨hnoted hfine, fun _ => .nil⟩
  | assign op target value =>
    obtain ⟨htarget, hvalue⟩ := List.forall_mem_cons.mp (hknown rfl)
    exact (visitAssign_obeys hvisit hs htarget (hvalue value List.mem_cons_self)).imp
      fun _ s' hbinds => .of_children trivial hbinds
  | call callee args =>
    exact (visitCall_obeys hvisit hs span (hknown rfl)).imp fun _ s' hbinds =>
      .of_children trivial hbinds
  | new path args =>
    exact (bindNew_obeys hs.idle hid.1 ⟨_, hnode, rfl⟩ ctx span path).bind fun _ s₁ h₁ _ =>
      (hvisit.forM (hs.onward h₁) fun c hc => h₁.stands (hknown rfl c hc)).imp fun _ s' hbinds =>
        .of_children trivial (hbinds.before h₁)
  | member object name =>
    exact (visitMember_obeys hs (href rfl) hvisit
      (hknown rfl object List.mem_cons_self) span name).imp fun _ s' hbinds =>
        .of_children trivial hbinds
  | this =>
    exact .map _ (bindThis_obeys hid ⟨_, hnode, rfl⟩ span) fun _ _ _ => .of_children trivial .nil
  | selfRef =>
    exact .map _ (bindSelf_obeys (href rfl) ctx span) fun _ _ _ => .of_children trivial .nil
  | super =>
    exact .map _ (bindSuper_obeys (href rfl) ctx span) fun _ _ _ => .of_children trivial .nil
  | engineConst which =>
    exact (visitEngineConst_obeys hs ⟨_, hnode, rfl⟩).imp fun _ _ _ => .of_children trivial .nil
  | _ => exact (hvisit.forM hs (hknown rfl)).imp fun _ s' hbinds => .of_children trivial hbinds

theorem visit_obeys : ∀ fuel, Walk.Obeys aim (Reference.visit aim.env fuel)
  | 0 => fun _ _ => .exhausted
  | fuel + 1 => visitNode_obeys (visit_obeys fuel)

theorem unitWithin_eq (env : Environment) (fuel : Nat) : unitWithin env fuel = (do
    let root := (← get).tree.root
    let node ← read root
    match node.note.scope with
    | none => modifyLog (·.abort node.span "unit was not collected")
    | some scope => inScope scope node.span do
      resolveTypesIn env scope
      Reference.visit env fuel { scope } root) := by
  refine bind_congr fun s => bind_congr fun node => ?_
  cases node.note.scope with
  | none => rfl
  | some scope => simp only [inScope, bind_assoc]

/-- Resolving a unit that has been declared binds all names that are walked, unless an error is
reported. -/
theorem unit_obeys (aim : Aim) (henv : aim.home → aim.env.reducer.Confined)
    (hs : s.Idle aim) (hroot : s.Known aim s.tree.root)
    (hopens : aim.fine → s.Opens s.tree.root) :
    Steers aim s (unit aim.env)
      fun _ s' => Binds aim.fine [s.tree.root] s s' := by
  refine .get_bind ?_
  rw [unitWithin_eq]
  refine .get_bind (.read_bind hroot fun node hnode => .of_proper fun hproper => ?_)
  cases hscope : node.note.scope with
  | none =>
    have hnone : ¬ aim.fine := fun hfine => by
      obtain ⟨q, hq⟩ := (hopens hfine).exists_scope hnode
      rw [hscope] at hq
      cases hq
    exact .done rfl (fun _ => .within .none .refl (.abort _ _)
      fun hfine => absurd hfine hnone) fun hfine => absurd hfine hnone
  | some scope =>
    refine (inScope_obeys (P := fun s' => Binds aim.fine [s.tree.root] s s') node.span (fun hfine =>
      (hproper.intact hfine).scope_lt hnode hscope) fun hmarks => ?_).imp
        fun _ s' ⟨s₂, hbinds, hlast⟩ => hbinds.and_advances fun _ => hlast
    refine (resolveTypesIn_obeys (hmarks.ready hs) scope).bind fun _ s₁ h₁ _ => ?_
    have hsafe : Safe aim { scope } s₁ := ⟨(hmarks.ready hs).onward h₁.toOnward, henv, fun _ => rfl⟩
    have hplaced : s.Stands aim { scope } s.tree.root := ⟨hroot, fun _ => .root⟩
    refine (visit_obeys _ hsafe
      (h₁.stands (hmarks.stands hproper.coherent hplaced))).imp fun _ _ hbinds =>
        (hbinds.before h₁).of_advances fun _ => hmarks.advances

/-! ### Constants that were put off -/

theorem bindLater_obeys {late : LateBinding} (hlate : s.Known aim late.node) :
    Steers aim s (bindLater late) := by
  refine .read_bind hlate fun node hnode => ?_
  split
  next which hwhich =>
    refine .currentGraph_bind ?_
    dsimp only
    split <;> exact bindConstant_obeys ⟨node, hnode, hwhich⟩ _
  next => exact .pure trivial

/-- The list is emptied first. -/
theorem bindLate_eq (s : Analysis) :
    bindLate s = s.late.forM bindLater { s with late := [] } := rfl

theorem bindLate_obeys (aim : Aim) (hlate : ∀ late ∈ s.late, s.Known aim late.node) :
    Steers aim { s with late := [] }
      (s.late.forM bindLater) :=
  .forM_ fun late hmem _ h => bindLater_obeys (h.known (hlate late hmem))

end Reference

end Scoping
