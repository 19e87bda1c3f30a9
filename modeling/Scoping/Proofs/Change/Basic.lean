import Scoping.Proofs.Analysis.Act
import Scoping.Proofs.Unfold.Copy

/-!
# The changes of an analysis

`Analysis.Declares` is all that the first walk over a unit does to the state of an analysis, and
`Analysis.Changes` all that resolving types does: portions of graph edits, notes on nodes, engine
constants that are put off, copies of trait members. The states in between need not be those of a
run, for edits of the graph, of the tree and of the log do not interfere.

Whatever is to be known about the walks follows from these lists. In the graph they are steps and
edits, and for the analysis they are parts of it in the sense of `Analysis.Unfolds`
(`Analysis.Onward`). What concerns the links of the tree is only known where the proposition `fine`
holds, under which the state is intact.
-/

namespace Scoping

/-- Does a node declare a class or a function? -/
def NodeKind.isFrame : NodeKind → Bool
  | .classDecl _ | .fnDecl _ | .fnExpr _ => true
  | _ => false

def NodeKind.isClass : NodeKind → Bool
  | .classDecl _ => true
  | _ => false

/-- A class or a function is noted with a symbol that there is, and a class with its members. -/
def NodeKind.Backed (g : Graph) (note : Annotation) (kind : NodeKind) : Prop :=
  kind.isFrame = true → ∀ x, note.symbol = some x → x.index < g.symbols.size ∧
    (kind.isClass = true → ∀ q, note.scope = some q → (g.symbol x).members? = some q)

/-- Does a node declare symbols? -/
def NodeKind.isDeclaration : NodeKind → Bool
  | .useDecl .. | .classDecl _ | .traitDecl _ | .interfaceDecl _ | .fnDecl _ | .fnExpr _
  | .varDecl .. | .enumDecl .. => true
  | _ => false

/-- The number that a request was given, and the value of its path. -/
def Annotation.answer? (note : Annotation) : Option (SourceHandle × Option Value) :=
  note.handle.map (·, note.value)

namespace Analysis

/-- Under which environment an analysis runs, and what may be relied on. -/
structure Aim where
  env : Environment
  fine : Prop
  home : Prop
  noted : Prop
  fine_of_home : home → fine
  fine_of_noted : noted → fine

variable {aim : Aim} {fine : Prop} {types types' : Set SymbolId} {area : Set NodeId}
  {root s s' s'' : Analysis}

/-- What the first walk does. It notes symbols inside an area of the tree only. -/
inductive Declares (fine : Prop) (area : Set NodeId) : Analysis → Analysis → Prop where
  | refl {s : Analysis} : Declares fine area s s
  | trans {s s' s'' : Analysis} : Declares fine area s s' → Declares fine area s' s'' →
    Declares fine area s s''
  | graph {s : Analysis} {g : Graph} :
    Graph.Enrol (fun id => fine → id.index < s.tree.size) s.graph g →
    Declares fine area s { s with graph := g }
  | log {s : Analysis} {log : Log} : s.log.Grows log → Declares fine area s { s with log }
  | setScope {s : Analysis} {id : NodeId} {kind : NodeKind} {q : ScopeId} :
    (fine → At id kind s) → kind.isClass = false → Open q s → Declares fine area s
      { s with tree := s.tree.annotate id fun note => { note with scope := some q } }
  | note {s : Analysis} {id : NodeId} {node : Node} {f : Annotation → Annotation} :
    (fine → id ∈ area) → s.tree.node? id = some node → node.kind.isDeclaration = true →
    node.kind.Fits s.graph (f node.note).symbol →
    (∀ note p, (f note).scope = some p → note.scope = some p ∨ Open p s) →
    (∀ note, note.scope.isSome = true → (f note).scope.isSome = true) →
    (∀ note, (f note).binding = note.binding ∧ (f note).answer? = note.answer?) →
    node.kind.Backed s.graph (f node.note) →
    Declares fine area s { s with tree := s.tree.annotate id f }

/-- What resolving types does. The resolution of a class ends with its checks. A member of a trait
is copied some time after it was found among those that the trait offers, and then entered into the
host. Its body is declared in an area that has no notes yet. -/
inductive Changes (aim : Aim) (types : Set SymbolId) : Analysis → Analysis → Prop where
  | refl {s : Analysis} : Changes aim types s s
  | trans {s s' s'' : Analysis} : Changes aim types s s' → Changes aim types s' s'' →
    Changes aim types s s''
  | declare {s s' : Analysis} {area : Set NodeId} : Declares aim.fine area s s' →
    (aim.fine → ∀ c ∈ area, s.tree.noted? (·.symbol) c = none) → Changes aim types s s'
  | graph {s : Analysis} {g : Graph} :
    Graph.Elaborates False types (fun id => aim.fine → id.index < s.tree.size) s.graph g →
    Changes aim types s { s with graph := g }
  | conclude {s : Analysis} {c : SymbolId} : c ∈ types → (s.graph.symbol c).kind = .cls →
    (s.graph.symbol c).data.resolution? ≠ some .resolved →
    Changes aim types s (s.concluded aim.env c)
  | adopt {s : Analysis} {id : NodeId} {node : Node} {decl : FnDecl} (f : SymbolId) :
    s.tree.node? id = some node → node.kind = .fnDecl decl → (aim.fine → node.note.symbol = none) →
    (s.graph.symbol f).node = some id →
    Changes aim types s
      { s with tree := s.tree.annotate id fun note => { note with symbol := some f } }
  | defer {s : Analysis} (late : LateBinding) {which : EngineConst} :
    At late.node (.engineConst which) s →
    Changes aim types s
      { s with
        tree := s.tree.annotate late.node fun note => { note with binding := some .pending }
        late := s.late ++ [late] }
  | copyEntry {s s₁ s₂ : Analysis} {trait member copy : SymbolId} {name : String} {flags : Flags}
    {target : ScopeId} : s.graph.Offers trait member → Changes aim types s s₁ →
    Hierarchy.copyMember member trait name flags s₁ = .ok copy s₂ → s₁.graph.Place target →
    Changes aim types s { s₂ with graph := (s₂.graph.declare target copy).2 }
  | copySlot {s s₁ s₂ : Analysis} {trait member copy : SymbolId} {name : String} {flags : Flags}
    {target : ScopeId} (role : Role) : s.graph.Offers trait member → Changes aim types s s₁ →
    Hierarchy.copyMember member trait name flags s₁ = .ok copy s₂ → s₁.graph.Place target →
    Changes aim types s { s₂ with graph := s₂.graph.putSlot target role copy }

/-! ### Edits -/

theorem Declares.collects (h : Declares fine area s s') :
    Graph.Collects (fun _ => True) s.graph s'.graph := by
  induction h with
  | trans _ _ ih ih' => exact ih.trans ih'
  | graph h => exact h.collects.mono fun _ _ => trivial
  | _ => exact .refl

/-! ### What stays -/

/-- Classes and functions are noted with symbols that there are. -/
def Backed (s : Analysis) : Prop :=
  ∀ id node, s.tree.node? id = some node → node.kind.Backed s.graph node.note

namespace Backed

variable (hs : s.Backed)

include hs

theorem advances (h : s.Advances s')
    (hsymbol : ∀ id, s'.tree.noted? (·.symbol) id = s.tree.noted? (·.symbol) id)
    (hscope : ∀ id, s'.tree.noted? (·.scope) id = s.tree.noted? (·.scope) id) : s'.Backed := by
  intro id node' hnode' hframe x hx
  have hsame := hsymbol id
  rw [Tree.noted?_of_node? hnode', hx] at hsame
  obtain ⟨node, hnode, hsymbol⟩ := Option.bind_eq_some_iff.mp hsame.symm
  obtain ⟨other, hother, hkind, -⟩ := h.tree.node? hnode
  cases hother.symm.trans hnode'
  rw [hkind] at hframe ⊢
  obtain ⟨hlt, hmembers⟩ := hs id node hnode hframe x hsymbol
  refine ⟨Nat.lt_of_lt_of_le hlt h.graph.symbols_le, fun hclass q hq => ?_⟩
  have hscope := hscope id
  rw [Tree.noted?_of_node? hnode', Tree.noted?_of_node? hnode, hq] at hscope
  exact (h.graph.endures hlt).members?.trans (hmembers hclass q hscope.symm)

theorem annotate {id : NodeId} {f : Annotation → Annotation}
    (hf : ∀ node, s.tree.node? id = some node → node.kind.Backed s.graph node.note →
      node.kind.Backed s.graph (f node.note)) :
    Backed { s with tree := s.tree.annotate id f } := by
  intro q node' hnode'
  dsimp only at hnode'
  rw [Tree.node?_annotate] at hnode'
  split at hnode'
  next hq =>
    subst hq
    obtain ⟨node, hnode, rfl⟩ := Option.map_eq_some_iff.mp hnode'
    exact hf node hnode (hs q node hnode)
  next => exact hs q node' hnode'

end Backed

/-- What is known of any stretch of an analysis. -/
structure Onward (fine : Prop) (types : Set SymbolId) (s s' : Analysis) : Prop where
  coherent : s.graph.Coherent
  intact : fine → s.Intact
  steps : Graph.Steps types s.graph s'.graph
  edits : Graph.Edits types s.graph s'.graph
  unfolds : fine → ∀ root, Follows root s → Unfolds root s s'
  hands : fine → Graph.Hands (fun id => id.index < s'.tree.size) s.graph s'.graph
  reports : s.log.diagnostics ⊆ s'.log.diagnostics
  backed : fine → s.Backed → s'.Backed

namespace Onward

theorem advances (h : Onward fine types s s') (hfine : fine) : s.Advances s' :=
  (h.unfolds hfine s ⟨h.intact hfine, .refl⟩).toAdvances

theorem after (h : Onward fine types s s') : s'.graph.Coherent ∧ (fine → s'.Intact) :=
  ⟨h.coherent.steps h.steps, fun hfine => (h.advances hfine).intact (h.intact hfine)⟩

protected theorem refl (hs : s.graph.Coherent) (hintact : fine → s.Intact) :
    Onward fine types s s :=
  ⟨hs, hintact, .refl, .refl, fun _ _ _ => .refl, fun _ => .refl, List.Subset.refl _, fun _ h => h⟩

protected theorem trans (h : Onward fine types s s') (h' : Onward fine types s' s'') :
    Onward fine types s s'' where
  coherent := h.coherent
  intact := h.intact
  steps := h.steps.trans h'.steps
  edits := h.edits.trans h'.edits
  unfolds hfine root hs :=
    (h.unfolds hfine root hs).trans (h'.unfolds hfine root (hs.next (h.advances hfine)))
  hands hfine := Graph.Hands.trans
    ((h.hands hfine).mono fun _ hid => Nat.lt_of_lt_of_le hid (h'.advances hfine).tree.size_le)
    (h'.hands hfine)
  reports := List.Subset.trans h.reports h'.reports
  backed hfine hs := h'.backed hfine (h.backed hfine hs)

theorem mono (htypes : types ⊆ types') (h : Onward fine types s s') : Onward fine types' s s' :=
  { h with steps := h.steps.mono htypes, edits := h.edits.mono htypes }

variable (hs : s.graph.Coherent) (hintact : fine → s.Intact)

include hs hintact

/-- Edits of the graph that proceed. -/
theorem of_graph {g : Graph}
    (hsteps : Graph.Steps types s.graph g) (hedits : Graph.Edits types s.graph g)
    (hproceeds : fine → s.graph.Proceeds s.tree.size g)
    (hhands : Graph.Hands (fun id => fine → id.index < s.tree.size) s.graph g) :
    Onward fine types s { s with graph := g } :=
  have hunfolds := fun hfine root (_ : Follows root s) => Unfolds.of_graph (hproceeds hfine)
  ⟨hs, hintact, hsteps, hedits, hunfolds, fun hfine => hhands.mono fun _ hid => hid hfine,
    List.Subset.refl _, fun hfine hbacked => hbacked.advances
      (hunfolds hfine s ⟨hintact hfine, .refl⟩).toAdvances (fun _ => rfl) fun _ => rfl⟩

/-- Edits that leave the graph alone. -/
theorem of_unfolds (hgraph : s'.graph = s.graph)
    (hlog : s.log.diagnostics ⊆ s'.log.diagnostics) (hbacked : fine → s.Backed → s'.Backed)
    (h : fine → ∀ root, Unfolds root s s') : Onward fine types s s' :=
  ⟨hs, hintact, hgraph ▸ .refl, hgraph ▸ .refl, fun hfine root _ => h hfine root,
    fun _ => hgraph ▸ .refl, hlog, hbacked⟩

theorem of_log {log : Log} (hlog : s.log.Grows log) : Onward fine types s { s with log } :=
  .of_unfolds hs hintact rfl hlog.diagnostics (fun _ h => h)
    fun _ _ => .of_log rfl rfl hlog.clean hlog.aborted

theorem of_elaborates {closing : Prop} {g : Graph}
    (h : Graph.Elaborates closing types (fun id => fine → id.index < s.tree.size) s.graph g) :
    Onward fine types s { s with graph := g } :=
  .of_graph hs hintact h.steps h.edits (fun hfine => h.proceeds (hintact hfine).regular) h.hands

/-- Notes that name no new scopes. -/
theorem annotate {id : NodeId} {f : Annotation → Annotation}
    (hscope : ∀ note p, (f note).scope = some p → note.scope = some p ∨ Open p s)
    (hopens : ∀ note, note.scope.isSome = true → (f note).scope.isSome = true)
    (hfits : fine → ∀ node, s.tree.node? id = some node →
      node.kind.Fits s.graph node.note.symbol → node.kind.Fits s.graph (f node.note).symbol)
    (hlinks : fine → ∀ node, s.tree.node? id = some node → node.kind.Backed s.graph node.note →
      node.kind.Backed s.graph (f node.note)) :
    Onward fine types s { s with tree := s.tree.annotate id f } :=
  .of_unfolds hs hintact rfl (List.Subset.refl _) (fun hfine h => h.annotate (hlinks hfine))
    fun hfine _ => .of_advances (.of_annotate hscope hopens (hfits hfine)) rfl .refl rfl

/-- Notes on other things than symbols. -/
theorem remark (id : NodeId) (types : Set SymbolId) {f : Annotation → Annotation}
    (hscope : ∀ note, (f note).scope = note.scope)
    (hsymbol : ∀ note, (f note).symbol = note.symbol) :
    Onward fine types s { s with tree := s.tree.annotate id f } :=
  .annotate hs hintact (fun note _ h => .inl (hscope note ▸ h)) (fun note h => hscope note ▸ h)
    (fun _ node _ h => hsymbol node.note ▸ h) fun _ node _ h hframe => by
      rw [hsymbol, hscope]
      exact h hframe

end Onward

/-- Every stretch of the first walk goes onward, and resolves no types. -/
theorem Declares.onward (h : Declares fine area s s') (hs : s.graph.Coherent)
    (hintact : fine → s.Intact) : Onward fine ∅ s s' := by
  induction h with
  | refl => exact .refl hs hintact
  | trans _ _ ih ih' =>
    have hfirst := ih hs hintact
    exact hfirst.trans (ih' hfirst.after.1 hfirst.after.2)
  | graph h =>
    exact .of_graph hs hintact (h.steps hs) h.collects.edits
      (fun hfine => h.proceeds fun _ hid => hid hfine) h.hands
  | log hlog => exact .of_log hs hintact hlog
  | setScope hat hclass hq =>
    refine .annotate hs hintact (fun _ p hp => .inr ?_) (fun _ _ => rfl) (fun _ _ _ h => h)
      fun hfine other hother h hframe x hx => ⟨(h hframe x hx).1, fun hclass' => ?_⟩
    · cases hp
      exact hq
    · obtain ⟨node, hnode, rfl⟩ := hat hfine
      cases hnode.symm.trans hother
      exact absurd (hclass.symm.trans hclass') Bool.false_ne_true
  | note _ hnode _ hfits hscope hopens _ hbacked =>
    refine .annotate hs hintact hscope hopens (fun _ other hother _ => ?_)
      fun _ other hother _ => ?_
    all_goals cases hnode.symm.trans hother
    · exact hfits
    · exact hbacked

theorem Changes.log {log : Log} (hlog : s.log.Grows log) : Changes aim types s { s with log } :=
  .declare (.log hlog : Declares aim.fine ∅ s _) fun _ _ => nofun

theorem Changes.mono (htypes : types ⊆ types') (h : Changes aim types s s') :
    Changes aim types' s s' := by
  induction h with
  | refl => exact .refl
  | trans _ _ ih ih' => exact ih.trans ih'
  | declare h hblank => exact .declare h hblank
  | graph h => exact .graph (h.mono htypes)
  | conclude hc hkind hopen => exact .conclude (htypes hc) hkind hopen
  | adopt f hnode hkind hblank hlink => exact .adopt f hnode hkind hblank hlink
  | defer late hat => exact .defer late hat
  | copyEntry hoffers _ hcopy hplace ih => exact .copyEntry hoffers ih hcopy hplace
  | copySlot role hoffers _ hcopy hplace ih => exact .copySlot role hoffers ih hcopy hplace

section Copy

variable {s₁ s₂ : Analysis} {trait member x : SymbolId} {name : String} {flags : Flags}
  (h : Onward fine types s s₁) (hoffers : fine → s.graph.Offers trait member)
  (hcopy : Hierarchy.copyMember member trait name flags s₁ = .ok x s₂)

include h hoffers hcopy

/-- A copy is made and entered. -/
theorem Onward.copy {g : Graph}
    (hsteps : s₂.graph.Coherent → s₂.graph.Copied x → Graph.Steps ∅ s₂.graph g)
    (hedits : Graph.Edits types s₂.graph g) (hsize : g.symbols.size = s₂.graph.symbols.size)
    (hdata : ∀ y, (g.symbol y).data = (s₂.graph.symbol y).data)
    (hnode : ∀ y, (g.symbol y).node = (s₂.graph.symbol y).node)
    (husage : ∀ q, (g.scope q).usage = (s₂.graph.scope q).usage) :
    Onward fine types s { s₂ with graph := g } := by
  obtain ⟨hcopies, hlog⟩ := Hierarchy.copyMember_copies hcopy
  obtain ⟨hfirst, hcopied⟩ := hcopies.steps h.after.1
  have hmember := fun hfine => Hierarchy.copiedMember_of_copyMember (h.after.2 hfine) hcopy
  have hcoherent := h.after.1.steps hfirst
  have hsubtree : ∀ y, (g.symbol y).subtree? = (s₂.graph.symbol y).subtree? := fun y => by
    rw [Symbol.subtree?, Symbol.subtree?, hdata, hnode]
  have hlast : Onward fine types s₂ { s₂ with graph := g } :=
    .of_graph hcoherent (fun hfine => (hmember hfine).advances.intact (h.after.2 hfine))
      ((hsteps hcoherent hcopied).mono (Set.empty_subset _)) hedits
      (fun _ => .of_edits hedits hsubtree hsize husage) (.of_eq hsubtree)
  refine Onward.trans ⟨h.coherent, h.intact, h.steps.trans (hfirst.mono (Set.empty_subset _)),
    h.edits.tail hcopies.edit, fun hfine root hs => ?_, fun hfine => ?_, ?_, fun hfine hs =>
      (h.backed hfine hs).advances (hmember hfine).advances ((hmember hfine).noted rfl)
        ((hmember hfine).noted rfl)⟩ hlast
  · refine (h.unfolds hfine root hs).trans ((hmember hfine).unfolds ?_)
    exact ⟨⟨trait, member, x, name, flags, s, s₁, s₂, hs.advances, hoffers hfine, h.advances hfine,
      hcopy, .refl⟩, rfl⟩
  · refine Graph.Hands.trans ((h.hands hfine).mono fun _ hid =>
      Nat.lt_of_lt_of_le hid (hmember hfine).advances.tree.size_le) ?_
    exact hcopies.hands (hmember hfine).subtree_lt
  · rw [hlog]
    exact h.reports

/-- It is entered into a table. -/
theorem Onward.copyEntry {target : ScopeId} (hplace : s₁.graph.Place target) :
    Onward fine types s { s₂ with graph := (s₂.graph.declare target x).2 } := by
  refine h.copy hoffers hcopy (fun hcoherent hcopied => .single ?_) (.single .declare)
    Graph.size_symbols_declare (Graph.symbol_declare_congr Symbol.data fun _ _ _ _ => rfl)
    (Graph.symbol_declare_congr Symbol.node fun _ _ _ _ => rfl) Graph.usage_declare
  have hgrows := ((Hierarchy.copyMember_copies hcopy).1.steps h.after.1).1.grows
  exact .declare (hgrows.place h.after.1.nested hplace) hcopied.fresh hcopied.latest
    (.inr (.inr hcopied.origin))

/-- It is put into a slot. -/
theorem Onward.copySlot {target : ScopeId} (role : Role) (hplace : s₁.graph.Place target) :
    Onward fine types s { s₂ with graph := s₂.graph.putSlot target role x } := by
  refine h.copy hoffers hcopy (fun hcoherent hcopied => .single ?_) (.single .putSlot)
    (Graph.size_symbols_modifySymbol _ _ _)
    (fun y => Graph.symbol_modifySymbol_congr Symbol.data _ y fun _ => rfl)
    (fun y => Graph.symbol_modifySymbol_congr Symbol.node _ y fun _ => rfl) Graph.usage_putSlot
  have hgrows := ((Hierarchy.copyMember_copies hcopy).1.steps h.after.1).1.grows
  exact .putSlot (hgrows.place h.after.1.nested hplace) hcopied.fresh

end Copy

/-- By the checks of a class it is decided about. -/
theorem concluded_elaborates (env : Environment) {held : NodeId → Prop} {c : SymbolId} {g : Graph}
    (hc : c ∈ types) (hopen : (g.symbol c).data.resolution? ≠ some .resolved) :
    Relation.ReflTransGen (Graph.Elaborates True types held) g
      ((Hierarchy.checked env g c).modifyData c (·.setResolution .resolved)) := by
  obtain ⟨hsteps, hopen⟩ := Hierarchy.checked_induction env c
    (P := fun g₁ => Relation.ReflTransGen (Graph.Elaborates True types held) g g₁ ∧
      (g₁.symbol c).data.resolution? ≠ some .resolved) ⟨.refl, hopen⟩ fun g₁ ⟨hsteps, hopen⟩ => by
    refine ⟨hsteps.tail (.makeAbstract trivial hc hopen), ?_⟩
    rwa [Hierarchy.data_makeAbstract]
  exact hsteps.tail (.resolve hc hopen fun _ _ => trivial)

theorem Onward.conclude {env : Environment} {c : SymbolId} (hc : c ∈ types) (hs : s.graph.Coherent)
    (hintact : fine → s.Intact) (hopen : (s.graph.symbol c).data.resolution? ≠ some .resolved) :
    Onward fine types s (s.concluded env c) := by
  have hsteps : ∀ {g}, Relation.ReflTransGen
      (Graph.Elaborates True types fun id => fine → id.index < s.tree.size) s.graph g →
      Onward fine types s { s with graph := g } := by
    intro g h
    induction h with
    | refl => exact .refl hs hintact
    | tail _ hstep ih => exact ih.trans (.of_elaborates ih.after.1 ih.after.2 hstep)
  have hgraph := hsteps (concluded_elaborates env hc hopen)
  exact hgraph.trans (.of_log hgraph.after.1 hgraph.after.2 (.extend _ _))

/-- Every stretch of the second walk goes onward, portion by portion. -/
theorem Changes.onward (h : Changes aim types s s') (hs : s.graph.Coherent)
    (hintact : aim.fine → s.Intact) : Onward aim.fine types s s' := by
  induction h with
  | refl => exact .refl hs hintact
  | trans _ _ ih ih' =>
    have hfirst := ih hs hintact
    exact hfirst.trans (ih' hfirst.after.1 hfirst.after.2)
  | declare h => exact (h.onward hs hintact).mono (Set.empty_subset _)
  | graph h => exact .of_elaborates hs hintact h
  | conclude hc _ hopen => exact .conclude hc hs hintact hopen
  | adopt f hnode hkind hblank hlink =>
    refine .annotate hs hintact (fun _ _ h => .inl h) (fun _ h => h)
      (fun hfine other hother hfits =>
      ?_) fun _ other hother _ _ x hx => ⟨?_, fun hclass => ?_⟩
    · cases hnode.symm.trans hother
      rw [hblank hfine, hkind] at hfits
      obtain ⟨g, hg, -⟩ := hfits
      cases hg
    · exact Option.some.inj hx ▸ Graph.lt_size_of (P := (·.node = some _)) hlink nofun
    · cases hnode.symm.trans hother
      rw [hkind] at hclass
      cases hclass
  | defer late hat =>
    have hpending := Onward.remark hs hintact late.node types
      (f := fun note => { note with binding := some .pending }) (fun _ => rfl) fun _ => rfl
    exact hpending.trans (.of_unfolds hpending.after.1 hpending.after.2 rfl (List.Subset.refl _)
      (fun _ h => h) fun _ _ => .of_log rfl rfl (fun h => h) rfl)
  | copyEntry hoffers _ hcopy hplace ih =>
    exact (ih hs hintact).copyEntry (fun _ => hoffers) hcopy hplace
  | copySlot role hoffers _ hcopy hplace ih =>
    exact (ih hs hintact).copySlot (fun _ => hoffers) hcopy role hplace

end Analysis

end Scoping
