import Scoping.Proofs.Change.Reference
import Scoping.Session

/-!
# The passes over a unit

A unit is declared, resolved and published. What the first passes do to the graph is collected in
`Analysis.Surveys`. If the tree and its notes are in order, no pass is left out (`Analysis.Passed`).
-/

namespace Scoping

/-- All nodes of a tree. -/
def Tree.ids (t : Tree) : Set NodeId := {id | id.index < t.size}

namespace Analysis

variable {env : Environment} {root s s' : Analysis} {unit : ScopeId}
  {bound declared resolved : Analysis} {x : AnalysisM Unit} {u : Unit}

/-! ### Single passes -/

theorem run_unlessAborted (x : AnalysisM Unit) (s : Analysis) :
    unlessAborted x s = if s.log.aborted = true then .ok () s else x s := by
  change (if s.log.aborted = true then Pure.pure () else x) s = _
  split <;> rfl

theorem run_reportConflicts (conflicts : List ExportConflict) (s : Analysis) :
    ∃ log : Log, s.log.Grows log ∧
      conflicts.forM (fun c => reportRejection c.symbol c.reason c.existing) s =
        .ok () { s with log } := by
  induction conflicts generalizing s with
  | nil => exact ⟨s.log, .refl, rfl⟩
  | cons c rest ih =>
    obtain ⟨log, hlog, hrun⟩ := ih { s with log := s.log.push _ }
    exact ⟨log, .trans .push hlog, hrun⟩

/-- Publishing a unit reports the names that were taken, and never fails. -/
theorem run_publish (unit : ScopeId) (s : Analysis) :
    ∃ log : Log, s.log.Grows log ∧
      publish unit s = .ok () { s with graph := (s.graph.exportUnit unit).2, log } :=
  run_reportConflicts (s.graph.exportUnit unit).1 { s with graph := (s.graph.exportUnit unit).2 }

theorem onward_late {fine : Prop} {types : Set SymbolId} (late : List LateBinding)
    (hs : s.graph.Coherent) (hintact : fine → s.Intact) : Onward fine types s { s with late } :=
  .of_unfolds hs hintact rfl (List.Subset.refl _) (fun _ h => h)
    fun _ _ => .of_log rfl rfl (fun h => h) rfl

/-- What is done to a unit before it is published. -/
def beforeExport (env : Environment) : AnalysisM ScopeId := do
  let unit ← Declaration.unit
  unlessAborted (Reference.unit env)
  unlessAborted Reference.bindLate
  return unit

theorem passes_eq (env : Environment) : passes env = (do
    let unit ← beforeExport env
    unlessAborted (publish unit)
    return unit) := by
  simp only [passes, passesWith, beforeExport, bind_assoc, pure_bind]

theorem ok_passes (h : passes env s = .ok unit s') :
    ∃ s₁, beforeExport env s = .ok unit s₁ ∧ unlessAborted (publish unit) s₁ = .ok () s' := by
  rw [passes_eq] at h
  obtain ⟨unit', s₁, hbefore, h⟩ := ok_bind h
  obtain ⟨u, s₂, hpublish, h⟩ := ok_bind h
  obtain ⟨rfl, rfl⟩ := ok_pure h
  exact ⟨s₁, hbefore, hpublish⟩

/-! ### The graph -/

/-- Only the graph counts. -/
def Aim.bare (env : Environment) : Aim := ⟨env, False, False, False, fun h => h, fun h => h⟩

theorem proper_bare (hs : s.graph.Coherent) : s.Proper (.bare env) := ⟨hs, nofun, nofun, nofun⟩

/-- What happens to the graph while the unit is declared. -/
structure Collected (s : Analysis) (unit : ScopeId) (s' : Analysis) : Prop where
  onward : Onward False ∅ s s'
  collects : Graph.Collects (fun _ => True) s.graph s'.graph
  unit_eq : unit = ⟨s.graph.scopes.size⟩
  inside : s'.graph.Inside unit
  kind : (s'.graph.scope unit).kind = .unit

theorem collected_of_unit (hs : s.graph.Coherent) (h : Declaration.unit s = .ok unit s') :
    Collected s unit s' := by
  obtain ⟨hdeclares, ⟨hunit, hsite, hkind⟩, -⟩ :=
    (Declaration.unit_obeys (.bare {}) (⟨nofun, nofun, nofun⟩ :
      Declaration.Within (.bare {}) ∅ s s.tree.root)).ok (proper_bare hs) h
  exact ⟨hdeclares.onward hs nofun, hdeclares.collects, hunit, hsite.inside, hkind⟩

/-- What happens to the graph before the unit is published. -/
structure Surveys (s : Analysis) (unit : ScopeId) (s' : Analysis) : Prop where
  onward : Onward False ∅ᶜ s s'
  settles : s.graph.Settles s'.graph
  inside : s'.graph.Inside unit
  kind : (s'.graph.scope unit).kind = .unit

theorem Surveys.course {s₁ : Analysis} (h : Surveys s unit s₁)
    (hcourse : Course (.bare env) s₁ s') : Surveys s unit s' := by
  have honward := hcourse.onward h.onward.after.1 nofun
  refine ⟨h.onward.trans honward, h.settles.trans (hcourse.settles h.onward.after.1 nofun),
    honward.steps.grows.inside h.onward.after.1.nested h.inside, ?_⟩
  rw [honward.steps.grows.kind h.inside.lt_size, h.kind]

/-- The unit is declared, and then come the walk over its references and the one over what was put
off, unless the analysis is aborted. -/
theorem courses_of_beforeExport (hs : s.graph.Coherent) (hready : Ready env ∅ s.graph)
    (h : beforeExport env s = .ok unit s') :
    ∃ s₁ s₂ late, Collected s unit s₁ ∧ Course (.bare env) s₁ s₂ ∧
      Course (.bare env) { s₂ with late } s' := by
  obtain ⟨unit', s₁, hdeclare, h⟩ := ok_bind h
  have hcollected := collected_of_unit hs hdeclare
  obtain ⟨_, s₂, hresolve, h⟩ := ok_bind h
  obtain ⟨_, s₃, hlate, h⟩ := ok_bind h
  obtain ⟨rfl, rfl⟩ := ok_pure h
  rw [run_unlessAborted] at hresolve hlate
  have hcourse : Course (.bare env) s₁ s₂ := by
    split at hresolve
    · cases hresolve
      exact .refl
    · exact ((Reference.unit_obeys (.bare env) False.elim (hready.onward (hcollected.onward.mono
        (Set.empty_subset _))) nofun nofun).ok (proper_bare hcollected.onward.after.1) hresolve).1
  split at hlate
  · cases hlate
    exact ⟨s₁, s₂, s₂.late, hcollected, hcourse, .refl⟩
  · exact ⟨s₁, s₂, [], hcollected, hcourse, ((Reference.bindLate_obeys (.bare env) fun _ _ =>
      nofun).ok (proper_bare (hcourse.onward hcollected.onward.after.1 nofun).after.1) hlate).1⟩

theorem surveys_of_beforeExport (hs : s.graph.Coherent) (hready : Ready env ∅ s.graph)
    (h : beforeExport env s = .ok unit s') : Surveys s unit s' := by
  obtain ⟨s₁, s₂, late, hcollected, hcourse, hlast⟩ := courses_of_beforeExport hs hready h
  have hfirst : Surveys s unit s₁ := ⟨hcollected.onward.mono (Set.empty_subset _),
    hcollected.onward.edits.settles nofun, hcollected.inside, hcollected.kind⟩
  have hsecond := hfirst.course hcourse
  -- what was put off does not concern the graph
  have hemptied : Surveys s unit { s₂ with late } :=
    ⟨hsecond.onward.trans (onward_late late hsecond.onward.after.1 nofun), hsecond.settles,
      hsecond.inside, hsecond.kind⟩
  exact hemptied.course hlast

/-- A unit that is published, unless the analysis is aborted. -/
theorem Surveys.publish {root : Analysis} (hs : Surveys root unit s)
    (h : unlessAborted (publish unit) s = .ok () s') :
    s.log.Grows s'.log ∧ Graph.Publishes s.graph s'.graph := by
  rw [run_unlessAborted] at h
  split at h
  · cases h
    exact ⟨.refl, .refl⟩
  · obtain ⟨log, hlog, hrun⟩ := run_publish unit s
    rw [hrun] at h
    cases h
    exact ⟨hlog, Graph.exportUnit_publishes hs.onward.after.1 hs.inside hs.kind⟩

/-! ### All passes -/

/-- The notes count as well, and more so if they can be relied on. -/
def Aim.whole (env : Environment) (noted : Prop) : Aim :=
  ⟨env, True, False, noted, False.elim, fun _ => trivial⟩

theorem proper_whole {noted : Prop} (hs : s.graph.Coherent) (hintact : s.Intact)
    (hsorted : noted → s.Sorted) : s.Proper (.whole env noted) :=
  ⟨hs, fun _ => hintact, nofun, hsorted⟩

/-- The state in which the analysis of a unit may start. -/
structure Startable (env : Environment) (root : Analysis) : Prop extends root.Intact where
  coherent : root.graph.Coherent
  ready : Ready env ∅ root.graph
  isUnit : ∃ node body, root.tree.node? root.tree.root = some node ∧ node.kind = .unit body
  running : root.log.aborted = false

/-- The first walk stays within the tree. -/
theorem Startable.within (hroot : root.Startable env) (aim : Aim) :
    Declaration.Within aim root.tree.ids root root.tree.root := by
  obtain ⟨node, -, hnode, -⟩ := hroot.isUnit
  have hlt := Tree.lt_size_of_node? hnode
  refine ⟨fun _ => hlt, fun _ => hlt, fun _ id hid => ?_⟩
  obtain ⟨other, hother⟩ := Tree.exists_node? hid
  exact ⟨other, hother, hroot.closed hother⟩

/-- An analysis that has gone through all its passes. -/
structure Passed (env : Environment) (root final : Analysis) (unit : ScopeId)
    (declared resolved bound : Analysis) : Prop where
  declare : Declaration.unit root = .ok unit declared
  resolve : Reference.unit env declared = .ok () resolved
  late : Reference.bindLate resolved = .ok () bound
  publish : publish unit bound = .ok () final
  publishes : Graph.Publishes bound.graph final.graph
  declares : Declares True root.tree.ids root declared
  resolves : Course (.whole env root.Sorted) declared resolved
  binds : Course (.whole env root.Sorted) { resolved with late := [] } bound
  declare_unfolds : Unfolds root root declared
  resolve_unfolds : Unfolds root declared resolved
  late_unfolds : Unfolds root resolved bound
  publish_unfolds : Unfolds root bound final
  allBound : Reference.AllBound root [root.tree.root] resolved

/-- Once a unit is declared, its root opens a scope. -/
theorem Startable.opens (hroot : root.Startable env)
    (hs : Declaration.AllDeclared root [root.tree.root] s) (hadvances : root.Advances s) :
    s.Opens s.tree.root := by
  obtain ⟨node, body, hnode, hunit⟩ := hroot.isUnit
  have hopens := hs.here hnode
  rw [hunit] at hopens
  rw [hadvances.tree.root]
  exact hopens

theorem ok_unlessAborted (haborted : s.log.aborted = false) (h : unlessAborted x s = .ok u s') :
    x s = .ok u s' := by
  rwa [run_unlessAborted, haborted, if_neg Bool.false_ne_true] at h

/-- Whoever has not aborted in the end has gone on. -/
theorem ok_unlessAborted_of_eq_false (haborted : s'.log.aborted = false)
    (h : unlessAborted x s = .ok u s') : x s = .ok u s' := by
  refine ok_unlessAborted (Bool.eq_false_iff.mpr fun hs => ?_) h
  rw [run_unlessAborted, if_pos hs] at h
  cases h
  rw [hs] at haborted
  cases haborted

/-- No pass is left out. -/
theorem exists_passed (hroot : root.Startable env) (h : passes env root = .ok unit s') :
    ∃ declared resolved bound, Passed env root s' unit declared resolved bound := by
  have hfirst : Follows root root := ⟨hroot.toIntact, .refl⟩
  obtain ⟨unit', s₁, hdeclare, h⟩ := ok_bind h
  obtain ⟨hdeclares, ⟨-, hsite, hkind⟩, hall⟩ :=
    (Declaration.unit_obeys _ (hroot.within (.whole env root.Sorted))).ok
      (proper_whole hroot.coherent hroot.toIntact fun h => h) hdeclare
  have honward₁ := hdeclares.onward hroot.coherent fun _ => hroot.toIntact
  have hdeclared := honward₁.unfolds trivial root hfirst
  have hs₁ := hfirst.next hdeclared.toAdvances
  have hall := hall trivial root hfirst
  have haborted₁ := hdeclared.aborted.trans hroot.running
  obtain ⟨u₂, s₂, hresolve, h⟩ := ok_bind h
  have hresolve := ok_unlessAborted haborted₁ hresolve
  have hproper : s₁.Proper (.whole env root.Sorted) :=
    honward₁.proper (proper_whole hroot.coherent hroot.toIntact fun h => h)
  obtain ⟨hcourse, hbinds⟩ := (Reference.unit_obeys (.whole env root.Sorted) False.elim
    (hroot.ready.onward (honward₁.mono (Set.empty_subset _))) nofun fun _ => hroot.opens hall
      hdeclared.toAdvances).ok hproper hresolve
  have honward₂ := hcourse.onward honward₁.after.1 fun _ => hs₁.now
  have hresolved := honward₂.unfolds trivial root hs₁
  have hs₂ := hs₁.next hresolved.toAdvances
  have haborted₂ := hresolved.aborted.trans haborted₁
  obtain ⟨u₃, s₃, hlate, h⟩ := ok_bind h
  have hlate := ok_unlessAborted haborted₂ hlate
  have honward₃ : Onward True ∅ᶜ s₂ { s₂ with late := [] } :=
    onward_late [] honward₂.after.1 fun _ => hs₂.now
  obtain ⟨hlast, -⟩ := (Reference.bindLate_obeys (.whole env root.Sorted) fun _ _ => nofun).ok
    (honward₃.proper (honward₂.proper hproper)) hlate
  have honward₄ := hlast.onward honward₃.after.1 honward₃.after.2
  have hbound := (honward₃.trans honward₄).unfolds trivial root hs₂
  have hs₃ := hs₂.next hbound.toAdvances
  obtain ⟨u₄, s₄, hpublish, h⟩ := ok_bind h
  have hpublish := ok_unlessAborted (hbound.aborted.trans haborted₂) hpublish
  obtain ⟨log, hlog, hrun⟩ := run_publish unit' s₃
  have hgrows := (honward₂.trans (honward₃.trans honward₄)).steps.grows
  have hpublishes : Graph.Publishes s₃.graph s₄.graph := by
    rw [hrun] at hpublish
    cases hpublish
    exact Graph.exportUnit_publishes honward₄.after.1
      (hgrows.inside honward₁.after.1.nested hsite.inside)
      ((hgrows.kind hsite.inside.lt_size).trans hkind)
  have hpublished : Unfolds root s₃ s₄ := by
    rw [hrun] at hpublish
    cases hpublish
    exact .trans (.of_graph hpublishes.proceeds) (.of_log rfl rfl hlog.clean hlog.aborted)
  obtain ⟨rfl, rfl⟩ := ok_pure h
  refine ⟨s₁, s₂, s₃, hdeclare, hresolve, hlate, hpublish, hpublishes, hdeclares, hcourse, hlast,
    hdeclared, hresolved, hbound, hpublished, ?_⟩
  have hbinds := hbinds trivial root hs₁
  rw [hs₁.advances.tree.root] at hbinds
  exact hbinds hall

theorem Passed.unfolds (h : Passed env root s' unit declared resolved bound) :
    Unfolds root root s' :=
  ((h.declare_unfolds.trans h.resolve_unfolds).trans h.late_unfolds).trans h.publish_unfolds

/-- In the end all references that are bound meet their conditions, unless they were bound from the
beginning. -/
theorem Passed.suited (h : Passed env root s' unit declared resolved bound)
    (hroot : root.Startable env) : s'.Suited (.whole env root.Sorted) root.tree := by
  have hdeclared := h.declares.onward hroot.coherent fun _ => hroot.toIntact
  have hsuited : declared.Suited (.whole env root.Sorted) root.tree := by
    intro id node x hnode hkind hx
    have hsame := (h.declares.spares hroot.coherent trivial hroot.toIntact).noted?_eq hnode hkind
    rw [Tree.noted?_of_node? hnode, hx] at hsame
    exact .inl hsame.symm
  have hresolved := h.resolves.onward hdeclared.after.1 hdeclared.after.2
  have hemptied : Onward True ∅ᶜ resolved { resolved with late := [] } :=
    onward_late [] hresolved.after.1 hresolved.after.2
  have hempty := ((h.resolves.keeps _ hdeclared.after.1 trivial (hdeclared.after.2 trivial)).2
    hsuited).spares (hemptied.firm trivial (.of_noted fun _ => rfl)) .refl (.of_noted fun _ => rfl)
  have hbinds := h.binds.onward hemptied.after.1 hemptied.after.2
  have hbound := (h.binds.keeps _ hemptied.after.1 trivial (hemptied.after.2 trivial)).2 hempty
  have htree : s'.tree = bound.tree := by
    obtain ⟨log, -, hrun⟩ := run_publish unit bound
    cases hrun.symm.trans h.publish
    rfl
  have hfirm : bound.Firm s' :=
    ⟨h.publish_unfolds.toAdvances, fun hnode _ hx => by rw [htree, Tree.noted?_of_node? hnode, hx],
      (h.publishes.spec hbinds.after.1).2.lodges⟩
  have hexport : Graph.Edits ∅ bound.graph s'.graph := h.publishes.edits
  exact hbound.spares hfirm (hexport.settles fun _ hx => hx.elim) (.of_noted fun _ => by rw [htree])

end Analysis

end Scoping
