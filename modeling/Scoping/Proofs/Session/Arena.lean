import Scoping.Proofs.Session.Pending

/-!
# The first unit stays in its tree

In the first unit of a session every node that is spoken of anywhere is in the tree of the unit: the
children of nodes, what functions and variables have for subtrees, and the engine constants that are
put off. A read or a write of a node that is not in the tree would halt the analysis with that
node; so it never halts for that reason, whatever budget it is given. With a budget that is large
enough, a run goes on as long as one likes before the budget matters.
-/

namespace Scoping

/-! ### The reducer -/

namespace Reduce

/-- In a closed tree a walk that halts has run out of fuel: there is no other reason. -/
theorem confined_within {t : Tree} {g : Graph} (ht : t.Closed) : ∀ (fuel : Nat) {id : NodeId}
    {halt : Halt}, id.index < t.size → within t g fuel id = .error halt → halt = .exhausted
  | 0, _, _, _, h => by
    cases h
    rfl
  | fuel + 1, id, halt, hid, h => by
    obtain ⟨node, hnode⟩ := Tree.exists_node? hid
    have hread : t.read id = pure node := by rw [Tree.read, hnode]; rfl
    have hchild : ∀ c ∈ node.kind.children, ∀ {halt}, within t g fuel c = .error halt →
        halt = .exhausted := fun c hc _ h => confined_within ht fuel (ht hnode c hc) h
    -- one operand after the other
    have hoperand : ∀ {a : NodeId} {f : Value → Except Halt Value}, a ∈ node.kind.children →
        (within t g fuel a >>= f) = .error halt →
        (∀ x, f x = .error halt → halt = .exhausted) → halt = .exhausted := by
      intro a f ha h hf
      cases hfirst : within t g fuel a with
      | error halt' =>
        rw [hfirst] at h
        cases h
        exact hchild a ha hfirst
      | ok x =>
        rw [hfirst] at h
        exact hf x h
    rw [within, hread, pure_bind] at h
    split at h
    · cases h
    · cases h
    · cases h
    next op operand hkind =>
      split at h
      · exact hoperand (by simp [hkind, NodeKind.children]) h fun _ h => by cases h
      · cases h
    next op lhs rhs hkind =>
      have hlhs : lhs ∈ node.kind.children := by simp [hkind, NodeKind.children]
      have hrhs : rhs ∈ node.kind.children := by simp [hkind, NodeKind.children]
      split at h
      · exact hoperand hlhs h fun _ h => hoperand hrhs h fun _ h => by cases h
      · split at h
        · exact hoperand hlhs h fun _ h => hoperand hrhs h fun _ h => by cases h
        · cases h
    · cases h

theorem confined_node : Reducer.Confined Reduce.node := fun ht hid h => confined_within ht _ hid h

end Reduce

/-! ### Subtrees -/

namespace Analysis

variable {env : Environment} {root s s' : Analysis} {unit : ScopeId}

/-- All nodes that the state speaks of are in its tree. -/
structure Enclosed (a : Analysis) : Prop where
  children : ∀ {id node}, a.tree.node? id = some node → ∀ c ∈ node.kind.children,
    c.index < a.tree.size
  subtrees : ∀ {x id}, (a.graph.symbol x).subtree? = some id → id.index < a.tree.size
  late : ∀ late ∈ a.late, late.node.index < a.tree.size

/-- All subtrees are at hand. -/
def Aim.first (env : Environment) : Aim := ⟨env, True, True, False, fun h => h, False.elim⟩

theorem Proper.enclosed (hs : s.Proper (.first env)) (hlate : s.Deferring) : s.Enclosed where
  children := (hs.intact trivial).closed
  subtrees hid := hs.cited trivial _ ⟨_, hid⟩
  late late hmem := by
    obtain ⟨which, node, hnode, -⟩ := hlate late hmem
    exact Tree.lt_size_of_node? hnode

/-- A state in which the first unit of a session may start. -/
structure Beginning (env : Environment) (root : Analysis) : Prop extends root.Startable env where
  confined : env.reducer.Confined
  cited : ∀ id, ¬ root.graph.Cites id
  late : root.late = []

namespace Beginning

variable (hroot : root.Beginning env)

include hroot

theorem proper : root.Proper (.first env) :=
  ⟨hroot.coherent, fun _ => hroot.toIntact, fun _ id hid => absurd hid (hroot.cited id), nofun⟩

/-- The unit is declared within its tree. -/
theorem declared (h : Declaration.unit root = .ok unit s) :
    s.Proper (.first env) ∧ s.Deferring ∧ Ready env ∅ s.graph ∧ s.Known (.first env) s.tree.root ∧
      s.Opens s.tree.root := by
  obtain ⟨hdeclares, -, hall⟩ :=
    (Declaration.unit_obeys _ (hroot.within (.first env))).ok hroot.proper h
  have honward := hdeclares.onward hroot.coherent fun _ => hroot.toIntact
  have hfirst : Follows root root := ⟨hroot.toIntact, .refl⟩
  refine ⟨honward.proper hroot.proper,
    turn_induction Turn.deferring (hdeclares.remarks (.first env)) ?_,
    hroot.ready.onward (honward.mono (Set.empty_subset _)), ?_,
    hroot.opens (hall trivial root hfirst) (honward.advances trivial)⟩
  · intro late hmem
    rw [hroot.late] at hmem
    cases hmem
  · rw [(honward.advances trivial).tree.root]
    exact honward.known (hroot.within (.first env)).known

/-- The passes over the first unit halt only if their budget is exhausted. -/
theorem halt_eq {halt : Halt} (h : passes env root = .error halt s) : halt = .exhausted := by
  rcases error_bind h with h | ⟨unit, s₁, hdeclare, h⟩
  · exact (Declaration.unit_obeys _ (hroot.within (.first env))).error hroot.proper trivial h
  obtain ⟨hs₁, hlate₁, hready, hknown, hopens⟩ := hroot.declared hdeclare
  have hunit := Reference.unit_obeys (.first env) (fun _ => hroot.confined) hready hknown
    fun _ => hopens
  rcases error_bind h with h | ⟨_, s₂, hresolve, h⟩
  · rw [run_unlessAborted] at h
    split at h
    · cases h
    · exact hunit.error hs₁ trivial h
  -- what was put off by then is in the tree
  have hlate₂ : s₂.Deferring ∧ s₂.Proper (.first env) := by
    rw [run_unlessAborted] at hresolve
    split at hresolve
    · cases hresolve
      exact ⟨hlate₁, hs₁⟩
    · have hcourse := (hunit.ok hs₁ hresolve).1
      exact ⟨turn_induction Turn.deferring (hcourse.remarks hs₁.coherent trivial
        (hs₁.intact trivial)) hlate₁,
        (hcourse.onward hs₁.coherent hs₁.intact).proper hs₁⟩
  rcases error_bind h with h | ⟨_, s₃, hlate, h⟩
  · rw [run_unlessAborted] at h
    split at h
    · cases h
    · have hemptied : Onward True ∅ᶜ s₂ { s₂ with late := [] } :=
        onward_late [] hlate₂.2.coherent hlate₂.2.intact
      exact (Reference.bindLate_obeys (.first env) fun late hmem _ =>
        (hlate₂.2.enclosed hlate₂.1).late late hmem).error (hemptied.proper hlate₂.2) trivial h
  · rcases error_bind h with h | ⟨_, s₄, -, h⟩
    · rw [run_unlessAborted] at h
      split at h
      · cases h
      · obtain ⟨log, -, hrun⟩ := run_publish unit s₃
        rw [hrun] at h
        cases h
    · cases h

/-- All that is spoken of at the end is in the tree. -/
theorem enclosed (h : passes env root = .ok unit s) : s.Enclosed := by
  obtain ⟨declared, resolved, bound, hpassed⟩ := exists_passed hroot.toStartable h
  have hdeclared := hpassed.declares.onward hroot.coherent fun _ => hroot.toIntact
  have hresolved : Onward True ∅ᶜ declared resolved :=
    hpassed.resolves.onward hdeclared.after.1 hdeclared.after.2
  have hemptied : Onward True ∅ᶜ resolved { resolved with late := [] } :=
    onward_late [] hresolved.after.1 hresolved.after.2
  have hbound : Onward True ∅ᶜ _ bound := hpassed.binds.onward hemptied.after.1 hemptied.after.2
  have hproper : Proper (.first env) bound := hbound.proper
    (hemptied.proper (hresolved.proper (hdeclared.proper hroot.proper)))
  have hlate : bound.Deferring := turn_induction Turn.deferring
    (hpassed.binds.remarks hemptied.after.1 trivial (hemptied.after.2 trivial))
      fun _ hmem => by cases hmem
  obtain ⟨log, -, hrun⟩ := run_publish unit bound
  have hpublish := hpassed.publish
  rw [hrun] at hpublish
  cases hpublish
  have henclosed := hproper.enclosed hlate
  refine ⟨henclosed.children, fun {x id} hid => henclosed.subtrees (x := x) ?_, henclosed.late⟩
  rw [← hid, (hpassed.publishes.spec hbound.after.1).2.symbol]

end Beginning

end Analysis

namespace Session

open Analysis

variable {config : Config} {reducer : Reducer} {loader : Loader} {t : Tree}

theorem beginning_first (hreducer : reducer.Confined) (ht : t.validate = .ok ())
    (hadmits : (startWith config reducer loader).Admits t) (spare : Nat) :
    Beginning (startWith config reducer loader).environment
      { (startWith config reducer loader).opening t with spare } := by
  have hopening := startable_opening (balanced_start config reducer loader) ht hadmits
  exact
    { regular := hopening.regular, closed := hopening.closed, scope_lt := hopening.scope_lt
      coherent := hopening.coherent, ready := hopening.ready, isUnit := hopening.isUnit
      running := rfl, confined := hreducer, late := rfl
      cited := fun _ ⟨x, hx⟩ => by cases ((pristine_start config).subtree? x).symm.trans hx }

/-- The analysis of the first unit of a session never comes to a node that is not in its tree: it
does not halt for want of one, with whatever budget, and when it ends, all nodes that it speaks of
are in the tree. The reducer is asked about nodes of the tree only, and must find what it needs
there; `Reduce.node` does. -/
theorem first_unit_within_tree (hreducer : reducer.Confined) (ht : t.validate = .ok ())
    (hadmits : (startWith config reducer loader).Admits t) :
    (∀ spare id a, (passes (startWith config reducer loader).environment).run
        { (startWith config reducer loader).opening t with spare } ≠ .error (.missingNode id) a) ∧
      (∀ spare unit a, (passes (startWith config reducer loader).environment).run
        { (startWith config reducer loader).opening t with spare } = .ok unit a → a.Enclosed) ∧
      ∀ id, (startWith config reducer loader).analyze t ≠ .error (.missingNode id) := by
  have hnone : ∀ spare id a, (passes (startWith config reducer loader).environment).run
      { (startWith config reducer loader).opening t with spare } ≠ .error (.missingNode id) a := by
    intro spare id a hrun
    cases (beginning_first hreducer ht hadmits spare).halt_eq hrun
  refine ⟨hnone, fun spare unit a => (beginning_first hreducer ht hadmits spare).enclosed,
    fun id h => ?_⟩
  unfold analyze at h
  rw [ht] at h
  dsimp only at h
  split at h
  · cases h
  next halt a hrun =>
    cases h
    exact hnone 0 id a hrun

/-- The tree grows by two copies of the function, and is not left either. -/
theorem first_unit_within_tree_copiedConstant :
    copiedConstant.validate = .ok () ∧ Reduce.node.Confined ∧
      (start {}).yields copiedConstant (fun _ t' _ => t'.size == copiedConstant.size + 8) = true ∧
      (∀ spare id a, (passes (start {}).environment).run
        { (start {}).opening copiedConstant with spare } ≠ .error (.missingNode id) a) ∧
      (∀ spare unit a, (passes (start {}).environment).run
        { (start {}).opening copiedConstant with spare } = .ok unit a → a.Enclosed) ∧
      ∀ id, (start {}).analyze copiedConstant ≠ .error (.missingNode id) :=
  ⟨by rfl, Reduce.confined_node, by decide +kernel,
    @first_unit_within_tree {} Reduce.node (.counting []) copiedConstant Reduce.confined_node
      (by rfl) (admits_of_all (by decide))⟩

end Session

end Scoping
