import Scoping.Proofs.Change.Pending
import Scoping.Proofs.Session.Balance

/-!
# No engine constant stays pending

Pending marks are set in the middle of the second walk, on nodes that have just been copied, and
taken back from a list that is worked off once, after the walk. Since no pass of a unit is left out,
the unit ends without a pending node, and every node that was pending on the way is bound to a text.
-/

namespace Scoping.Session

open Analysis

variable {config : Config} {reducer : Reducer} {loader : Loader} {s s' : Session} {t t' : Tree}
  {r : UnitReport}

/-- The analysis of a valid tree that comes without pending marks leaves none, in the tree as it was
given and in all copies. A node that is pending at some moment in between ends bound to a text. -/
theorem analyze_leaves_no_pending (hs : Continues (startWith config reducer loader) s)
    (ht : t.validate = .ok ()) (hadmits : s.Admits t)
    (hfresh : ∀ id, t.binding? id ≠ some .pending) (h : s.analyze t = .ok (r, t', s')) :
    (∀ id, t'.binding? id ≠ some .pending) ∧
      ∃ unit a, (passes s.environment).run (s.opening t) = .ok unit a ∧ a.tree = t' ∧
        (s.opening t).Turns a ∧
        ∀ m, (s.opening t).Turns m → m.Turns a → ∀ id, m.tree.binding? id = some .pending →
          ∃ text, t'.binding? id = some (.bound (.str text)) := by
  have hopening := startable_opening (balanced_of_continues hs) ht hadmits
  obtain ⟨unit, a, hrun, -, rfl, -⟩ := run_of_analyze ht h
  obtain ⟨declared, resolved, bound, hpassed⟩ := exists_passed hopening hrun
  have hnone : ∀ id, ¬ a.Awaits id := hpassed.unawaited hopening rfl hfresh
  obtain ⟨hbefore, hafter⟩ := hpassed.turns hopening
  refine ⟨hnone, unit, a, hrun, rfl, Relation.ReflTransGen.trans (Turns.of_turn hbefore) hafter,
    fun m _ hrest id hid => ?_⟩
  exact (hrest.decided (.inl hid)).resolve_left (hnone id)

/-- A function of a trait that comes to a class through another trait, with an engine constant. -/
def copiedConstant : Tree :=
  { file := "a.phs"
    nodes := #[{ kind := .engineConst .host }, { kind := .ret (some ⟨0⟩) },
      { kind := .block [⟨1⟩] },
      { kind := .fnDecl { name := some "f", mods := [.visible], body := some ⟨2⟩ } },
      { kind := .traitDecl { name := "T", members := [⟨3⟩] } },
      { kind := .traitDecl { name := "U", uses := [{ path := .single "T" }] } },
      { kind := .classDecl { name := "C", uses := [{ path := .single "U" }] } },
      { kind := .unit [⟨4⟩, ⟨5⟩, ⟨6⟩] }]
    root := ⟨7⟩ }

/-- Does the second walk over a unit come to its end, with the given outcome? -/
def walksTo (s : Session) (t : Tree) (outcome : Analysis → Bool) : Bool :=
  match (Declaration.unit >>= fun _ => Reference.unit s.environment) (s.opening t) with
  | .ok _ m => outcome m
  | .error _ _ => false

theorem outcome_of_walksTo {unit : ScopeId} {a declared resolved bound : Analysis}
    (hpassed : Passed s.environment (s.opening t) a unit declared resolved bound)
    {outcome : Analysis → Bool} (h : s.walksTo t outcome = true) : outcome resolved = true := by
  unfold walksTo at h
  split at h
  next u m hrun =>
    obtain ⟨unit', s₁, hdeclare, hresolve⟩ := ok_bind hrun
    cases hpassed.declare.symm.trans hdeclare
    cases hpassed.resolve.symm.trans hresolve
    exact h
  next => cases h

/-- Is the node of the tree pending? -/
def isPending (t : Tree) (id : NodeId) : Bool :=
  match t.binding? id with
  | some .pending => true
  | _ => false

theorem binding?_of_isPending {id : NodeId} (h : isPending t id = true) :
    t.binding? id = some .pending := by
  unfold isPending at h
  split at h
  next hbinding => exact hbinding
  next => cases h

theorem binding?_of_all (h : t.nodes.toList.all (fun node => node.note.binding.isNone) = true)
    (id : NodeId) : t.binding? id = none := by
  rw [Tree.binding?]
  cases hnode : t.node? id with
  | none => rfl
  | some node =>
    exact Option.isNone_iff_eq_none.mp (List.all_eq_true.mp h node
      (Array.mem_toList_iff.mpr (Array.mem_of_getElem? hnode)))

/-- The copy of the engine constant in the class is pending after the second walk and bound in the
end. -/
theorem analyze_leaves_no_pending_copiedConstant : ∃ r t' s' m,
    (start {}).analyze copiedConstant = .ok (r, t', s') ∧
      ((start {}).opening copiedConstant).Turns m ∧ m.tree.binding? ⟨12⟩ = some .pending ∧
      (∀ id, t'.binding? id ≠ some .pending) ∧
      ∃ text, t'.binding? ⟨12⟩ = some (.bound (.str text)) := by
  have hend : (start {}).yields copiedConstant (fun r _ _ => r.canGenerate) = true := by
    decide +kernel
  have hwalk : (start {}).walksTo copiedConstant (fun m => isPending m.tree ⟨12⟩) = true := by
    decide +kernel
  obtain ⟨r, t', s', hanalyze, -⟩ := exists_of_yields hend
  have hs : Continues (startWith {} Reduce.node (.counting [])) (start {}) := .refl
  have hadmits : (start {}).Admits copiedConstant := admits_of_all (by decide)
  have hvalid : copiedConstant.validate = .ok () := by rfl
  have hopening := startable_opening (balanced_of_continues hs) hvalid hadmits
  have hfresh : ∀ id, copiedConstant.binding? id ≠ some .pending := fun id => by
    rw [binding?_of_all (by decide) id]
    exact fun h => nomatch h
  obtain ⟨hnone, unit, a, hrun, -, -, hmoments⟩ :=
    analyze_leaves_no_pending hs hvalid hadmits hfresh hanalyze
  obtain ⟨declared, m, bound, hpassed⟩ := exists_passed hopening hrun
  obtain ⟨hbefore, hafter⟩ := hpassed.turns hopening
  have hpending := binding?_of_isPending (outcome_of_walksTo hpassed hwalk)
  exact ⟨r, t', s', m, hanalyze, .of_turn hbefore, hpending, hnone,
    hmoments m (.of_turn hbefore) hafter _ hpending⟩

end Scoping.Session
