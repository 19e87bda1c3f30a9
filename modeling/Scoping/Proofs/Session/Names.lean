import Scoping.Proofs.Session.Balance

/-!
# Names of a unit without errors

If a unit is analysed without errors, all its names are bound, except where no walk goes: in traits
and interfaces, whose members are looked at when they are copied, and in functions without a body,
whose default values are never looked at (`Session.exists_symbol_of_canGenerate`).
-/

namespace Scoping

namespace Session

open Analysis

variable {s s' : Session} {t t' : Tree} {r : UnitReport}

/-- If a valid tree is analysed without errors, every name in it has a symbol, provided that the
name is reached from the root through children of nodes that are entered: neither in a trait or
interface nor in a function without a body. -/
theorem exists_symbol_of_canGenerate {config : Config} {reducer : Reducer} {loader : Loader}
    (hs : Continues (startWith config reducer loader) s) (ht : t.validate = .ok ())
    (hadmits : s.Admits t) (h : s.analyze t = .ok (r, t', s')) (hr : r.canGenerate = true)
    {id : NodeId} {node : Node} {path : QualName} (hid : t.Walked t.root id)
    (hnode : t.node? id = some node) (hname : node.kind = .name path) :
    ∃ bound x, t'.node? id = some bound ∧ bound.kind = .name path ∧
      bound.note.symbol = some x := by
  have hbalanced := balanced_of_continues hs
  obtain ⟨unit, a, declared, resolved, bound, hpassed, rfl, rfl, -⟩ :=
    exists_passed_of_analyze hbalanced ht hadmits h
  have hall := Reference.lasting_allBound _ (hpassed.late_unfolds.toAdvances.trans
    hpassed.publish_unfolds.toAdvances) hpassed.allBound
  have hbound := hall t.root List.mem_cons_self hid hnode
  rw [hname] at hbound
  -- a report that allows further use speaks of no errors
  have hclean : a.log.Clean := by
    rw [UnitReport.canGenerate, Bool.and_eq_true, Bool.not_eq_true', Bool.not_eq_true'] at hr
    exact hr.2
  obtain ⟨last, hlast, hfits⟩ := hbound hclean
  obtain ⟨last', hlast', hkind, -⟩ := hpassed.unfolds.tree.node? hnode
  cases hlast.symm.trans hlast'
  rw [hname] at hkind
  rw [hkind] at hfits
  obtain ⟨x, hx⟩ := Option.isSome_iff_exists.mp hfits
  exact ⟨last, x, hlast, hkind, hx⟩

/-! ### Default values -/

/-- A constant, and a function with the constant as a default value and in its body. -/
def defaultWithBody : Tree :=
  { file := "a.phs"
    nodes := #[{ kind := .literal (.int 1) },
      { kind := .varDecl [.const] [{ name := "x", init := some ⟨0⟩ }] },
      { kind := .name (.single "x") }, { kind := .name (.single "x") },
      { kind := .ret (some ⟨3⟩) }, { kind := .block [⟨4⟩] },
      { kind := .fnDecl { name := some "f", params := [{ name := "p", default := some ⟨2⟩ }],
                          body := some ⟨5⟩ } },
      { kind := .unit [⟨1⟩, ⟨6⟩] }]
    root := ⟨7⟩ }

/-- A constant, and a function without a body that has the constant as a default value. -/
def defaultWithoutBody : Tree :=
  { file := "a.phs"
    nodes := #[{ kind := .literal (.int 1) },
      { kind := .varDecl [.const] [{ name := "x", init := some ⟨0⟩ }] },
      { kind := .name (.single "x") },
      { kind := .fnDecl { name := some "f", params := [{ name := "p", default := some ⟨2⟩ }] } },
      { kind := .unit [⟨1⟩, ⟨3⟩] }]
    root := ⟨4⟩ }

/-- The default value and the name in the body are walked, so that both have the symbol of the
constant. -/
theorem exists_symbol_defaultWithBody :
    ∃ r t' s', (start {}).analyze defaultWithBody = .ok (r, t', s') ∧ r.canGenerate = true ∧
      ∀ id ∈ [(⟨2⟩ : NodeId), ⟨3⟩], ∃ bound x, t'.node? id = some bound ∧
        bound.kind = .name (.single "x") ∧ bound.note.symbol = some x := by
  have hend : (start {}).yields defaultWithBody (fun r _ _ => r.canGenerate) = true := by
    decide +kernel
  obtain ⟨r, t', s', h, hr⟩ := exists_of_yields hend
  have hs : Continues (startWith {} Reduce.node (.counting [])) (start {}) := .refl
  have hfn : ∀ {c}, defaultWithBody.Walked ⟨6⟩ c → defaultWithBody.Walked defaultWithBody.root c :=
    fun hc => .down rfl rfl (by decide) hc
  have hret : defaultWithBody.Walked ⟨4⟩ ⟨3⟩ := .down rfl rfl (by decide) (.here _)
  have hblock : defaultWithBody.Walked ⟨5⟩ ⟨3⟩ := .down rfl rfl (by decide) hret
  refine ⟨r, t', s', h, hr, fun id hid => ?_⟩
  rcases List.mem_cons.mp hid with rfl | hid
  · exact exists_symbol_of_canGenerate hs rfl (admits_of_all (by decide)) h hr
      (hfn (.down rfl rfl (by decide) (.here _))) rfl rfl
  · obtain rfl := List.mem_singleton.mp hid
    exact exists_symbol_of_canGenerate hs rfl (admits_of_all (by decide)) h hr
      (hfn (.down rfl rfl (by decide) hblock)) rfl rfl

/-- Is the node a trait or an interface? -/
def isMixin : NodeKind → Bool
  | .traitDecl _ | .interfaceDecl _ => true
  | _ => false

/-- The default value of a function without a body stays without a symbol, and nothing is reported,
although there is no trait or interface around. -/
theorem not_symbol_defaultWithoutBody :
    ∃ r t' s', (start {}).analyze defaultWithoutBody = .ok (r, t', s') ∧ r.canGenerate = true ∧
      defaultWithoutBody.validate = .ok () ∧
      defaultWithoutBody.Leads (fun kind => !isMixin kind) defaultWithoutBody.root ⟨2⟩ ∧
      (∃ node, defaultWithoutBody.node? ⟨2⟩ = some node ∧ node.kind = .name (.single "x")) ∧
      ∃ node, t'.node? ⟨2⟩ = some node ∧ node.note.symbol = none := by
  have hend : (start {}).yields defaultWithoutBody (fun r t' _ => r.canGenerate &&
      (t'.node? ⟨2⟩).any fun node => node.note.symbol.isNone) = true := by decide +kernel
  obtain ⟨r, t', s', h, hr⟩ := exists_of_yields hend
  rw [Bool.and_eq_true] at hr
  obtain ⟨node, hnode, hnone⟩ := (Option.any_eq_true _ _).mp hr.2
  have hfn : defaultWithoutBody.Leads (fun kind => !isMixin kind) ⟨3⟩ ⟨2⟩ :=
    .down rfl rfl (by decide) (.here _)
  exact ⟨r, t', s', h, hr.1, rfl, .down rfl rfl (by decide) hfn, ⟨_, rfl, rfl⟩, node, hnode,
    Option.isNone_iff_eq_none.mp hnone⟩

end Session

end Scoping
