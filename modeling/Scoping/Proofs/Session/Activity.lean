import Scoping.Proofs.Analysis.Activity
import Scoping.Session

/-!
# Who resolves a type

A type may be resolved by the walk through its own module or by whoever needs it first, from
anywhere. `Hierarchy.resolveType_eq_of_entered` says when this makes no difference. It does make one
if a private symbol is refused from outside, or if a path leads through a private import of the
module: these are at hand only while the module is active.
-/

namespace Scoping

namespace Hierarchy

open Analysis

/-- A type is resolved in the same way while more scopes are active, unless a private symbol is
refused while they are not, or a path that is written somewhere leads through a private import of
one of them. The two runs end alike, with the same symbols: superclasses, interfaces, hints, copied
members and flags. -/
theorem resolveType_eq_of_entered (env : Environment) (x : SymbolId) {s s' : Analysis}
    (h : s.Entered s')
    (hrefused : (endOf (resolveType env x s)).log.count .privateAccess =
      s.log.count .privateAccess)
    (himports : ∀ q, s.graph.isActive q = false → s'.graph.isActive q = true → ∀ name,
      (endOf (resolveType env x s)).graph.Mentions name →
        ¬ (endOf (resolveType env x s)).graph.PrivateImport q name) :
    restOf (resolveType env x s') = restOf (resolveType env x s) ∧
      ∀ y, (endOf (resolveType env x s')).graph.symbol y =
        (endOf (resolveType env x s)).graph.symbol y := by
  have hend : Undisturbed {name | (endOf (resolveType env x s)).graph.Mentions name} s s'
      (endOf (resolveType env x s)) :=
    ⟨hrefused.le, fun _ => id, himports⟩
  have hsame : restOf (resolveType env x s') = restOf (resolveType env x s) :=
    (resolveType_consistent (P := True) env x).agrees trivial h hend
  refine ⟨hsame, fun y => ?_⟩
  have hrest := congrArg (fun r => (endOf r).graph.symbol y) hsame
  simp only [endOf_restOf] at hrest
  exact hrest

end Hierarchy

namespace Session

open Analysis Hierarchy

/-! ### A class in a module -/

/-- The state in which the types of a unit are resolved: all is declared, and the unit is active. -/
def collected (t : Tree) : Option Analysis :=
  match Declaration.unit ((start {}).opening t) with
  | .ok unit s => some (s.entering unit)
  | .error _ _ => none

/-- The superclass that a class has got. -/
def superTarget? (s : Analysis) (x : SymbolId) : Option SymbolId :=
  ((s.graph.symbol x).class?.bind (·.super)).bind (·.target)

/-- A class in a module, with a public class of the module for its superclass and for a hint, and
with private neighbours. -/
def publicSuper : Tree :=
  { file := "a.phs"
    nodes := #[{ kind := .classDecl { name := "P", mods := [.visible] } },
      { kind := .classDecl { name := "H" } },
      { kind := .useDecl (.single "P") (some "Q") false },
      { kind := .block [] },
      { kind := .fnDecl { name := some "f", mods := [.visible], body := some ⟨3⟩,
                          params := [{ name := "p", hint := some (.named (.single "P")) }] } },
      { kind := .classDecl { name := "C", mods := [.visible], super := some (.single "P"),
                             members := [⟨4⟩] } },
      { kind := .moduleDecl (some (.single "m")) [⟨0⟩, ⟨1⟩, ⟨2⟩, ⟨5⟩] },
      { kind := .classDecl { name := "D", super := some ⟨["m", "C"], false⟩ } },
      { kind := .unit [⟨7⟩, ⟨6⟩] }]
    root := ⟨8⟩ }

/-- A class in a module, with a private class of the module for its superclass. -/
def privateSuper : Tree :=
  { file := "a.phs"
    nodes := #[{ kind := .classDecl { name := "D", super := some ⟨["m", "C"], false⟩ } },
      { kind := .classDecl { name := "P" } },
      { kind := .classDecl { name := "C", mods := [.visible], super := some (.single "P") } },
      { kind := .moduleDecl (some (.single "m")) [⟨1⟩, ⟨2⟩] }, { kind := .unit [⟨0⟩, ⟨3⟩] }]
    root := ⟨4⟩ }

/-- A class in a module, with a superclass behind a private import of the module. -/
def privateQualifier : Tree :=
  { file := "a.phs"
    nodes := #[{ kind := .classDecl { name := "P", mods := [.visible] } },
      { kind := .moduleDecl (some (.single "l")) [⟨0⟩] },
      { kind := .useDecl (.single "l") (some "n") false },
      { kind := .classDecl { name := "C", mods := [.visible], super := some ⟨["n", "P"], false⟩ } },
      { kind := .moduleDecl (some (.single "m")) [⟨1⟩, ⟨2⟩, ⟨3⟩] }, { kind := .unit [⟨4⟩] }]
    root := ⟨5⟩ }

/-- Nothing that the class needs is private, so that it gets its superclass and its hint from
outside, too. -/
theorem resolveType_eq_publicSuper :
    ∃ s, collected publicSuper = some s ∧ s.graph.isActive ⟨5⟩ = false ∧
      (s.entering ⟨5⟩).graph.isActive ⟨5⟩ = true ∧
      restOf (resolveType {} ⟨4⟩ (s.entering ⟨5⟩)) = restOf (resolveType {} ⟨4⟩ s) ∧
      superTarget? (endOf (resolveType {} ⟨4⟩ s)) ⟨4⟩ = some ⟨1⟩ ∧
      ((endOf (resolveType {} ⟨4⟩ s)).graph.symbol ⟨6⟩).var?.bind (·.hint) =
        some (.named "P" (some ⟨1⟩)) := by
  have hend : (collected publicSuper).any (fun s => decide (
      s.graph.isActive ⟨5⟩ = false ∧ (s.entering ⟨5⟩).graph.isActive ⟨5⟩ = true ∧
      (endOf (resolveType {} ⟨4⟩ s)).log.count .privateAccess = s.log.count .privateAccess ∧
      ((endOf (resolveType {} ⟨4⟩ s)).graph.scope ⟨5⟩).inner = some ⟨6⟩ ∧
      ((endOf (resolveType {} ⟨4⟩ s)).graph.scope ⟨6⟩).table.imported = ⟨[("Q", ⟨3⟩)]⟩ ∧
      ¬ (endOf (resolveType {} ⟨4⟩ s)).graph.Mentions "Q" ∧
      superTarget? (endOf (resolveType {} ⟨4⟩ s)) ⟨4⟩ = some ⟨1⟩ ∧
      ((endOf (resolveType {} ⟨4⟩ s)).graph.symbol ⟨6⟩).var?.bind (·.hint) =
        some (.named "P" (some ⟨1⟩)))) = true := by
    decide +kernel
  obtain ⟨s, hs, hg⟩ := (Option.any_eq_true _ _).mp hend
  obtain ⟨hinactive, hactive, hrefused, hinner, hlisted, hunused, hsuper, hhint⟩ :=
    of_decide_eq_true hg
  refine ⟨s, hs, hinactive, hactive, ?_, hsuper, hhint⟩
  refine (resolveType_eq_of_entered {} ⟨4⟩ (.entering s ⟨5⟩) hrefused
    fun q hq hq' name hname => ?_).1
  rintro ⟨inner, hpartition, himported⟩
  obtain ⟨rfl, -⟩ := (Graph.isActive_enter.mp hq').resolve_right (by simp [hq])
  cases hpartition.symm.trans hinner
  -- the one private import of the module is not used
  have hkey : name = "Q" := by
    by_contra hne
    have hbeq : (name == "Q") = false := beq_false_of_ne hne
    simp [Table.get?, Table.space, hlisted, NameMap.find?, List.lookup_cons, hbeq] at himported
  exact hunused (hkey ▸ hname)

/-- From outside, the private superclass is refused, and the private import is not followed. -/
theorem not_resolveType_eq_private :
    (∃ s, collected privateSuper = some s ∧
      superTarget? (endOf (resolveType {} ⟨2⟩ s)) ⟨2⟩ = none ∧
      superTarget? (endOf (resolveType {} ⟨2⟩ (s.entering ⟨5⟩))) ⟨2⟩ = some ⟨1⟩) ∧
    ∃ s, collected privateQualifier = some s ∧
      superTarget? (endOf (resolveType {} ⟨2⟩ s)) ⟨2⟩ = none ∧
      superTarget? (endOf (resolveType {} ⟨2⟩ (s.entering ⟨3⟩))) ⟨2⟩ = some ⟨0⟩ := by
  have hsuper : (collected privateSuper).any (fun s => decide (
      superTarget? (endOf (resolveType {} ⟨2⟩ s)) ⟨2⟩ = none ∧
      superTarget? (endOf (resolveType {} ⟨2⟩ (s.entering ⟨5⟩))) ⟨2⟩ = some ⟨1⟩)) = true := by
    decide +kernel
  have hqualifier : (collected privateQualifier).any (fun s => decide (
      superTarget? (endOf (resolveType {} ⟨2⟩ s)) ⟨2⟩ = none ∧
      superTarget? (endOf (resolveType {} ⟨2⟩ (s.entering ⟨3⟩))) ⟨2⟩ = some ⟨0⟩)) = true := by
    decide +kernel
  obtain ⟨s, hs, hg⟩ := (Option.any_eq_true _ _).mp hsuper
  obtain ⟨t, ht, ht'⟩ := (Option.any_eq_true _ _).mp hqualifier
  exact ⟨⟨s, hs, of_decide_eq_true hg⟩, t, ht, of_decide_eq_true ht'⟩

end Session

end Scoping
