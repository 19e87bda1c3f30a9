import Scoping.Proofs.Graph.Qualifier
import Scoping.Proofs.Session.Run

/-!
# Imports as qualifiers in a session

`Session.qualifier_eq_absolute_iff` says what a path means whose qualifier is an import, and when
that is what the absolute path means. An import at the top level of a unit is as good as the path
that it stands for if that path leads somewhere inside the unit. It is not if the path leads to a
module that an earlier unit has published, or if the import is declared in a module.
-/

namespace Scoping

namespace Session

open Scoping.Graph

variable {s : Session} {g : Graph}

/-- A path whose qualifier is an import is resolved from where the import is declared, with the path
that the import stands for in its place, and else from further out as it was written. At the top
level of a unit, this is the answer to the absolute path exactly if the import leads somewhere there
or the answer from further out is that answer. -/
theorem qualifier_eq_absolute_iff {config : Config} {reducer : Reducer} {loader : Loader}
    {start root : ScopeId} {c : String} {link : SymbolId} {outer : List ScopeId}
    {data : ImportData} {r : List String} {ns : Namespace}
    (h : Reaches (startWith config reducer loader) s) (hg : s.Moment g)
    (hnearest : g.Nearest start c link root outer)
    (hdata : (g.symbol link).imported? = some data) (hr : r ≠ [])
    (hfails : (g.lookupPath start ⟨c :: r, false⟩ ns).1 ≠ .failed) :
    (g.lookupPath start ⟨c :: r, false⟩ ns).1 =
      (g.qualified ns c link root (data.path.segments ++ r)).orElse
        (fun _ => g.resolveFirst ns (c :: r) outer) ∧
    (g.qualified ns c link root (data.path.segments ++ r) ≠ .notFound →
      g.qualified ns c link root (data.path.segments ++ r) =
        g.resolveFrom ns (maxHops + 1) none root (data.path.segments ++ r)) ∧
    ((g.scope root).kind = .unit →
      ((g.lookupPath start ⟨c :: r, false⟩ ns).1 = g.absolute ns link (data.path.segments ++ r) ↔
        g.qualified ns c link root (data.path.segments ++ r) ≠ .notFound ∨
          g.resolveFirst ns (c :: r) outer = g.absolute ns link (data.path.segments ++ r))) := by
  have hcoherent := hg.coherent (sound_of_reaches h)
  have heq : (g.lookupPath start ⟨c :: r, false⟩ ns).1 =
      (g.qualified ns c link root (data.path.segments ++ r)).orElse
        fun _ => g.resolveFirst ns (c :: r) outer := hnearest.lookupPath_eq hdata hr
  have hlocal : g.qualified ns c link root (data.path.segments ++ r) ≠ .failed := by
    intro hfailed
    rw [heq, hfailed] at hfails
    exact hfails rfl
  refine ⟨heq, fun hfound => Nearest.qualified_eq_resolveFrom hfound hlocal, fun hkind => ?_⟩
  by_cases hfound : g.qualified ns c link root (data.path.segments ++ r) = .notFound
  · rw [heq, hfound]
    exact ⟨.inr, fun h => h.resolve_left fun hne => hne rfl⟩
  · rw [heq, Lookup.orElse_of_ne hfound]
    exact ⟨fun _ => .inl hfound,
      fun _ => hnearest.qualified_eq_absolute hcoherent hkind hfound hlocal⟩

/-! ### An import of a module -/

/-- A module with a function, and an import of that module. -/
def importedHere : Tree :=
  { file := "a.phs"
    nodes := #[{ kind := .block [] },
      { kind := .fnDecl { name := some "f", mods := [.visible], body := some ⟨0⟩ } },
      { kind := .moduleDecl (some (.single "lib")) [⟨1⟩] },
      { kind := .useDecl (.single "lib") (some "c") false },
      { kind := .name ⟨["c", "f"], false⟩ },
      { kind := .unit [⟨2⟩, ⟨3⟩, ⟨4⟩] }]
    root := ⟨5⟩ }

/-- The module alone. -/
def exportedModule : Tree :=
  { file := "a.phs"
    nodes := #[{ kind := .block [] },
      { kind := .fnDecl { name := some "f", mods := [.visible], body := some ⟨0⟩ } },
      { kind := .moduleDecl (some (.single "lib")) [⟨1⟩] }, { kind := .unit [⟨2⟩] }]
    root := ⟨3⟩ }

/-- The import, in a unit of its own. -/
def importedElsewhere : Tree :=
  { file := "b.phs"
    nodes := #[{ kind := .useDecl (.single "lib") (some "c") false },
      { kind := .name ⟨["c", "f"], false⟩ }, { kind := .unit [⟨0⟩, ⟨1⟩] }]
    root := ⟨2⟩ }

/-- Inside one unit, the import leads to the function. -/
theorem qualifier_eq_absolute_importedHere :
    ∃ reports s, (start {}).analyzeAll [importedHere] = .ok (reports, s) ∧
      reports.all UnitReport.canGenerate = true ∧
      (s.graph.enter ⟨1⟩).Nearest ⟨1⟩ "c" ⟨1⟩ ⟨1⟩ [global] ∧
      ((s.graph.enter ⟨1⟩).lookupPath ⟨1⟩ ⟨["c", "f"], false⟩ .value).1 =
        (s.graph.enter ⟨1⟩).absolute .value ⟨1⟩ ["lib", "f"] ∧
      (s.graph.enter ⟨1⟩).absolute .value ⟨1⟩ ["lib", "f"] = .found ⟨0⟩ := by
  have hend : endsWith [importedHere] (fun reports g => reports.all UnitReport.canGenerate &&
      decide ((g.enter ⟨1⟩).pathRoots ⟨1⟩ false = [⟨1⟩, global] ∧
        ((g.enter ⟨1⟩).scope ⟨1⟩).modules.find? "c" = none ∧
        (g.enter ⟨1⟩).lookupHere? ⟨1⟩ "c" (some .imported) = some ⟨1⟩ ∧
        ((g.enter ⟨1⟩).symbol ⟨1⟩).imported? = some { path := .single "lib" } ∧
        ((g.enter ⟨1⟩).scope ⟨1⟩).kind = .unit ∧
        ((g.enter ⟨1⟩).lookupPath ⟨1⟩ ⟨["c", "f"], false⟩ .value).1 ≠ .failed ∧
        (g.enter ⟨1⟩).qualified .value "c" ⟨1⟩ ⟨1⟩ ["lib", "f"] ≠ .notFound ∧
        (g.enter ⟨1⟩).absolute .value ⟨1⟩ ["lib", "f"] = .found ⟨0⟩)) = true := by
    decide +kernel
  obtain ⟨reports, s, hs, hg⟩ := exists_of_endsWith hend
  rw [Bool.and_eq_true, decide_eq_true_eq] at hg
  obtain ⟨haccepted, hroots, hmodule, hlisted, hdata, hkind, hfails, hfound, habsolute⟩ := hg
  have hreaches : Reaches (startWith {} Reduce.node (.counting [])) s := reaches_of_analyzeAll hs
  have henter : s.Moment (s.graph.enter ⟨1⟩) :=
    ⟨_, .single (.amendScope (.marks _ _ _ _)), .refl⟩
  have hnearest : (s.graph.enter ⟨1⟩).Nearest ⟨1⟩ "c" ⟨1⟩ ⟨1⟩ [global] :=
    ⟨⟨[], hroots, fun q hq => by cases hq⟩, hmodule, hlisted⟩
  obtain ⟨-, -, hunit⟩ := qualifier_eq_absolute_iff hreaches henter hnearest hdata
    (List.cons_ne_nil "f" []) hfails
  exact ⟨reports, s, hs, haccepted, hnearest, (hunit hkind).mpr (.inl hfound), habsolute⟩

/-- An import of a module of an earlier unit leads nowhere as a qualifier. -/
theorem not_qualifier_eq_absolute_importedElsewhere :
    ∃ reports s, (start {}).analyzeAll [exportedModule, importedElsewhere] = .ok (reports, s) ∧
      reports.map UnitReport.canGenerate = [true, false] ∧
      (s.graph.enter ⟨8⟩).Nearest ⟨8⟩ "c" ⟨1⟩ ⟨8⟩ [global] ∧
      ((s.graph.enter ⟨8⟩).symbol ⟨1⟩).imported? = some { path := .single "lib" } ∧
      ((s.graph.enter ⟨8⟩).lookupPath ⟨8⟩ ⟨["c", "f"], false⟩ .value).1 = .notFound ∧
      (s.graph.enter ⟨8⟩).absolute .value ⟨1⟩ ["lib", "f"] = .found ⟨0⟩ := by
  have hend : endsWith [exportedModule, importedElsewhere] (fun reports g =>
      reports.map UnitReport.canGenerate == [true, false] &&
      decide ((g.enter ⟨8⟩).pathRoots ⟨8⟩ false = [⟨8⟩, global] ∧
        ((g.enter ⟨8⟩).scope ⟨8⟩).modules.find? "c" = none ∧
        (g.enter ⟨8⟩).lookupHere? ⟨8⟩ "c" (some .imported) = some ⟨1⟩ ∧
        ((g.enter ⟨8⟩).symbol ⟨1⟩).imported? = some { path := .single "lib" } ∧
        ((g.enter ⟨8⟩).lookupPath ⟨8⟩ ⟨["c", "f"], false⟩ .value).1 = .notFound ∧
        (g.enter ⟨8⟩).absolute .value ⟨1⟩ ["lib", "f"] = .found ⟨0⟩)) = true := by
    decide +kernel
  obtain ⟨reports, s, hs, hg⟩ := exists_of_endsWith hend
  rw [Bool.and_eq_true, decide_eq_true_eq, beq_iff_eq] at hg
  obtain ⟨hreports, hroots, hmodule, hlisted, hdata, hanswer, habsolute⟩ := hg
  exact ⟨reports, s, hs, hreports, ⟨⟨[], hroots, fun q hq => by cases hq⟩, hmodule, hlisted⟩,
    hdata, hanswer, habsolute⟩

end Session

end Scoping
