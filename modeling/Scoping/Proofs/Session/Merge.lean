import Scoping.Proofs.Graph.Merge
import Scoping.Proofs.Session.Instant

/-!
# What later units see of a unit

At every moment of a session, publishing a unit merges it into the global tree of modules
(`Session.exportUnit_merges`). An earlier unit keeps the names that it has published.
-/

namespace Scoping

namespace Session

open Scoping.Graph

variable {config : Config} {reducer : Reducer} {loader : Loader} {σ : Session} {g : Graph}
  {unit : ScopeId}

/-- Whenever a unit is published, its tree of modules is merged into the global one, an earlier
entry wins, and publishing it again changes nothing and finds the same conflicts. -/
theorem exportUnit_merges (hσ : Reaches (startWith config reducer loader) σ) (hg : σ.Instant g)
    (hunit : (g.scope unit).kind = .unit) :
    g.Merge unit (g.exportUnit unit).1 (g.exportUnit unit).2 ∧
      (g.exportUnit unit).2.exportUnit unit = g.exportUnit unit := by
  have hcoherent := hg.coherent (sound_of_reaches hσ)
  have hbranch := hg.branching (orderly_of_reaches hσ)
  exact ⟨exportUnit_merge hcoherent hbranch hunit, exportUnit_exportUnit hcoherent hbranch hunit⟩

/-- A unit with a function in a module. -/
def firstUnit : Tree :=
  { file := "a.phs"
    nodes := #[{ kind := .block [] },
      { kind := .fnDecl { name := some "f", mods := [.visible], body := some ⟨0⟩ } },
      { kind := .moduleDecl (some (.single "m")) [⟨1⟩] },
      { kind := .unit [⟨2⟩] }]
    root := ⟨3⟩ }

/-- A unit with a function of the same name in a module of the same name, with a private function
and a public one beside it and a module below it. -/
def secondUnit : Tree :=
  { file := "b.phs"
    nodes := #[{ kind := .block [] },
      { kind := .fnDecl { name := some "f", mods := [.visible], body := some ⟨0⟩ } },
      { kind := .block [] },
      { kind := .fnDecl { name := some "h", mods := [.hidden], body := some ⟨2⟩ } },
      { kind := .classDecl { name := "C", mods := [.visible] } },
      { kind := .moduleDecl (some (.single "n")) [⟨4⟩] },
      { kind := .moduleDecl (some (.single "m")) [⟨1⟩, ⟨3⟩, ⟨5⟩] },
      { kind := .unit [⟨6⟩] }]
    root := ⟨7⟩ }

/-- Does the collection of a unit come to an end after another one, with the given outcome? -/
def collectedAfter (first second : Tree) (outcome : Graph → ScopeId → Bool) : Bool :=
  match (start {}).analyze first with
  | .ok (_, _, s) =>
    match Declaration.unit (s.opening second) with
    | .ok unit a => outcome a.graph unit
    | .error _ _ => false
  | .error _ => false

theorem exists_of_collectedAfter {first second : Tree} {outcome : Graph → ScopeId → Bool}
    (h : collectedAfter first second outcome = true) :
    ∃ σ g unit, Reaches (startWith {} (start {}).reducer (start {}).loader) σ ∧ σ.Instant g ∧
      outcome g unit = true := by
  unfold collectedAfter at h
  split at h
  next report t' σ hfirst =>
    split at h
    next unit a hsecond =>
      have hσ : Reaches (startWith {} (start {}).reducer (start {}).loader) σ :=
        .single ⟨first, report, t', hfirst⟩
      exact ⟨σ, a.graph, unit, hσ, instant_collected (sound_of_reaches hσ) hsecond, h⟩
    next => cases h
  next => cases h

/-- The function of the first unit keeps its name, the class in the new module is found there, and
the private function is not published. -/
theorem exportUnit_merges_secondUnit :
    ∃ σ g unit, Reaches (startWith {} (start {}).reducer (start {}).loader) σ ∧ σ.Instant g ∧
      g.Merge unit (g.exportUnit unit).1 (g.exportUnit unit).2 ∧
      (g.exportUnit unit).2.exportUnit unit = g.exportUnit unit ∧
      (g.exportUnit unit).1 = [⟨⟨1⟩, ⟨0⟩, .duplicate⟩] ∧
      (g.exportUnit unit).2.entryAt? global ["m"] .value "f" = some ⟨0⟩ ∧
      (g.exportUnit unit).2.entryAt? global ["m", "n"] .type "C" = some ⟨3⟩ ∧
      (g.exportUnit unit).2.entryAt? global ["m"] .value "h" = none := by
  have hend : collectedAfter firstUnit secondUnit (fun g unit => decide (
      (g.scope unit).kind = .unit ∧ (g.exportUnit unit).1 = [⟨⟨1⟩, ⟨0⟩, .duplicate⟩] ∧
      (g.exportUnit unit).2.entryAt? global ["m"] .value "f" = some ⟨0⟩ ∧
      (g.exportUnit unit).2.entryAt? global ["m", "n"] .type "C" = some ⟨3⟩ ∧
      (g.exportUnit unit).2.entryAt? global ["m"] .value "h" = none)) = true := by
    decide +kernel
  obtain ⟨σ, g, unit, hσ, hg, houtcome⟩ := exists_of_collectedAfter hend
  obtain ⟨hunit, hrest⟩ := of_decide_eq_true houtcome
  obtain ⟨hmerge, hagain⟩ := exportUnit_merges hσ hg hunit
  exact ⟨σ, g, unit, hσ, hg, hmerge, hagain, hrest⟩

end Session

end Scoping
