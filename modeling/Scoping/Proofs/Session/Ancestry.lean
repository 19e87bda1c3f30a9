import Scoping.Proofs.Graph.Ancestry
import Scoping.Proofs.Session.Run

/-!
# Superclasses in a session

At every moment of a session, chains of superclasses end unless a member scope that several types
share has become its own superclass (`Session.superChains_end_iff`). That can happen: two copies of
a class that is a member of a trait are resolved one after the other, each where its host is, and
what the second finds for its superclass may have been derived from the first.
-/

namespace Scoping

namespace Session

open Scoping.Graph

variable {config : Config} {reducer : Reducer} {loader : Loader} {s : Session} {g : Graph}

theorem Moment.ancestry (hg : s.Moment g) (hs : Reaches (startWith config reducer loader) s) :
    g.Ancestry := by
  refine hg.induction ?_ (fun _ hancestry h => h.ancestry hancestry)
    (fun hg hancestry h => (h.spec hg).2.ancestry hancestry) hs
  have hnone := (founding_start config).unlinked
  refine ⟨fun {q p} hlink => ?_, fun q hcycle => ?_⟩
  · rw [hnone] at hlink
    cases hlink
  · obtain ⟨r, -, hlast⟩ := Relation.TransGen.tail'_iff.mp hcycle
    rw [LinksApart, hnone] at hlast
    cases hlast.1

/-- Chains of superclasses end exactly if no member scope that two types share is on its own
chain. -/
theorem superChains_end_iff (h : Reaches (startWith config reducer loader) s) (hg : s.Moment g) :
    g.SuperAcyclic ↔ ∀ q, g.Shared q → ¬ g.Inherits q q :=
  (hg.ancestry h).superAcyclic_iff

/-! ### Copies that share a scope -/

/-- A class in a trait that is copied into another class. -/
def copiedOnce : Tree :=
  { file := "a.phs"
    nodes := #[{ kind := .classDecl { name := "B" } },
      { kind := .classDecl { name := "K", mods := [.visible], super := some (.single "B") } },
      { kind := .traitDecl { name := "T", members := [⟨1⟩] } },
      { kind := .classDecl { name := "H", uses := [{ path := .single "T" }] } },
      { kind := .unit [⟨0⟩, ⟨2⟩, ⟨3⟩] }]
    root := ⟨4⟩ }

/-- The class is copied twice. The first copy extends `B`, and the class of that name in `H2`
extends the first copy; the second copy finds the latter. -/
def copiedTwice : Tree :=
  { file := "a.phs"
    nodes := #[{ kind := .classDecl { name := "B" } },
      { kind := .classDecl { name := "K", mods := [.visible], super := some (.single "B") } },
      { kind := .traitDecl { name := "T", members := [⟨1⟩] } },
      { kind := .classDecl { name := "H0", uses := [{ path := .single "T" }] } },
      { kind := .classDecl { name := "B", mods := [.visible], super := some (.single "K") } },
      { kind := .classDecl { name := "H2", super := some (.single "H0"), members := [⟨4⟩] } },
      { kind := .classDecl
          { name := "H1", super := some (.single "H2"), uses := [{ path := .single "T" }] } },
      { kind := .unit [⟨0⟩, ⟨2⟩, ⟨3⟩, ⟨5⟩, ⟨6⟩] }]
    root := ⟨7⟩ }

/-- One copy shares its scope with the original, and both extend `B`. -/
theorem superChains_end_copiedOnce :
    ∃ reports s, (start {}).analyzeAll [copiedOnce] = .ok (reports, s) ∧ s.graph.Shared ⟨7⟩ ∧
      s.graph.superScope? ⟨7⟩ = some ⟨3⟩ ∧ s.graph.SuperAcyclic := by
  have hend : endsWith [copiedOnce] (fun _ g => decide
      ((g.symbol ⟨2⟩).members? = some ⟨7⟩ ∧ (g.symbol ⟨4⟩).members? = some ⟨7⟩ ∧
        g.superScope? ⟨7⟩ = some ⟨3⟩ ∧ ∀ i < g.scopes.size, ∀ p ∈ g.superScope? ⟨i⟩,
          g.superScope? p = none)) = true := by decide +kernel
  obtain ⟨reports, s, hs, hg⟩ := exists_of_endsWith hend
  obtain ⟨horiginal, hcopy, hsuper, hshort⟩ := of_decide_eq_true hg
  have hreaches : Reaches (startWith {} Reduce.node (.counting [])) s := reaches_of_analyzeAll hs
  refine ⟨reports, s, hs, ⟨⟨2⟩, ⟨4⟩, by decide, horiginal, hcopy⟩, hsuper, ?_⟩
  refine (superChains_end_iff hreaches (moment_graph s)).mpr fun q _ hcycle => ?_
  -- a superclass has no superclass here
  obtain ⟨r, hfirst, hrest⟩ := Relation.TransGen.head'_iff.mp hcycle
  have hr := hshort q.index (lt_size_of_superScope? hfirst) r hfirst
  rcases Relation.ReflTransGen.cases_head hrest with rfl | ⟨p, hsecond, -⟩
  · rw [hr] at hfirst
    cases hfirst
  · rw [hr] at hsecond
    cases hsecond

/-- The second copy extends a class that extends the first, and both have one scope. -/
theorem not_superChains_end_copiedTwice :
    ∃ reports s, (start {}).analyzeAll [copiedTwice] = .ok (reports, s) ∧
      reports.all UnitReport.canGenerate = true ∧ s.graph.superScope? ⟨7⟩ = some ⟨13⟩ ∧
      s.graph.superScope? ⟨13⟩ = some ⟨7⟩ ∧ ¬ s.graph.SuperAcyclic := by
  have hend : endsWith [copiedTwice] (fun reports g => reports.all UnitReport.canGenerate &&
      decide (g.superScope? ⟨7⟩ = some ⟨13⟩ ∧ g.superScope? ⟨13⟩ = some ⟨7⟩)) = true := by
    decide +kernel
  obtain ⟨reports, s, hs, hg⟩ := exists_of_endsWith hend
  rw [Bool.and_eq_true, decide_eq_true_eq] at hg
  obtain ⟨haccepted, hthere, hback⟩ := hg
  exact ⟨reports, s, hs, haccepted, hthere, hback,
    fun hacyclic => hacyclic.irrefl ⟨7⟩ (.head hthere (.single hback))⟩

end Session

end Scoping
