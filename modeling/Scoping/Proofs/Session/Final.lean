import Scoping.Proofs.Session.Dropped

/-!
# Final symbols in a session

Whether a session keeps its final symbols from being declared again depends on the order of
declarations. Further in, a final symbol is safe from what is declared after it, but not from what
is already there when it is declared. Superclasses are linked after the members of all classes have
been declared, so that no member is checked against the final members that its class inherits.
`Session.finalProtected_iff` says that nothing else can go wrong.
-/

namespace Scoping

namespace Session

open Scoping.Graph

variable {config : Config} {reducer : Reducer} {loader : Loader} {s : Session} {g : Graph}

theorem Moment.guarded (hg : s.Moment g) (hs : Reaches (startWith config reducer loader) s) :
    g.Guarded := by
  refine (hg.induction (P := fun g => g.Succession ∧ g.Guarded)
    ⟨(founding_start config).succession, (founding_start config).guarded⟩ (fun hg hp h => ?_)
    (fun hg hp h => ?_) hs).2
  · exact ⟨h.succession hg hp.1, h.guarded hg hp.1 hp.2⟩
  · exact ⟨(h.spec hg).2.succession hg hp.1, (h.spec hg).2.guarded hg hp.2⟩

/-- Final symbols are protected exactly if none is declared after a symbol of its name further in,
and none is declared again by a subclass. -/
theorem finalProtected_iff (h : Reaches (startWith config reducer loader) s) :
    s.graph.FinalProtected ↔
      (∀ x f p q, s.graph.Redeclares x f p q →
        s.graph.Beneath (s.graph.owner p) (s.graph.owner q) → ¬ s.graph.Early x f p) ∧
      ∀ x f p q, s.graph.Redeclares x f p q →
        ¬ s.graph.Inherits (s.graph.owner p) (s.graph.owner q) := by
  constructor
  · intro hprotected
    exact ⟨fun x f p q hr hbeneath _ => hprotected.lexical hr hbeneath,
      fun x f p q hr => hprotected.inherited hr⟩
  · rintro ⟨hlate, hinherited⟩
    refine ⟨fun hr hbeneath => ?_, hinherited _ _ _ _⟩
    obtain ⟨x, p, hr', hbeneath', hearly⟩ :=
      (moment_graph s).guarded h hr hbeneath
    exact hlate x _ p _ hr' hbeneath' hearly

/-! ### Final symbols that come first, and such that do not -/

/-- A variable in a block, after a final one of the same name around it. -/
def finalFirst : Tree :=
  { file := "a.phs"
    nodes := #[{ kind := .varDecl [.final] [{ name := "x" }] },
      { kind := .varDecl [] [{ name := "x" }] }, { kind := .block [⟨1⟩] },
      { kind := .unit [⟨0⟩, ⟨2⟩] }]
    root := ⟨3⟩ }

/-- A variable in a block, before a final one of the same name around it. -/
def finalLast : Tree :=
  { file := "a.phs"
    nodes := #[{ kind := .varDecl [] [{ name := "x" }] }, { kind := .block [⟨0⟩] },
      { kind := .varDecl [.final] [{ name := "x" }] }, { kind := .unit [⟨1⟩, ⟨2⟩] }]
    root := ⟨3⟩ }

/-- A method that overrides a final one. -/
def finalOverridden : Tree :=
  { file := "a.phs"
    nodes := #[{ kind := .block [] },
      { kind := .fnDecl { name := some "m", mods := [.final, .visible], body := some ⟨0⟩ } },
      { kind := .classDecl { name := "B", members := [⟨1⟩] } }, { kind := .block [] },
      { kind := .fnDecl { name := some "m", mods := [.visible], body := some ⟨3⟩ } },
      { kind := .classDecl { name := "D", super := some (.single "B"), members := [⟨4⟩] } },
      { kind := .unit [⟨2⟩, ⟨5⟩] }]
    root := ⟨6⟩ }

/-- The variable in the block is refused. -/
theorem finalProtected_finalFirst :
    ∃ reports s, (start {}).analyzeAll [finalFirst] = .ok (reports, s) ∧
      (s.graph.symbol ⟨0⟩).flags.isFinal = true ∧ s.graph.FinalProtected := by
  have hend : endsWith [finalFirst] (fun _ g => decide (g.symbols.size = 2 ∧
      (g.symbol ⟨0⟩).flags.isFinal = true ∧ (g.symbol ⟨1⟩).scope = none)) = true := by
    decide +kernel
  obtain ⟨reports, s, hs, hg⟩ := exists_of_endsWith hend
  obtain ⟨hsize, hfinal, hdetached⟩ := of_decide_eq_true hg
  -- only one of the two variables is declared
  have hnone : ∀ x f p q, ¬ s.graph.Redeclares x f p q := by
    intro x f p q hr
    have hzero : ∀ {y r}, s.graph.AtHome y r → y = ⟨0⟩ := by
      rintro ⟨i⟩ r hy
      have hlt : i < 2 := hsize ▸ hy.lt_size
      obtain rfl | rfl : i = 0 ∨ i = 1 := by omega
      · rfl
      · rw [hy.scope] at hdetached
        cases hdetached
    exact hr.ne (by rw [hzero hr.home, hzero hr.home_final])
  have hreaches : Reaches (startWith {} Reduce.node (.counting [])) s := reaches_of_analyzeAll hs
  exact ⟨reports, s, hs, hfinal, (finalProtected_iff hreaches).mpr
    ⟨fun x f p q hr => absurd hr (hnone x f p q), fun x f p q hr => absurd hr (hnone x f p q)⟩⟩

/-- Both the variable and the overriding method are accepted. -/
theorem not_finalProtected_finalLast_finalOverridden :
    (∃ reports s, (start {}).analyzeAll [finalLast] = .ok (reports, s) ∧
      reports.all UnitReport.canGenerate = true ∧ ¬ s.graph.FinalProtected) ∧
    ∃ reports s, (start {}).analyzeAll [finalOverridden] = .ok (reports, s) ∧
      reports.all UnitReport.canGenerate = true ∧ ¬ s.graph.FinalProtected := by
  have hlast : endsWith [finalLast] (fun reports g => reports.all UnitReport.canGenerate &&
      decide (g.Redeclares ⟨0⟩ ⟨1⟩ ⟨3⟩ ⟨2⟩ ∧
        g.outward? (g.owner ⟨3⟩) = some (g.owner ⟨2⟩))) = true := by
    decide +kernel
  have hoverridden : endsWith [finalOverridden] (fun reports g =>
      reports.all UnitReport.canGenerate && decide (g.Redeclares ⟨3⟩ ⟨1⟩ ⟨6⟩ ⟨3⟩ ∧
        g.superScope? (g.owner ⟨6⟩) = some (g.owner ⟨3⟩))) = true := by
    decide +kernel
  constructor
  · obtain ⟨reports, s, hs, hg⟩ := exists_of_endsWith hlast
    rw [Bool.and_eq_true, decide_eq_true_eq] at hg
    exact ⟨reports, s, hs, hg.1, fun h => h.lexical hg.2.1 (.single hg.2.2)⟩
  · obtain ⟨reports, s, hs, hg⟩ := exists_of_endsWith hoverridden
    rw [Bool.and_eq_true, decide_eq_true_eq] at hg
    exact ⟨reports, s, hs, hg.1, fun h => h.inherited hg.2.1 (.single hg.2.2)⟩

end Session

end Scoping
