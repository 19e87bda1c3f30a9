import Scoping.Proofs.Session.Run

/-!
# Completed forward declarations in a session

A unit may complete a forward declaration that an earlier unit has published. The completing symbol
then takes the place of the declaration in the scope of the earlier unit, but the tables in which
the declaration was published keep listing it. `Session.droppedDead_iff` says that this is the only
way in which a dropped declaration remains reachable.
-/

namespace Scoping

namespace Session

open Scoping.Graph

variable {s s' : Session} {config : Config} {loader : Loader} {reducer : Reducer} {x : SymbolId}

theorem Moment.succession {g : Graph} (hg : s.Moment g)
    (hs : Reaches (startWith config reducer loader) s) : g.Succession :=
  hg.induction (founding_start config).succession (fun hg hsucc h => h.succession hg hsucc)
    (fun hg hsucc h => (h.spec hg).2.succession hg hsucc) hs

/-- What has been published stays published. -/
theorem Reaches.published (hs : s.Sound) (h : Reaches s s') (hx : s.graph.Published x) :
    s'.graph.Published x := by
  induction h with
  | refl => exact hx
  | tail hreaches hnext ih =>
    have hmid := Reaches.sound hs hreaches
    obtain ⟨g₁, hsteps, hpublishes⟩ := hnext.phases hmid
    have hg₁ := hmid.coherent.steps hsteps
    exact (hpublishes.spec hg₁).2.published hg₁ (hsteps.published hmid.coherent ih)

/-- A dropped declaration that is still listed was published before it was completed. -/
theorem exists_exposed (h : Reaches (startWith config reducer loader) s) (hx : s.graph.Listed x)
    (hd : s.graph.Dropped x) :
    ∃ s₁, Reaches (startWith config reducer loader) s₁ ∧ Reaches s₁ s ∧ s₁.graph.Exposed x := by
  induction h with
  | refl =>
    obtain ⟨p, hp⟩ := hd
    rw [show (startWith config reducer loader).graph = (start config).graph from rfl,
      (founding_start config).dropped] at hp
    cases hp
  | tail hreaches hnext ih =>
    have hmid := coherent_of_reaches hreaches
    obtain ⟨g₁, hsteps, hpublishes⟩ := hnext.phases (sound_of_reaches hreaches)
    obtain ⟨⟨q, ns, name, -, hx⟩, hd | hexposed⟩ :=
      published_of_phases hmid hsteps (hpublishes.spec (hmid.steps hsteps)).2 hx hd
    · obtain ⟨s₁, hbefore, hafter, hexposed⟩ := ih ⟨q, ns, name, hx⟩ hd
      exact ⟨s₁, hbefore, hafter.tail hnext, hexposed⟩
    · exact ⟨_, hreaches, .single hnext, hexposed⟩

/-- Dropped declarations are dead exactly if no published forward declaration is ever completed. -/
theorem droppedDead_iff (h : Reaches (startWith config reducer loader) s) :
    s.graph.DroppedDead ↔
      ∀ s₁ x, Reaches (startWith config reducer loader) s₁ → Reaches s₁ s →
        s₁.graph.Exposed x → ¬ s.graph.Dropped x := by
  constructor
  · intro hdead s₁ x hbefore hafter hexposed hd
    have hs₁ := sound_of_reaches hbefore
    obtain ⟨q, ns, name, -, hx⟩ := hafter.published hs₁ (hexposed.published hs₁.coherent)
    exact hdead.not_listed hd ⟨q, ns, name, hx⟩
  · intro hnone
    refine ((moment_graph s).succession h).droppedDead (coherent_of_reaches h) fun x hd hx => ?_
    obtain ⟨s₁, hbefore, hafter, hexposed⟩ := exists_exposed h hx hd
    exact hnone s₁ x hbefore hafter hexposed hd

/-! ### Completing a declaration in the same unit and in a later one -/

/-- A unit that declares a function and completes it. -/
def completedHere : Tree :=
  { file := "a.phs"
    nodes := #[{ kind := .fnDecl { name := some "f", mods := [.visible] } }, { kind := .block [] },
      { kind := .fnDecl { name := some "f", mods := [.visible], body := some ⟨1⟩ } },
      { kind := .unit [⟨0⟩, ⟨2⟩] }]
    root := ⟨3⟩ }

/-- A unit that only declares the function. -/
def declaredHere : Tree :=
  { file := "a.phs"
    nodes := #[{ kind := .fnDecl { name := some "f", mods := [.visible] } },
      { kind := .unit [⟨0⟩] }]
    root := ⟨1⟩ }

/-- A unit that completes the function. -/
def completedLater : Tree :=
  { file := "b.phs"
    nodes := #[{ kind := .block [] },
      { kind := .fnDecl { name := some "f", mods := [.visible], body := some ⟨0⟩ } },
      { kind := .unit [⟨1⟩] }]
    root := ⟨2⟩ }

/-- A declaration that is completed in its own unit is dead afterwards. -/
theorem droppedDead_completedHere :
    ∃ reports s, (start {}).analyzeAll [completedHere] = .ok (reports, s) ∧ s.graph.Dropped ⟨0⟩ ∧
      s.graph.DroppedDead := by
  have hend : endsWith [completedHere]
      (fun _ g => (g.scope ⟨1⟩).dropped == [⟨0⟩] && !g.listsDropped) = true := by decide +kernel
  obtain ⟨reports, s, hs, hg⟩ := exists_of_endsWith hend
  rw [Bool.and_eq_true, beq_iff_eq, Bool.not_eq_true'] at hg
  have hreaches : Reaches (startWith {} Reduce.node (.counting [])) s := reaches_of_analyzeAll hs
  refine ⟨reports, s, hs, ⟨⟨1⟩, by rw [hg.1]; exact List.mem_singleton.mpr rfl⟩, ?_⟩
  rw [droppedDead_iff hreaches]
  intro s₁ x hbefore hafter hexposed hd
  have hs₁ := sound_of_reaches hbefore
  obtain ⟨q, ns, name, -, hx⟩ := hafter.published hs₁ (hexposed.published hs₁.coherent)
  have hlists := (listsDropped_iff (coherent_of_reaches hreaches)).mpr ⟨x, hd, q, ns, name, hx⟩
  rw [hg.2] at hlists
  cases hlists

/-- A declaration that is completed in a later unit stays in the global table, and its name still
stands for it. -/
theorem not_droppedDead_completedLater :
    ∃ reports s, (start {}).analyzeAll [declaredHere, completedLater] = .ok (reports, s) ∧
      (s.graph.scope ⟨1⟩).dropped = [⟨0⟩] ∧
      (s.graph.lookupPath global (.single "f") .value).1 = .found ⟨0⟩ ∧ ¬ s.graph.DroppedDead := by
  have hend : endsWith [declaredHere, completedLater] (fun _ g => (g.scope ⟨1⟩).dropped == [⟨0⟩] &&
      (g.lookupPath global (.single "f") .value).1 == .found ⟨0⟩) = true := by decide +kernel
  obtain ⟨reports, s, hs, hg⟩ := exists_of_endsWith hend
  rw [Bool.and_eq_true, beq_iff_eq, beq_iff_eq] at hg
  obtain ⟨hdropped, hfound⟩ := hg
  refine ⟨reports, s, hs, hdropped, hfound, fun hdead => ?_⟩
  refine hdead.not_found (congrArg Lookup.symbol? hfound) ⟨⟨1⟩, ?_⟩
  rw [hdropped]
  exact List.mem_singleton.mpr rfl

end Session

end Scoping
