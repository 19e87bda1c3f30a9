import Scoping.Proofs.Change.Passes
import Scoping.Proofs.Session.Start

/-!
# Runs of a session

What the analysis of one unit does to the graph of its session falls into two phases: steps, which
leave everything outside units alone, and then publications, which leave everything inside units
alone (`Session.Next.phases`). By induction the graph of every session is coherent
(`Session.coherent_of_reaches`).
-/

namespace Scoping

namespace Session

/-- The session goes on with one more unit. -/
def Next (s s' : Session) : Prop := ∃ t report t', s.analyze t = .ok (report, t', s')

/-- The session goes on with any number of units. -/
def Reaches : Session → Session → Prop := Relation.ReflTransGen Next

/-- A new session with its own reducer and loader. -/
def startWith (config : Config) (reducer : Reducer) (loader : Loader) : Session :=
  { start config with reducer, loader }

theorem reaches_start :
    Reaches (startWith {} (start {}).reducer (start {}).loader) (start {}) := .refl

/-- Analyses a list of units. -/
def analyzeAll (s : Session) : List Tree → Except Halt (List UnitReport × Session)
  | [] => .ok ([], s)
  | t :: rest =>
    match s.analyze t with
    | .ok (report, _, next) => (next.analyzeAll rest).map fun (reports, s) => (report :: reports, s)
    | .error halt => .error halt

variable {s s' : Session} {trees : List Tree} {reports : List UnitReport}

theorem analyzeAll_cons {t : Tree} (h : s.analyzeAll (t :: trees) = .ok (reports, s')) :
    ∃ r t' next rest, s.analyze t = .ok (r, t', next) ∧ next.analyzeAll trees = .ok (rest, s') ∧
      reports = r :: rest := by
  unfold analyzeAll at h
  split at h
  next r t' next hnext =>
    cases hrest : next.analyzeAll trees with
    | error halt =>
      rw [hrest] at h
      cases h
    | ok result =>
      rw [hrest] at h
      cases h
      exact ⟨r, t', next, _, hnext, hrest, rfl⟩
  next => cases h

theorem reaches_of_analyzeAll (h : s.analyzeAll trees = .ok (reports, s')) : Reaches s s' := by
  induction trees generalizing s reports with
  | nil =>
    cases h
    exact .refl
  | cons t trees ih =>
    obtain ⟨r, t', next, rest, hnext, hrest, -⟩ := analyzeAll_cons h
    exact .head ⟨t, r, t', hnext⟩ (ih hrest)

/-- Does the analysis of the units come to an end, with the given outcome? -/
def endsWith (trees : List Tree) (outcome : List UnitReport → Graph → Bool) : Bool :=
  match (start {}).analyzeAll trees with
  | .ok (reports, s) => outcome reports s.graph
  | .error _ => false

theorem exists_of_endsWith {outcome : List UnitReport → Graph → Bool}
    (h : endsWith trees outcome = true) :
    ∃ reports s, (start {}).analyzeAll trees = .ok (reports, s) ∧
      outcome reports s.graph = true := by
  unfold endsWith at h
  split at h
  next reports s hs => exact ⟨reports, s, hs, h⟩
  next => cases h

/-- The analysis of a unit refuses its tree, or goes through the passes. -/
theorem analyze_cases {t t' : Tree} {r : UnitReport} (h : s.analyze t = .ok (r, t', s')) :
    (∃ fault, t.validate = .error fault ∧ r = report none (({} : Log).abort {} fault.message) [] ∧
      t' = t ∧ s' = s.count r) ∨
    ∃ unit a, t.validate = .ok () ∧
      (Analysis.passes s.environment).run (s.opening t) = .ok unit a ∧
      r = report (some unit) a.log a.requests ∧ t' = a.tree ∧ s' = (s.resume a).count r := by
  unfold analyze at h
  split at h
  next fault ht =>
    cases h
    exact .inl ⟨fault, ht, rfl, rfl, rfl⟩
  next ht =>
    split at h
    next unit a hrun =>
      cases h
      exact .inr ⟨unit, a, ht, hrun, rfl, rfl, rfl⟩
    next => cases h

theorem run_of_analyze {t t' : Tree} {r : UnitReport} (ht : t.validate = .ok ())
    (h : s.analyze t = .ok (r, t', s')) :
    ∃ unit a, (Analysis.passes s.environment).run (s.opening t) = .ok unit a ∧
      r = report (some unit) a.log a.requests ∧ t' = a.tree ∧ s' = (s.resume a).count r := by
  rcases analyze_cases h with ⟨fault, hfault, -⟩ | ⟨unit, a, -, hrun⟩
  · cases ht.symm.trans hfault
  · exact ⟨unit, a, hrun⟩

/-- What a session keeps from unit to unit: its graph is coherent, and its root object is a class
that has been resolved. -/
structure Sound (s : Session) : Prop where
  coherent : s.graph.Coherent
  ready : Analysis.Ready s.environment ∅ s.graph

/-- What becomes of the graph of a session: nothing, or a unit is analysed and perhaps published. -/
theorem Next.surveys (hs : s.Sound) (h : Next s s') :
    s'.graph = s.graph ∨ ∃ t unit a, (s.opening t).Surveys unit a ∧
      Graph.Publishes a.graph s'.graph := by
  obtain ⟨t, report, t', h⟩ := h
  obtain ⟨fault, -, -, -, rfl⟩ | ⟨unit, a, -, hrun, -, -, rfl⟩ := analyze_cases h
  · exact .inl rfl
  · obtain ⟨a₁, hbefore, hpublish⟩ := Analysis.ok_passes hrun
    have hsurveys :=
      Analysis.surveys_of_beforeExport (s := s.opening t) hs.coherent hs.ready hbefore
    exact .inr ⟨t, unit, a₁, hsurveys, (hsurveys.publish hpublish).2⟩

/-- A unit is analysed in steps and then published. -/
theorem Next.phases (hs : s.Sound) (h : Next s s') :
    ∃ g₁, Graph.Steps .univ s.graph g₁ ∧ Graph.Publishes g₁ s'.graph := by
  rcases h.surveys hs with heq | ⟨t, unit, a, ha, hpublishes⟩
  · exact ⟨s.graph, .refl, heq ▸ .refl⟩
  · exact ⟨a.graph, ha.onward.steps.mono (Set.subset_univ _), hpublishes⟩

/-- A unit is analysed and published by edits. -/
theorem Next.edits (hs : s.Sound) (h : Next s s') : Graph.Edits .univ s.graph s'.graph := by
  rcases h.surveys hs with heq | ⟨t, unit, a, ha, hpublishes⟩
  · exact heq ▸ .refl
  · exact (ha.onward.edits.mono (Set.subset_univ _)).trans hpublishes.edits

/-- What has been decided about types stays. -/
theorem Next.settles (hs : s.Sound) (h : Next s s') : s.graph.Settles s'.graph := by
  rcases h.surveys hs with heq | ⟨t, unit, a, ha, hpublishes⟩
  · exact heq ▸ .refl
  · have hedits : Graph.Edits ∅ a.graph s'.graph := hpublishes.edits
    exact ha.settles.trans (hedits.settles nofun)

/-- The graphs that a session goes through from here to the end of the next unit: some edits of the
analysis have been made, and then perhaps some of the publication. -/
def Moment (s : Session) (g : Graph) : Prop :=
  ∃ g₁, Graph.Steps .univ s.graph g₁ ∧ Graph.Publishes g₁ g

theorem moment_graph (s : Session) : s.Moment s.graph := ⟨s.graph, .refl, .refl⟩

theorem Next.rootObject_eq (h : Next s s') : s'.rootObject = s.rootObject := by
  obtain ⟨t, report, t', h⟩ := h
  obtain ⟨fault, -, -, -, rfl⟩ | ⟨unit, a, -, -, -, -, rfl⟩ := analyze_cases h <;> rfl

theorem Next.sound (hs : s.Sound) (h : Next s s') : s'.Sound := by
  obtain ⟨g₁, hsteps, hpublishes⟩ : s.Moment s'.graph := h.phases hs
  obtain ⟨hcoherent, hpublishing⟩ := hpublishes.spec (hs.coherent.steps hsteps)
  refine ⟨hcoherent, ⟨fun x hx => absurd hx (Set.notMem_empty x), fun r hr => ?_⟩⟩
  obtain ⟨hresolved, hkind⟩ := hs.ready.root r (h.rootObject_eq.symm.trans hr)
  refine ⟨?_, (h.edits hs).kind_eq hkind (by decide)⟩
  rw [hpublishing.symbol]
  exact hsteps.resolved hresolved

theorem Moment.coherent {g : Graph} (hs : s.Sound) (h : s.Moment g) : g.Coherent := by
  obtain ⟨g₁, hsteps, hpublishes⟩ := h
  exact (hpublishes.spec (hs.coherent.steps hsteps)).1

theorem Reaches.sound (hs : s.Sound) (h : Reaches s s') : s'.Sound := by
  induction h with
  | refl => exact hs
  | tail _ hnext ih => exact hnext.sound ih

variable {config : Config} {reducer : Reducer} {loader : Loader}

theorem sound_of_reaches (h : Reaches (startWith config reducer loader) s) : s.Sound :=
  Reaches.sound (s := startWith config reducer loader)
    ⟨(founding_start config).coherent, ⟨fun x hx => absurd hx (Set.notMem_empty x),
      fun _ hr => data_rootObject hr⟩⟩ h

theorem coherent_of_reaches (h : Reaches (startWith config reducer loader) s) :
    s.graph.Coherent :=
  (sound_of_reaches h).coherent

/-- What holds of the graph of a new session and is kept by steps and publications holds at every
moment. -/
theorem Moment.induction {P : Graph → Prop} {g : Graph} (hstart : P (start config).graph)
    (hsteps : ∀ {g g'}, g.Coherent → P g → Graph.Steps .univ g g' → P g')
    (hpublishes : ∀ {g g'}, g.Coherent → P g → Graph.Publishes g g' → P g') (hg : s.Moment g)
    (hs : Reaches (startWith config reducer loader) s) : P g := by
  have hmoment : ∀ {s : Session} {g}, s.Sound → P s.graph → s.Moment g → P g :=
    fun hs hp ⟨_, hfirst, hlast⟩ =>
      hpublishes (hs.coherent.steps hfirst) (hsteps hs.coherent hp hfirst) hlast
  refine hmoment (sound_of_reaches hs) ?_ hg
  clear hg
  induction hs with
  | refl => exact hstart
  | tail hreaches hnext ih =>
    have hsound := sound_of_reaches hreaches
    exact hmoment hsound ih (hnext.phases hsound)

end Session

end Scoping
