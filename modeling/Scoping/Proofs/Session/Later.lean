import Scoping.Proofs.Graph.NewUnit
import Scoping.Proofs.Session.Intrinsic
import Scoping.Proofs.Session.Merge
import Scoping.Proofs.Session.Privacy

/-!
# What later units see

When units have been analysed one after the other, the global tree of modules holds, for each path
and name, the entry of the first unit that had one when it was published
(`Session.entryAt?_analyzeAll`). A new unit finds this entry by its path, and it finds no private
symbol of an earlier unit (`Session.lookupPath_later`).
-/

namespace Scoping

namespace Session

open Scoping.Graph

variable {config : Config} {reducer : Reducer} {loader : Loader} {s s' : Session} {t : Tree}
  {g : Graph} {unit : ScopeId}

/-! ### Units as they are published -/

/-- The unit of a tree and the graph in which it is published. -/
def exported? (s : Session) (t : Tree) : Option (ScopeId × Graph) :=
  match (Analysis.beforeExport s.environment).run (s.opening t) with
  | .ok unit a => some (unit, a.graph)
  | .error _ _ => none

/-- The units of a list of trees, each with the graph in which it is published. -/
def exports (s : Session) : List Tree → List (ScopeId × Graph)
  | [] => []
  | t :: rest =>
    match s.analyze t with
    | .ok (_, _, next) => (s.exported? t).toList ++ next.exports rest
    | .error _ => []

/-- The entry of the first unit that has one. -/
def earliest? (units : List (ScopeId × Graph)) (path : List String) (ns : Namespace)
    (name : String) : Option SymbolId :=
  units.findSome? fun u => u.2.entryAt? u.1 path ns name

theorem earliest?_cons (u : ScopeId × Graph) (units : List (ScopeId × Graph))
    (path : List String) (ns : Namespace) (name : String) : earliest? (u :: units) path ns name =
      (u.2.entryAt? u.1 path ns name).or (earliest? units path ns name) := by
  rw [earliest?, List.findSome?_cons, ← earliest?]
  cases u.2.entryAt? u.1 path ns name <;> rfl

/-- The session comes to a graph in which the unit is to be published. -/
structure Exporting (s : Session) (unit : ScopeId) (g : Graph) : Prop where
  steps : Steps .univ s.graph g
  edits : Edits .univ s.graph g
  kind : (g.scope unit).kind = .unit

theorem exporting_of_exported? (hs : Reaches (startWith config reducer loader) s)
    (h : s.exported? t = some (unit, g)) : s.Exporting unit g := by
  unfold exported? at h
  split at h
  next unit' a hrun =>
    cases h
    have hsound := sound_of_reaches hs
    have ha := Analysis.surveys_of_beforeExport (s := s.opening t) hsound.coherent hsound.ready hrun
    exact ⟨ha.onward.steps.mono (Set.subset_univ _), ha.onward.edits.mono (Set.subset_univ _),
      ha.kind⟩
  next => cases h

/-- A unit whose analysis does not abort is published. -/
theorem exported?_of_analyze {r : UnitReport} {t' : Tree} (h : s.analyze t = .ok (r, t', s'))
    (hr : r.aborted = false) :
    ∃ unit g, s.exported? t = some (unit, g) ∧ r.scope = some unit ∧
      s'.graph = (g.exportUnit unit).2 := by
  obtain ⟨fault, -, rfl, -, -⟩ | ⟨unit, a, -, hrun, rfl, -, rfl⟩ := analyze_cases h
  · cases hr
  · obtain ⟨a₁, hbefore, hpublish⟩ := Analysis.ok_passes hrun
    have hexported : s.exported? t = some (unit, a₁.graph) := by
      unfold exported?
      rw [EStateM.run, hbefore]
    have hpublish := Analysis.ok_unlessAborted_of_eq_false hr hpublish
    obtain ⟨log, -, hrun⟩ := Analysis.run_publish unit a₁
    rw [hrun] at hpublish
    cases hpublish
    exact ⟨unit, a₁.graph, hexported, rfl, rfl⟩

namespace Exporting

variable (hs : Reaches (startWith config reducer loader) s) (h : s.Exporting unit g)
  {path : List String} {ns : Namespace} {name : String}

include hs h

theorem coherent : g.Coherent := (sound_of_reaches hs).coherent.steps h.steps

/-- In the global tree, earlier entries win. -/
theorem entryAt?_exportUnit (hns : ns ≠ .internal) :
    (g.exportUnit unit).2.entryAt? global path ns name =
      (s.graph.entryAt? global path ns name).or (g.entryAt? unit path ns name) := by
  have hmerge := exportUnit_merge (h.coherent hs)
    (h.edits.branching (orderly_of_reaches hs).branching) h.kind
  rw [hmerge.entry, if_neg hns,
    h.edits.sprouts.entryAt?_global (sound_of_reaches hs).coherent h.steps]

/-- No entry of a unit has a name that the session supplies. -/
theorem entryAt?_start {x : SymbolId} (hx : g.entryAt? unit path ns name = some x) :
    (start config).graph.entryAt? global path ns name = none := by
  refine Option.eq_none_iff_forall_ne_some.mpr fun m hm => ?_
  have hnested := (h.coherent hs).nested
  -- the session supplies entries of the global scope only
  have hfounding := founding_start config
  obtain ⟨p, -, hm⟩ := exists_of_entryAt? hm
  rw [(hfounding.owner (hfounding.agreement.entry hm).1).1] at hm
  obtain ⟨q, hq, hx⟩ := exists_of_entryAt? hx
  have hin : g.Inside q := (inside_of_moduleAt?_unit hnested h.kind hq).1
  have hroot : (g.scope q).kind.isRoot = true := by
    rcases kind_moduleAt? hnested hq with rfl | hkind
    · rw [h.kind]
      rfl
    · rw [hkind]
      rfl
  have hmoment : s.Moment g := ⟨g, h.steps, .refl⟩
  have hmanaged := (hmoment.fenced hs (fenced_of_reaches hs)).root hin hroot hx hm
  have hglobal := ((hmoment.reserved hs).entry hx hmanaged).1
  exact hnested.not_inside_global (hglobal ▸ hin)

end Exporting

/-! ### Sequences of units -/

section Sequence

variable {trees : List Tree} {reports : List UnitReport} {path : List String} {ns : Namespace}
  {name : String} {x : SymbolId}

theorem exporting_of_mem_exports (hs : Reaches (startWith config reducer loader) s) :
    ∀ u ∈ s.exports trees, ∃ σ, Reaches (startWith config reducer loader) σ ∧
      σ.Exporting u.1 u.2 := by
  induction trees generalizing s with
  | nil => exact fun u hu => absurd hu List.not_mem_nil
  | cons t rest ih =>
    intro u hu
    unfold exports at hu
    split at hu
    next r t' next hnext =>
      rcases List.mem_append.mp hu with hu | hu
      · exact ⟨s, hs, exporting_of_exported? hs (Option.mem_toList.mp hu)⟩
      · exact ih (hs.tail ⟨t, r, t', hnext⟩) u hu
    next => exact absurd hu List.not_mem_nil

/-- One more unit that is analysed without an abort is one more unit that is published. -/
theorem exports_cons {r : UnitReport} {t' : Tree} {next : Session}
    (h : s.analyze t = .ok (r, t', next)) (hr : r.aborted = false) :
    ∃ unit g, s.exports (t :: trees) = (unit, g) :: next.exports trees ∧ r.scope = some unit ∧
      s.exported? t = some (unit, g) ∧ next.graph = (g.exportUnit unit).2 := by
  obtain ⟨unit, g, hexported, hscope, hgraph⟩ := exported?_of_analyze h hr
  refine ⟨unit, g, ?_, hscope, hexported, hgraph⟩
  rw [exports, h, hexported]
  rfl

/-- The units are those that the reports name. -/
theorem map_exports (h : s.analyzeAll trees = .ok (reports, s'))
    (hr : ∀ r ∈ reports, r.aborted = false) :
    (s.exports trees).map (fun u => some u.1) = reports.map (·.scope) := by
  induction trees generalizing s reports with
  | nil =>
    cases h
    rfl
  | cons t trees ih =>
    obtain ⟨r, t', next, rest, hnext, hrest, rfl⟩ := analyzeAll_cons h
    obtain ⟨hfirst, hr⟩ := List.forall_mem_cons.mp hr
    obtain ⟨unit, g, hexports, hscope, -⟩ := exports_cons hnext hfirst
    rw [hexports, List.map_cons, List.map_cons, ih hrest hr, hscope]

/-- After a sequence of units the global tree has the entries that it had before and, where there
were none, those of the first unit that has one. -/
theorem entryAt?_analyzeAll (hs : Reaches (startWith config reducer loader) s)
    (h : s.analyzeAll trees = .ok (reports, s')) (hr : ∀ r ∈ reports, r.aborted = false)
    (hns : ns ≠ .internal) :
    s'.graph.entryAt? global path ns name = (s.graph.entryAt? global path ns name).or
      (earliest? (s.exports trees) path ns name) := by
  induction trees generalizing s reports with
  | nil =>
    cases h
    exact Option.or_none.symm
  | cons t trees ih =>
    obtain ⟨r, t', next, rest, hnext, hrest, rfl⟩ := analyzeAll_cons h
    obtain ⟨hfirst, hr⟩ := List.forall_mem_cons.mp hr
    obtain ⟨unit, g, hexports, -, hexported, hgraph⟩ := exports_cons hnext hfirst
    rw [ih (hs.tail ⟨t, r, t', hnext⟩) hrest hr, hgraph,
      (exporting_of_exported? hs hexported).entryAt?_exportUnit hs hns, Option.or_assoc, hexports,
      earliest?_cons]

/-- What the session supplies is in nobody's way. -/
theorem entryAt?_of_earliest?
    (h : (startWith config reducer loader).analyzeAll trees = .ok (reports, s))
    (hr : ∀ r ∈ reports, r.aborted = false) (hns : ns ≠ .internal)
    (hx : earliest? ((startWith config reducer loader).exports trees) path ns name = some x) :
    s.graph.entryAt? global path ns name = some x := by
  obtain ⟨u, hu, hentry⟩ := List.exists_of_findSome?_eq_some hx
  obtain ⟨σ, hσ, hexporting⟩ := exporting_of_mem_exports .refl u hu
  have hfree : (startWith config reducer loader).graph.entryAt? global path ns name = none :=
    hexporting.entryAt?_start hσ hentry
  rw [entryAt?_analyzeAll .refl h hr hns, hfree, hx, Option.none_or]

/-- Between units nothing is accessible that is private to a unit, module or type. -/
theorem not_privateTo_of_accessible (hs : Continues (startWith config reducer loader) s)
    (hg : s.graph.Nested) (hx : s.graph.openUnit.2.Accessible x false) (p : ScopeId) :
    ¬ s.graph.PrivateTo x p := by
  intro hprivate
  have hactive := (hx p hprivate.openUnit).1
  have hne : p ≠ global := by
    rintro rfl
    have hkind := hprivate.isPartitioned
    rw [hg.kind_global] at hkind
    cases hkind
  have hidle : (s.graph.scope p).active = 0 := by
    rw [active_of_continues hs, scope_of_size_le]
    · rfl
    · exact Nat.one_le_iff_ne_zero.mpr fun hzero => hne (congrArg ScopeId.mk hzero)
  rw [isActive, scope_openUnit_of_lt hprivate.lt_size, Scope.isActive, hidle] at hactive
  cases hactive

/-- What later units see. Let a unit be opened in which nothing has been declared yet, after trees
have been analysed without an abort. By its path it finds every value and type that has an entry in
one of the earlier units: the entry of the first one. It never finds a symbol that is private to a
unit, module or type. -/
theorem lookupPath_later
    (h : (startWith config reducer loader).analyzeAll trees = .ok (reports, s))
    (hadmits : (startWith config reducer loader).AdmitsAll trees)
    (hr : ∀ r ∈ reports, r.aborted = false) :
    ((startWith config reducer loader).exports trees).map (fun u => some u.1) =
      reports.map (·.scope) ∧
    (∀ path ns name x rooted, ns = .value ∨ ns = .type →
      earliest? ((startWith config reducer loader).exports trees) path ns name = some x →
      (s.graph.openUnit.2.lookupPath s.graph.openUnit.1 ⟨path ++ [name], rooted⟩ ns).1 =
        .found x) ∧
    ∀ path ns x, (s.graph.openUnit.2.lookupPath s.graph.openUnit.1 path ns).1 = .found x →
      ∀ p, ¬ s.graph.PrivateTo x p := by
  have hreaches : Reaches (startWith config reducer loader) s := reaches_of_analyzeAll h
  have hcoherent := coherent_of_reaches hreaches
  have hopened := hcoherent.steps (openUnit_steps hcoherent)
  have hdiscreet := (openUnit_steps hcoherent).discreet hcoherent
    ((moment_graph s).discreet hreaches)
  refine ⟨map_exports h hr, fun path ns name x rooted hns hx => ?_, fun path ns x hx => ?_⟩
  · refine lookupPath_openUnit hcoherent (entryAt?_of_earliest? h hr ?_ hx) rooted
    rcases hns with rfl | rfl <;> decide
  · have houter : (s.graph.openUnit.2.scope s.graph.openUnit.1).outer = none := by
      rw [scope_openUnit_self]
    exact not_privateTo_of_accessible (continues_of_analyzeAll hadmits h) hcoherent.nested
      ((hdiscreet.answers_accessible hopened).lookupPath houter (fun _ _ => trivial) _ x hx)

/-- After two units that both have a function `m::f`, a new unit finds the one of the first unit and
the class that only the second one has, and it does not find the private function of the latter. -/
theorem lookupPath_later_secondUnit :
    ∃ reports s, (start {}).analyzeAll [firstUnit, secondUnit] = .ok (reports, s) ∧
      (∀ r ∈ reports, r.aborted = false) ∧
      (s.graph.openUnit.2.lookupPath s.graph.openUnit.1 ⟨["m", "f"], false⟩ .value).1 = .found ⟨0⟩ ∧
      (s.graph.openUnit.2.lookupPath s.graph.openUnit.1 ⟨["m", "n", "C"], true⟩ .type).1 =
        .found ⟨3⟩ ∧
      s.graph.PrivateTo ⟨2⟩ ⟨10⟩ ∧
      ∀ path ns, (s.graph.openUnit.2.lookupPath s.graph.openUnit.1 path ns).1 ≠ .found ⟨2⟩ := by
  have hend : endsWith [firstUnit, secondUnit] (fun reports g => decide (
      (∀ r ∈ reports, r.aborted = false) ∧ (g.symbol ⟨2⟩).flags.isPrivate = true ∧
      (g.symbol ⟨2⟩).scope = some ⟨11⟩ ∧ g.owner ⟨11⟩ = ⟨10⟩ ∧
      (g.scope ⟨10⟩).kind = .module)) = true := by decide +kernel
  have hentries : earliest? ((start {}).exports [firstUnit, secondUnit]) ["m"] .value "f" =
      some ⟨0⟩ ∧ earliest? ((start {}).exports [firstUnit, secondUnit]) ["m", "n"] .type "C" =
      some ⟨3⟩ := by decide +kernel
  obtain ⟨reports, s, hs, hg⟩ := exists_of_endsWith hend
  obtain ⟨hr, hprivate, hscope, howner, hkind⟩ := of_decide_eq_true hg
  have hadmits : (start {}).AdmitsAll [firstUnit, secondUnit] :=
    ⟨admits_of_all (by decide), fun _ _ _ _ => ⟨admits_of_all (by decide), fun _ _ _ _ => trivial⟩⟩
  have hhidden : s.graph.PrivateTo ⟨2⟩ ⟨10⟩ :=
    ⟨hprivate, ⟨⟨11⟩, hscope, howner⟩, by rw [hkind]; rfl⟩
  have hstart : (startWith {} Reduce.node (.counting [])).analyzeAll [firstUnit, secondUnit] =
    .ok (reports, s) := hs
  obtain ⟨-, hfinds, hhides⟩ := lookupPath_later hstart hadmits hr
  exact ⟨reports, s, hs, hr, hfinds ["m"] _ "f" _ false (.inl rfl) hentries.1,
    hfinds ["m", "n"] _ "C" _ true (.inr rfl) hentries.2, hhidden,
    fun path ns hx => hhides path ns _ hx _ hhidden⟩

end Sequence

end Session

end Scoping
