import Scoping.Proofs.Session.Instant

/-!
# The analysis of a unit is balanced

The passes over a unit are parts of one analysis (`Analysis.Passed`), each of which leaves the
activity of scopes as it was, withholds no members and does not abort. Hence a session goes from
unit to unit with all scopes left and all members given back (`Session.Balanced`).
-/

namespace Scoping

/-! ### The graph in which a session starts -/

namespace Graph

/-- No scope has been entered but the global one, and no symbol has a subtree. -/
structure Pristine (g : Graph) : Prop where
  usage : ∀ q, (g.scope q).usage = (initial.scope q).usage
  subtree? : ∀ x, (g.symbol x).subtree? = none

variable {g : Graph}

theorem Pristine.alloc (hg : g.Pristine) {s : Symbol} (hs : s.subtree? = none) :
    (g.alloc s).2.Pristine := by
  refine ⟨hg.usage, fun x => ?_⟩
  rw [symbol_alloc]
  split
  · exact hs
  · exact hg.subtree? x

theorem Pristine.declareManaged (hg : g.Pristine) (target : ScopeId) (x : SymbolId)
    (ns : Namespace) : (g.declareManaged target x ns).2.Pristine := by
  rw [declareManaged_eq]
  refine ⟨fun q => (usage_declare q).trans (hg.usage q), fun y => ?_⟩
  rw [symbol_declare_congr Symbol.subtree? fun _ _ _ _ => rfl, manage,
    symbol_modifySymbol_congr Symbol.subtree?, hg.subtree?]
  exact fun _ => rfl

end Graph

namespace Session

open Analysis

theorem pristine_start (config : Config) : (start config).graph.Pristine := by
  have hinitial : ∀ x, (Graph.initial.symbol x).subtree? = none := fun x => by
    rw [Graph.symbol_of_size_le (Nat.zero_le _)]
    rfl
  refine start_induction config (fun _ => ⟨fun _ => rfl, hinitial⟩) (fun _ => ?_)
    fun name hg => (hg.alloc rfl).declareManaged _ _ _
  rw [addRootObject_snd]
  refine Graph.Pristine.declareManaged ⟨fun q => .trans (Graph.scope_modifyScope_congr
    Scope.usage _ q ?_) (Graph.usage_allocType _ q), fun x => ?_⟩ _ _ _
  · exact fun _ => rfl
  · rw [Graph.symbol_modifyScope, Graph.symbol_allocType]
    split
    · rfl
    · exact hinitial x

/-! ### From unit to unit -/

/-- Notes that a tree comes with, if there are any, speak of scopes of the session. A tree as it is
parsed has no notes. -/
def Admits (s : Session) (t : Tree) : Prop :=
  ∀ id node q, t.node? id = some node → node.note.scope = some q → q.index < s.graph.scopes.size

/-- The session goes on with any number of units that it admits. -/
def Continues : Session → Session → Prop :=
  Relation.ReflTransGen fun s s' =>
    ∃ t report t', s.Admits t ∧ s.analyze t = .ok (report, t', s')

/-- Between units the graph is regular and all members are at hand. -/
structure Balanced (s : Session) : Prop extends s.Sound where
  regular : s.graph.Regular
  unrestricted : ∀ q, (s.graph.scope q).isRestricted = false

variable {s s' : Session} {t t' : Tree} {r : UnitReport}

theorem startable_opening (hs : s.Balanced) (ht : t.validate = .ok ()) (hadmits : s.Admits t) :
    (s.opening t).Startable s.environment where
  regular := hs.regular
  closed := Tree.closed_of_validate ht
  scope_lt hnode hq := hadmits _ _ _ hnode hq
  coherent := hs.coherent
  ready := hs.ready
  isUnit := Tree.root_of_validate ht
  running := rfl

/-- The analysis of a valid tree goes through all its passes. -/
theorem exists_passed_of_analyze (hs : s.Balanced) (ht : t.validate = .ok ())
    (hadmits : s.Admits t) (h : s.analyze t = .ok (r, t', s')) :
    ∃ unit a declared resolved bound,
      Passed s.environment (s.opening t) a unit declared resolved bound ∧
      r = report (some unit) a.log a.requests ∧ t' = a.tree ∧ s'.graph = a.graph := by
  obtain ⟨unit, a, hrun, hr, ht', rfl⟩ := run_of_analyze ht h
  obtain ⟨declared, resolved, bound, hpassed⟩ :=
    exists_passed (startable_opening hs ht hadmits) hrun
  exact ⟨unit, a, declared, resolved, bound, hpassed, hr, ht', rfl⟩

/-- One more unit leaves every scope that it has entered and keeps the session balanced. -/
theorem Balanced.keeps (hs : s.Balanced) (hadmits : s.Admits t)
    (h : s.analyze t = .ok (r, t', s')) :
    s'.Balanced ∧ ∀ q, (s'.graph.scope q).active = (s.graph.scope q).active := by
  have hsound : s'.Sound := Next.sound hs.toSound ⟨t, r, t', h⟩
  rcases analyze_cases h with ⟨fault, -, -, -, rfl⟩ | ⟨-, -, ht, -⟩
  · exact ⟨⟨hsound, hs.regular, hs.unrestricted⟩, fun _ => rfl⟩
  obtain ⟨unit, a, declared, resolved, bound, hpassed, -, -, hgraph⟩ :=
    exists_passed_of_analyze hs ht hadmits h
  have hunfolds := hpassed.unfolds
  rw [hgraph]
  refine ⟨⟨hsound, hgraph ▸ hunfolds.graph.regular hs.regular, fun q => ?_⟩, hunfolds.active⟩
  rw [hgraph]
  exact Bool.eq_false_iff.mpr fun hq =>
    Bool.eq_false_iff.mp (hs.unrestricted q) (hunfolds.restricted hq)

theorem Balanced.analyze (hs : s.Balanced) (hadmits : s.Admits t)
    (h : s.analyze t = .ok (r, t', s')) : s'.Balanced := (hs.keeps hadmits h).1

theorem balanced_start (config : Config) (reducer : Reducer) (loader : Loader) :
    (startWith config reducer loader).Balanced := by
  refine ⟨sound_of_reaches .refl, (orderly_start config).regular, fun q => ?_⟩
  obtain ⟨kind, active, hinitial⟩ := Graph.scope_initial q
  refine (congrArg Prod.snd ((pristine_start config).usage q)).trans ?_
  rw [hinitial]
  rfl

theorem balanced_of_continues {config : Config} {reducer : Reducer} {loader : Loader}
    (h : Continues (startWith config reducer loader) s) : s.Balanced := by
  induction h with
  | refl => exact balanced_start config reducer loader
  | tail _ hnext ih =>
    obtain ⟨t, report, t', hadmits, hanalyze⟩ := hnext
    exact ih.analyze hadmits hanalyze

/-- Between units no scope is active but the global one. -/
theorem active_of_continues {config : Config} {reducer : Reducer} {loader : Loader}
    (h : Continues (startWith config reducer loader) s) (q : ScopeId) :
    (s.graph.scope q).active = (Graph.initial.scope q).active := by
  induction h with
  | refl => exact congrArg Prod.fst ((pristine_start config).usage q)
  | tail hbefore hnext ih =>
    obtain ⟨t, report, t', hadmits, hanalyze⟩ := hnext
    rw [← ih]
    exact ((balanced_of_continues hbefore).keeps hadmits hanalyze).2 q

/-- The session admits each tree when its turn comes. -/
def AdmitsAll (s : Session) : List Tree → Prop
  | [] => True
  | t :: rest => s.Admits t ∧
    ∀ report t' next, s.analyze t = .ok (report, t', next) → next.AdmitsAll rest

theorem continues_of_analyzeAll {trees : List Tree} {reports : List UnitReport}
    (hadmits : s.AdmitsAll trees) (h : s.analyzeAll trees = .ok (reports, s')) :
    Continues s s' := by
  induction trees generalizing s reports with
  | nil =>
    cases h
    exact .refl
  | cons t trees ih =>
    obtain ⟨r, t', next, rest, hnext, hrest, -⟩ := analyzeAll_cons h
    exact .head ⟨t, r, t', hadmits.1, hnext⟩ (ih (hadmits.2 r t' next hnext) hrest)

/-- The analysis of a valid tree does not abort. It leaves every scope that it has entered and gives
back all the members that it has withheld: scopes are as active as before, new ones are not active,
and no members are withheld. -/
theorem analyze_balanced {config : Config} {reducer : Reducer} {loader : Loader}
    (hs : Continues (startWith config reducer loader) s) (ht : t.validate = .ok ())
    (hadmits : s.Admits t) (h : s.analyze t = .ok (r, t', s')) :
    r.aborted = false ∧
      (∀ q, q.index < s.graph.scopes.size →
        (s'.graph.scope q).active = (s.graph.scope q).active) ∧
      (∀ q, s.graph.scopes.size ≤ q.index → (s'.graph.scope q).active = 0) ∧
      ∀ q, (s'.graph.scope q).isRestricted = false := by
  have hbalanced := balanced_of_continues hs
  obtain ⟨unit, a, declared, resolved, bound, hpassed, rfl, -, hgraph⟩ :=
    exists_passed_of_analyze hbalanced ht hadmits h
  have hunfolds := hpassed.unfolds
  refine ⟨hunfolds.aborted, fun q _ => ?_, fun q hq => ?_,
    (hbalanced.analyze hadmits h).unrestricted⟩
  · rw [hgraph]
    exact hunfolds.active q
  · rw [hgraph, hunfolds.active q]
    exact congrArg Scope.active (Graph.scope_of_size_le hq)

/-! ### A call of the parent constructor -/

/-- Does the analysis of a unit come to an end, with the given outcome? -/
def yields (s : Session) (t : Tree) (outcome : UnitReport → Tree → Session → Bool) : Bool :=
  match s.analyze t with
  | .ok (r, t', s') => outcome r t' s'
  | .error _ => false

theorem exists_of_yields {outcome : UnitReport → Tree → Session → Bool}
    (h : s.yields t outcome = true) :
    ∃ r t' s', s.analyze t = .ok (r, t', s') ∧ outcome r t' s' = true := by
  unfold yields at h
  split at h
  next r t' s' hs => exact ⟨r, t', s', hs, h⟩
  next => cases h

theorem admits_of_all (h : t.nodes.toList.all (fun node => node.note.scope.isNone) = true) :
    s.Admits t := by
  intro id node q hnode hq
  have hnone := List.all_eq_true.mp h node (Array.mem_toList_iff.mpr (Array.mem_of_getElem? hnode))
  rw [hq] at hnone
  cases hnone

/-- A class with a constructor. -/
def baseClass : Tree :=
  { file := "a.phs"
    nodes := #[{ kind := .block [] },
      { kind := .fnDecl { role := .constructor, mods := [.visible], params := [{ name := "p" }],
                          body := some ⟨0⟩ } },
      { kind := .classDecl { name := "A", mods := [.visible], members := [⟨1⟩] } },
      { kind := .unit [⟨2⟩] }]
    root := ⟨3⟩ }

/-- A class in a module, whose constructor calls the one of its superclass. -/
def derivedClass : Tree :=
  { file := "b.phs"
    nodes := #[{ kind := .super }, { kind := .literal (.int 1) }, { kind := .call ⟨0⟩ [⟨1⟩] },
      { kind := .exprStmt ⟨2⟩ }, { kind := .block [⟨3⟩] },
      { kind := .fnDecl { role := .constructor, mods := [.visible], body := some ⟨4⟩ } },
      { kind := .classDecl { name := "B", super := some (.single "A"), members := [⟨5⟩] } },
      { kind := .moduleDecl (some (.single "m")) [⟨6⟩] }, { kind := .unit [⟨7⟩] }]
    root := ⟨8⟩ }

/-- Unit, module and class are entered and left, and the members of the class are withheld in the
arguments of the call and given back. -/
theorem analyze_balanced_derivedClass :
    ∃ s r t' s', Continues (start {}) s ∧ s.analyze derivedClass = .ok (r, t', s') ∧
      r.canGenerate = true ∧ r.aborted = false ∧
      (∀ q, q.index < s.graph.scopes.size →
        (s'.graph.scope q).active = (s.graph.scope q).active) ∧
      (∀ q, s.graph.scopes.size ≤ q.index → (s'.graph.scope q).active = 0) ∧
      ∀ q, (s'.graph.scope q).isRestricted = false := by
  have hend : (start {}).yields baseClass (fun _ _ s =>
      s.yields derivedClass fun r _ _ => r.canGenerate) = true := by decide +kernel
  obtain ⟨r₁, t₁, s, hbase, hrest⟩ := exists_of_yields hend
  obtain ⟨r, t', s', hderived, hr⟩ := exists_of_yields hrest
  have hs : Continues (startWith {} Reduce.node (.counting [])) s :=
    .single ⟨baseClass, r₁, t₁, admits_of_all (by decide), hbase⟩
  exact ⟨s, r, t', s', hs, hderived, hr,
    analyze_balanced hs (by rfl) (admits_of_all (by decide)) hderived⟩

end Session

end Scoping
