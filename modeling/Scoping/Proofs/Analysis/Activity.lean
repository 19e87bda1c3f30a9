import Scoping.Proofs.Analysis.Rest

/-!
# Resolving types while other scopes are active

Resolving a type looks up the names of its relatives, and the answers depend on the scopes that are
active. `Hierarchy.resolveType_consistent` says that a type is resolved in the same way while more
scopes are active, in runs in which no private symbol is refused and no path leads through a
private import of one of these scopes.
-/

namespace Scoping

namespace Hierarchy

open Analysis

variable {names : Set String} {P : Prop} {resolve : SymbolId → AnalysisM Unit}

section

variable (hresolve : ∀ x, Consistent names P (resolve x))

include hresolve

theorem requireType_consistent (start : ScopeId) (expected : SymbolKind) (ref : TypeRef) :
    Consistent names (P ∧ ∀ name ∈ ref.path.waypoints, name ∈ names)
      (requireType resolve start expected ref) := by
  refine .lookupPath_bind (fun result => .currentGraph_bind (fun _ => rfl) fun g => ?_) ?_
  · split
    · exact .bind (hresolve _) fun _ => .pure _
    · exact .bind (.report _ _) fun _ => .pure none
  · exact fun _ s => s.log.count_lt_count_problem (.hiddenType expected ref.path) ref.span

theorem requireSuper_consistent (env : Environment) (start : ScopeId) (x : SymbolId)
    (super : Option TypeRef) :
    Consistent names (P ∧ ∀ ref ∈ super, ∀ name ∈ ref.path.waypoints, name ∈ names)
      (requireSuper env resolve start x super) := by
  cases super with
  | none => exact .pure _
  | some ref =>
    refine .bind (.weaken ?_ (requireType_consistent hresolve start .cls ref)) fun target => ?_
    · exact fun hp => ⟨hp.1, hp.2 ref rfl⟩
    · cases target with
      | none => exact .pure _
      | some super =>
        exact .symbol_bind fun _ =>
          .optionally (.reportWithPrevious _ _ _ _) fun _ => .pure _

theorem linkInterfaces_consistent (start : ScopeId) {link : Nat → SymbolId → Graph → Graph}
    (hlink : ∀ index target, Consistent names P (modifyGraph (link index target)))
    (refs : List TypeRef) :
    Consistent names (P ∧ ∀ ref ∈ refs, ∀ name ∈ ref.path.waypoints, name ∈ names)
      (linkInterfaces resolve start link refs) := by
  refine .forM fun item hitem => ?_
  have hmem := List.fst_mem_of_mem_zipIdx hitem
  refine .bind (.weaken ?_ (requireType_consistent hresolve start .iface item.1)) fun target => ?_
  · exact fun hp => ⟨hp.1, hp.2 item.1 hmem⟩
  · cases target with
    | none => exact .pure ()
    | some target => exact (hlink _ _).weaken And.left

theorem applyTraits_consistent (host : SymbolId) (start : ScopeId) (usages : List TraitUsage) :
    Consistent names (P ∧ ∀ usage ∈ usages, ∀ name ∈ usage.trait.path.waypoints, name ∈ names)
      (applyTraits resolve host start usages) := by
  refine .forM fun usage husage => ?_
  refine .bind (.weaken ?_ (requireType_consistent hresolve start .trait usage.trait))
    fun target => ?_
  · exact fun hp => ⟨hp.1, hp.2 usage husage⟩
  · cases target with
    | none => exact .pure ()
    | some trait => exact flatten_consistent host trait usage

end

/-- Sets the target of a hint that has none yet. -/
def setHint (path : String) (target : SymbolId) (v : VariableData) : VariableData :=
  if v.hint = some (.named path none) then { v with hint := some (.named path (some target)) }
  else v

theorem waypoints_setHint (path : String) (target : SymbolId) (data : SymbolData) :
    (data.mapVar (setHint path target)).waypoints = data.waypoints := by
  cases data with
  | var v =>
    by_cases hv : v.hint = some (.named path none)
    · simp [SymbolData.mapVar, setHint, SymbolData.waypoints, SymbolData.paths, hv]
    · rw [SymbolData.mapVar, setHint, if_neg hv]
  | _ => rfl

theorem data_eq_of_var? {s : Symbol} {v : VariableData} (h : s.var? = some v) :
    s.data = .var v := by
  unfold Symbol.var? at h
  split at h
  · rename_i hdata
    rw [hdata, Option.some.inj h]
  · nomatch h

/-- The hint that gets a target is the one that has been looked up. -/
theorem resolveHint_eq (scope : ScopeId) (param : SymbolId) : resolveHint scope param = (do
    let symbol ← symbol param
    match symbol.var?.bind (·.hint) with
    | some (.named path none) =>
      match ← onGraph (·.lookupPath scope (QualName.parse path) .type) with
      | .found target => modifyGraph (·.modifyData param (·.mapVar (setHint path target)))
      | .hidden _ => report symbol.span (.hiddenHint path)
      | _ => report symbol.span (.unknownHint path)
    | _ => pure ()) := by
  funext s
  have hread : ∀ k : Symbol → AnalysisM Unit, (symbol param >>= k) s = k (s.graph.symbol param) s :=
    fun _ => rfl
  rw [resolveHint, hread, hread]
  cases hhint : (s.graph.symbol param).var?.bind (·.hint) with
  | none => rfl
  | some hint =>
    cases hint with
    | builtin => rfl
    | named path target =>
      cases target with
      | some => rfl
      | none =>
        have hlookup : ∀ k : Lookup → AnalysisM Unit,
            (onGraph (·.lookupPath scope (QualName.parse path) .type) >>= k) s =
              k (s.graph.lookupPath scope (QualName.parse path) .type).1
                { s with graph := (s.graph.lookupPath scope (QualName.parse path) .type).2 } :=
          fun _ => rfl
        dsimp only
        rw [hlookup, hlookup]
        cases (s.graph.lookupPath scope (QualName.parse path) .type).1 with
        | found target =>
          obtain ⟨v, hv, hnamed⟩ := Option.bind_eq_some_iff.mp hhint
          refine congrArg (fun graph => EStateM.Result.ok () { s with graph })
            (Graph.modifyData_congr ?_)
          rw [Graph.data_lookupPath, data_eq_of_var? hv]
          simp only [SymbolData.mapVar, setHint, hnamed, if_true]
        | _ => rfl

theorem resolveHint_consistent (scope : ScopeId) (param : SymbolId) :
    Consistent names P (resolveHint scope param) := by
  rw [resolveHint_eq]
  refine .symbol_bind fun symbol => ?_
  split
  · rename_i path hhint
    obtain ⟨v, hv, hnamed⟩ := Option.bind_eq_some_iff.mp hhint
    have hpath : ∀ name ∈ (QualName.parse path).waypoints, name ∈ symbol.data.waypoints := by
      simp [data_eq_of_var? hv, SymbolData.waypoints, SymbolData.paths, hnamed]
    refine .weaken (fun hp => ⟨hp.1, fun name hname => hp.2 name (hpath name hname)⟩)
      (.lookupPath_bind (fun result => ?_) ?_)
    · split
      · exact .modifyGraph (fun _ => rfl) fun _ => .modifyData .refl (waypoints_setHint path _)
      all_goals exact .report _ _
    · exact fun _ s => s.log.count_lt_count_problem (.hiddenHint path) symbol.span
  · exact .pure ()

theorem resolveHints_consistent (scope : ScopeId) (function : SymbolId) :
    Consistent names P (resolveHints scope function) := by
  refine .symbol_bind fun symbol => ?_
  split
  · exact .forM fun param _ => resolveHint_consistent scope param
  · exact .pure ()

theorem resolveMemberHints_consistent (host : SymbolId) :
    Consistent names P (resolveMemberHints host) := by
  refine .currentGraph_bind (fun g => by simp only [Graph.membersOf?_veiled,
    Graph.memberFunctions_veiled]) fun g => ?_
  split
  · exact .forM fun function _ => resolveHints_consistent _ function
  · exact .pure ()

/-- Setting the target of an interface of a class. -/
theorem linkClassInterface_consistent (x : SymbolId) (index : Nat) (target : SymbolId) :
    Consistent names P (modifyGraph fun g => g.modifyData x (·.mapClass fun d =>
      { d with interfaces := setTarget d.interfaces index target })) := by
  refine .modifyGraph (fun _ => rfl) fun _ => .modifyData .refl fun data => ?_
  cases data with
  | cls data =>
    simp [SymbolData.mapClass, SymbolData.waypoints, SymbolData.paths,
      Graph.map_setTarget TypeRef.path fun _ => rfl]
  | _ => rfl

theorem linkInterface_consistent (x : SymbolId) (index : Nat) (target : SymbolId) :
    Consistent names P (modifyGraph fun g => g.modifyData x (·.mapInterface fun d =>
      { d with interfaces := setTarget d.interfaces index target })) := by
  refine .modifyGraph (fun _ => rfl) fun _ => .modifyData .refl fun data => ?_
  cases data with
  | iface data =>
    simp [SymbolData.mapInterface, SymbolData.waypoints, SymbolData.paths,
      Graph.map_setTarget TypeRef.path fun _ => rfl]
  | _ => rfl

section

variable (hresolve : ∀ x, Consistent names P (resolve x))

include hresolve

/-- Resolving a class asks for no names but those that it writes down. -/
theorem resolveClass_consistent (env : Environment) (x : SymbolId) (data : ClassData) :
    Consistent names (P ∧ ∀ name ∈ (SymbolData.cls data).waypoints, name ∈ names)
      (resolveClass env resolve x data) := by
  refine .currentGraph_bind (fun g => by rw [Graph.declaringScope_veiled]) fun g => ?_
  have hrest : Consistent names (P ∧ ∀ name ∈ (SymbolData.cls data).waypoints, name ∈ names) (do
      linkInterfaces resolve (declaringScope g x)
        (fun index target g => g.modifyData x (·.mapClass fun d =>
          { d with interfaces := setTarget d.interfaces index target })) data.interfaces
      applyTraits resolve x (declaringScope g x) data.traits
      resolveMemberHints x
      markAbstract x
      verifyContracts env x) := by
    refine .bind (.weaken ?_ (linkInterfaces_consistent hresolve _
      (linkClassInterface_consistent x) data.interfaces)) fun _ => ?_
    · refine fun hp => ⟨hp.1, fun ref href name hname => hp.2 name ?_⟩
      refine SymbolData.mem_waypoints ?_ hname
      exact List.mem_append_left _ (List.mem_map_of_mem (List.mem_append_right _ href))
    refine .bind (.weaken ?_ (applyTraits_consistent hresolve x _ data.traits)) fun _ => ?_
    · refine fun hp => ⟨hp.1, fun usage husage name hname => hp.2 name ?_⟩
      refine SymbolData.mem_waypoints ?_ hname
      exact List.mem_append_right _ (List.mem_map_of_mem husage)
    exact .bind (resolveMemberHints_consistent x) fun _ =>
      .bind (markAbstract_consistent x) fun _ => verifyContracts_consistent env x
  refine .bind (.weaken ?_ (requireSuper_consistent hresolve env _ x data.super)) fun super => ?_
  · refine fun hp => ⟨hp.1, fun ref href name hname => hp.2 name ?_⟩
    refine SymbolData.mem_waypoints ?_ hname
    exact List.mem_append_left _ (List.mem_map_of_mem
      (List.mem_append_left _ (Option.mem_toList.mpr href)))
  · cases super with
    | none => exact hrest
    | some super =>
      refine .bind (.modifyGraph (fun g => ?_) fun g => ?_) fun _ => hrest
      · exact Graph.veiled_linkSuper x data.members super
      · exact .linkSuper x data.members super

theorem resolveTrait_consistent (x : SymbolId) (data : TraitData) :
    Consistent names (P ∧ ∀ name ∈ (SymbolData.trait data).waypoints, name ∈ names)
      (resolveTrait resolve x data) := by
  refine .currentGraph_bind (fun g => by rw [Graph.declaringScope_veiled]) fun g => ?_
  refine .bind (.weaken ?_ (applyTraits_consistent hresolve x _ data.traits)) fun _ =>
    resolveMemberHints_consistent x
  refine fun hp => ⟨hp.1, fun usage husage name hname => hp.2 name ?_⟩
  refine SymbolData.mem_waypoints ?_ hname
  exact List.mem_map_of_mem husage

theorem resolveInterface_consistent (x : SymbolId) (data : InterfaceData) :
    Consistent names (P ∧ ∀ name ∈ (SymbolData.iface data).waypoints, name ∈ names)
      (resolveInterface resolve x data) := by
  refine .currentGraph_bind (fun g => by rw [Graph.declaringScope_veiled]) fun g => ?_
  refine .bind (.weaken ?_ (linkInterfaces_consistent hresolve _
    (linkInterface_consistent x) data.interfaces)) fun _ => resolveMemberHints_consistent x
  refine fun hp => ⟨hp.1, fun ref href name hname => hp.2 name ?_⟩
  refine SymbolData.mem_waypoints ?_ hname
  exact List.mem_map_of_mem href

theorem resolveStep_consistent (env : Environment) (x : SymbolId) :
    Consistent names P (resolveStep env resolve x) := by
  refine .symbol_bind fun symbol => .ite ?_ (.pure ())
  refine .bind (setResolution_consistent x .resolving) fun _ => ?_
  have hdone : Consistent names (P ∧ ∀ name ∈ symbol.data.waypoints, name ∈ names)
      (setResolution x .resolved) := setResolution_consistent x .resolved
  split
  · rename_i data hdata
    rw [hdata] at hdone ⊢
    exact .bind (resolveClass_consistent hresolve env x data) fun _ => hdone
  · rename_i data hdata
    rw [hdata] at hdone ⊢
    exact .bind (resolveTrait_consistent hresolve x data) fun _ => hdone
  · rename_i data hdata
    rw [hdata] at hdone ⊢
    exact .bind (resolveInterface_consistent hresolve x data) fun _ => hdone
  · exact hdone

end

theorem resolveWithin_consistent (env : Environment) (fuel : Nat) :
    ∀ x, Consistent names P (resolveWithin env fuel x) := by
  induction fuel with
  | zero => exact fun _ => .throw .exhausted
  | succ fuel ih => exact resolveStep_consistent ih env

/-- A type is resolved in the same way while more scopes are active. -/
theorem resolveType_consistent (env : Environment) (x : SymbolId) :
    Consistent names P (resolveType env x) :=
  .get_bind (fun _ => rfl) fun _ => resolveWithin_consistent env _ x

end Hierarchy

end Scoping
