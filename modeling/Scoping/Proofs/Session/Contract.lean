import Scoping.Proofs.Session.Activity
import Scoping.Proofs.Session.Instant

/-!
# Contracts of classes

A class that is resolved and turns out not to be abstract has implemented all that it owes
(`Session.implements_of_resolve`). Conversely, the checks of a class accept it if no function of its
own is abstract and for every function that it owes the nearest member of the same name fits. The
nearest member is searched for in tables only, though: a constructor, destructor or accessor that an
interface asks for is found only if there is a plain function of the same name
(`Session.accepted_iff`).
-/

namespace Scoping

namespace Graph

/-! ### The nearest member -/

/-- The part that a function plays. -/
def roleOf (g : Graph) (f : SymbolId) : Role := ((g.symbol f).fn?.map (·.role)).getD .plain

/-- The first symbol in the slot for a role and a name from a member scope upward, trying at most
`fuel` scopes. -/
def slotFrom? (g : Graph) (role : Role) (name : String) : Nat → Option ScopeId → Option SymbolId
  | 0, _ => none
  | _ + 1, none => none
  | fuel + 1, some scope =>
    g.slot? scope role name <|> g.slotFrom? role name fuel (g.superScope? scope)

/-- The nearest member of a class with the name and the part of a function, own or inherited: plain
functions are searched for in tables, the others in slots. -/
def nearest? (g : Graph) (c f : SymbolId) : Option SymbolId :=
  if g.roleOf f = .plain then g.implementation? c (g.symbol f).name
  else g.slotFrom? (g.roleOf f) (g.symbol f).name (g.scopes.size + 1) (g.membersOf? c)

/-- The nearest member of the name and part of `f` is a function that is not abstract and fits. -/
def Provides (g : Graph) (c f : SymbolId) : Prop :=
  ∃ i, g.nearest? c f = some i ∧ g.isAbstract i = false ∧ g.Fits f i

end Graph

namespace Session

open Hierarchy

variable {config : Config} {reducer : Reducer} {loader : Loader} {σ : Session}
  {s before s' : Analysis} {c : SymbolId} {fuel : Nat} {data : ClassData}

/-! ### The graph in which a class is checked -/

/-- What is known about the graph in which the class `c` is checked. -/
structure Checkable (σ : Session) (c : SymbolId) (g g₁ : Graph) : Prop where
  regular : g₁.Regular
  coherent : g₁.Coherent
  resident : g₁.Resident
  root : ∀ r, σ.rootObject = some r → (g₁.symbol r).kind = .cls
  kind : (g₁.symbol c).kind = .cls
  resolving : (g₁.symbol c).data.resolution? = some .resolving
  isAbstract : g₁.isAbstract c = g.isAbstract c
  isForeign : (g₁.symbol c).flags.isForeign = (g.symbol c).flags.isForeign

/-- The relatives of a class are resolved and linked in an orderly graph, and nothing about the
class itself has been decided. -/
theorem checkable_of_resolving (hσ : Reaches (startWith config reducer loader) σ)
    (hs : σ.Instant s.graph) (hdata : (s.graph.symbol c).data = .cls data)
    (hopen : data.resolution = .unresolved)
    (h : Resolving σ.environment fuel c data s before s') :
    σ.Checkable c s.graph before.graph := by
  have hsound := sound_of_reaches hσ
  have horderly := orderly_of_reaches hσ
  have hg := hs.coherent hsound
  have hunresolved : (s.graph.symbol c).data.resolution? = some .unresolved := by
    rw [hdata, SymbolData.resolution?, hopen]
  have hmembers : (s.graph.symbol c).members? = some data.members := by
    rw [Symbol.members?, hdata]
    rfl
  have hlt := Graph.lt_size_of_members? hmembers
  -- the class is marked as being resolved, and then its relatives are resolved and linked
  have helaborates : Graph.Elaborates False (∅ : Set SymbolId)ᶜ
      (fun id => False → id.index < s.tree.size) s.graph
      (s.graph.modifyData c (·.setResolution .resolving)) :=
    .resolve (Set.notMem_empty c) (by rw [hunresolved]; decide) fun hr => by cases hr
  have hbegin := Analysis.Onward.of_elaborates hg False.elim helaborates
  have hresolve : Resolves (.bare σ.environment) (resolveWithin σ.environment fuel) :=
    resolveWithin_resolves fuel
  have hhosted := hosted_resolving (hs.ready hsound) hbegin rfl hmembers hunresolved
  obtain ⟨hchanges, -⟩ := (prepareClass_obeys hresolve (.inl rfl) hhosted).ok
    (Analysis.proper_bare hbegin.after.1) h.prepare
  have hrest := hchanges.onward hbegin.after.1 False.elim
  have hall := hbegin.edits.trans (hrest.edits.mono fun x _ hx => Set.notMem_empty x hx)
  have hlt' : c.index < (s.graph.modifyData c (·.setResolution .resolving)).symbols.size := by
    rwa [Graph.modifyData, Graph.size_symbols_modifySymbol]
  refine ⟨Graph.Edits.regular (hs.regular horderly) hall, hrest.after.1,
    hrest.steps.resident hbegin.after.1 (hbegin.steps.resident hg (hs.moment.resident hσ)),
    fun r hr => ?_,
    ?_, (hhosted.onward hrest).resolving c (.inl rfl), ?_, ?_⟩
  · exact Graph.Edits.kind_eq hall ((hs.ready hsound).root r hr).2 (by decide)
  · exact Graph.Edits.kind_eq hall (by rw [Symbol.kind, hdata]; rfl) (by decide)
  · rw [(hrest.edits.apart hlt' fun hnot => absurd (.inl rfl) hnot).2]
    exact Graph.symbol_modifySymbol_congr (fun s => s.flags.isAbstract) _ _ fun _ => rfl
  · exact Graph.Edits.isForeign_eq hall hlt

namespace Checkable

variable {g g₁ : Graph} (h : σ.Checkable c g g₁)

include h

theorem lt_size : c.index < g₁.symbols.size :=
  Graph.lt_size_of_symbol_kind h.kind (by decide)

/-- A class that is not abstract leaves nothing that it owes if it implements all of it. -/
theorem leavesUnmet_eq_false_iff (habstract : g₁.isAbstract c = false) :
    leavesUnmet σ.environment g₁ c = false ↔
      ∀ f, g₁.Owes σ.rootObject c f → g₁.Implements c f := by
  have hmem := fun f => Graph.mem_obligations_iff (f := f) h.regular h.root h.kind habstract
  rw [leavesUnmet, List.any_eq_false]
  constructor
  · intro hall f hf
    have hmet : g₁.standing c f = .met := by simpa using hall f ((hmem f).mpr hf)
    exact (Graph.standing_eq_met_iff h.regular hf.kind).mp hmet
  · intro hall f hf
    have howes := (hmem f).mp hf
    have hmet := (Graph.standing_eq_met_iff h.regular howes.kind).mpr (hall f howes)
    simpa using hmet

/-- A plain function that fits and is nearest is an implementation, since it is another one. -/
theorem implements_of_provides {f : SymbolId} (hrole : g₁.roleOf f = .plain)
    (hf : g₁.Owes σ.rootObject c f) (hprovides : g₁.Provides c f) : g₁.Implements c f := by
  obtain ⟨i, hi, habstract, hfits⟩ := hprovides
  rw [Graph.nearest?, if_pos hrole] at hi
  refine ⟨i, hi, ?_, habstract, hfits⟩
  rintro rfl
  cases hf with
  | @interface a j k _ hj hjk hf =>
    have hkind : (g₁.symbol k).kind = .iface := by
      clear hf
      induction hjk with
      | refl => exact h.regular.interfaces hj
      | tail _ hstep _ => exact h.regular.interfaces (Graph.superInterfaces_subset _ hstep)
    exact Graph.implementation?_ne h.coherent h.resident h.regular h.kind hkind hf hi
  | ancestor _ _ hmarked =>
    rw [habstract] at hmarked
    cases hmarked

end Checkable

section Finish

variable {g : Graph} (hres : Resolving σ.environment fuel c data s before s')

include hres

theorem isAbstract_finish :
    s'.graph.isAbstract c = (checked σ.environment before.graph c).isAbstract c := by
  rw [hres.finish]
  exact Graph.symbol_modifySymbol_congr (fun s => s.flags.isAbstract) _ _ fun _ => rfl

theorem isForeign_finish :
    (s'.graph.symbol c).flags.isForeign = (before.graph.symbol c).flags.isForeign := by
  have hchecked : ((checked σ.environment before.graph c).symbol c).flags.isForeign =
      (before.graph.symbol c).flags.isForeign := by
    unfold checked
    split
    · rfl
    · rw [isForeign_abstracted, isForeign_abstracted]
  rw [hres.finish, ← hchecked]
  exact Graph.symbol_modifySymbol_congr (fun s => s.flags.isForeign) _ _ fun _ => rfl

variable (h : σ.Checkable c g before.graph)

include h

/-- A class that is not foreign is not abstract in the end if it was not, has no abstract function
and leaves nothing that it owes. -/
theorem isAbstract_finish_iff (hforeign : (s'.graph.symbol c).flags.isForeign = false) :
    s'.graph.isAbstract c = false ↔ before.graph.isAbstract c = false ∧
      hasAbstract before.graph c = false ∧ leavesUnmet σ.environment before.graph c = false := by
  rw [isForeign_finish hres] at hforeign
  rw [isAbstract_finish hres]
  exact isAbstract_checked_iff h.lt_size hforeign

/-- Then nothing but the stage of its resolution has changed. -/
theorem concur_finish (hforeign : (s'.graph.symbol c).flags.isForeign = false)
    (habstract : s'.graph.isAbstract c = false) :
    Graph.Concur σ.rootObject .univ before.graph s'.graph := by
  obtain ⟨hbefore, hown, hmet⟩ := (isAbstract_finish_iff hres h hforeign).mp habstract
  rw [hres.finish, (checked_eq_self hbefore hown hmet).1]
  exact Graph.concur_setResolution h.regular _ _ _

/-- The graph that results is as orderly as the one that was checked. -/
theorem orderly_finish :
    s'.graph.Regular ∧ (∀ r, σ.rootObject = some r → (s'.graph.symbol r).kind = .cls) ∧
      (s'.graph.symbol c).kind = .cls := by
  have hopen : (before.graph.symbol c).data.resolution? ≠ some .resolved := by
    rw [h.resolving]
    exact nofun
  have hconclude : Analysis.Onward False .univ before (before.concluded σ.environment c) :=
    .conclude (Set.mem_univ c) h.coherent False.elim hopen
  have hall : Graph.Edits .univ before.graph s'.graph := by
    rw [hres.finish]
    exact hconclude.edits
  exact ⟨hall.regular h.regular, fun r hr => hall.kind_eq (h.root r hr) (by decide),
    hall.kind_eq h.kind (by decide)⟩

end Finish

/-! ### Soundness -/

/-- A class that has been resolved and is neither abstract nor foreign implements, in the graph that
results, every function that it owes there. The bound on the chain of relatives is arbitrary, so
this is about every call of `resolveType` and about all those inside of it. -/
theorem implements_of_resolve (hσ : Reaches (startWith config reducer loader) σ)
    (hs : σ.Instant s.graph) (hdata : (s.graph.symbol c).data = .cls data)
    (hopen : data.resolution = .unresolved)
    (hrun : resolveWithin σ.environment fuel c s = .ok () s')
    (habstract : s'.graph.isAbstract c = false)
    (hforeign : (s'.graph.symbol c).flags.isForeign = false) {f : SymbolId}
    (hf : s'.graph.Owes σ.rootObject c f) : s'.graph.Implements c f := by
  obtain ⟨before, h⟩ := exists_resolving hdata hopen hrun
  have hcheck := checkable_of_resolving hσ hs hdata hopen h
  obtain ⟨-, -, hmet⟩ := (isAbstract_finish_iff h hcheck hforeign).mp habstract
  have hconcur := concur_finish h hcheck hforeign habstract
  obtain ⟨hregular, hroot, hkind⟩ := orderly_finish h hcheck
  have hmem : f ∈ before.graph.obligations σ.rootObject c := by
    rw [← hconcur.obligations_eq (Set.mem_univ c)]
    exact (Graph.mem_obligations_iff hregular hroot hkind habstract).mpr hf
  have hstanding : s'.graph.standing c f = .met := by
    have hfunction := hconcur.exists_of_mem_obligations (Set.mem_univ c) hmem
    rw [hconcur.standing_eq hcheck.coherent rfl (Set.mem_univ c) hfunction]
    simpa using List.any_eq_false.mp hmet f hmem
  exact (Graph.standing_eq_met_iff hregular hf.kind).mp hstanding

/-- A class that implements an interface through an abstract class above it, with a getter, a hint
and a function that the abstract class only announces. -/
def metContract : Tree :=
  { file := "a.phs"
    nodes := #[{ kind := .classDecl { name := "K" } },
      { kind := .fnDecl { name := some "f",
                          params := [{ name := "p", hint := some (.named (.single "K")) }] } },
      { kind := .interfaceDecl { name := "I", members := [⟨1⟩] } },
      { kind := .fnDecl { name := some "x", role := .getter } },
      { kind := .interfaceDecl { name := "J", supers := [.single "I"], members := [⟨3⟩] } },
      { kind := .fnDecl { name := some "h", mods := [.visible] } },
      { kind := .classDecl { name := "A", implements := [.single "J"], members := [⟨5⟩] } },
      { kind := .block [] },
      { kind := .fnDecl { name := some "f", mods := [.visible], body := some ⟨7⟩,
                          params := [{ name := "q", hint := some (.named (.single "K")) }] } },
      { kind := .block [] },
      { kind := .fnDecl { name := some "x", role := .getter, mods := [.visible],
                          body := some ⟨9⟩ } },
      { kind := .block [] },
      { kind := .fnDecl { name := some "x", mods := [.visible], body := some ⟨11⟩ } },
      { kind := .block [] },
      { kind := .fnDecl { name := some "h", mods := [.visible], body := some ⟨13⟩ } },
      { kind := .classDecl { name := "C", super := some (.single "A"),
                             members := [⟨8⟩, ⟨10⟩, ⟨12⟩, ⟨14⟩] } },
      { kind := .unit [⟨15⟩, ⟨6⟩, ⟨4⟩, ⟨2⟩, ⟨0⟩] }]
    root := ⟨16⟩ }

/-- Can the class `c` of a unit be resolved, with the given outcome? -/
def resolvesWith (t : Tree) (c : SymbolId) (outcome : Analysis → Analysis → Bool) : Bool :=
  (collected t).any fun s =>
    match resolveType {} c s with
    | .ok _ s' => outcome s s'
    | .error _ _ => false

theorem exists_of_elaboratesWith {t : Tree} {outcome : Analysis → Analysis → Bool}
    (h : resolvesWith t c outcome = true) :
    ∃ s s', collected t = some s ∧ (start {}).Instant s.graph ∧
      resolveType {} c s = .ok () s' ∧ outcome s s' = true := by
  obtain ⟨s, hs, h⟩ := (Option.any_eq_true _ _).mp h
  have hinstant : (start {}).Instant s.graph := by
    unfold collected at hs
    split at hs
    next unit a hunit =>
      cases hs
      exact instant_entered (sound_of_reaches reaches_start) hunit
    next => cases hs
  split at h
  next _ s' hrun => exact ⟨s, s', hs, hinstant, hrun, h⟩
  next => cases h

theorem implements_metContract :
    ∃ s s', collected metContract = some s ∧ resolveType {} ⟨0⟩ s = .ok () s' ∧
      s'.graph.isAbstract ⟨0⟩ = false ∧ (s'.graph.symbol ⟨0⟩).flags.isForeign = false ∧
      s'.graph.Owes none ⟨0⟩ ⟨11⟩ ∧ s'.graph.Implements ⟨0⟩ ⟨11⟩ := by
  have hend : resolvesWith metContract ⟨0⟩ (fun s s' => decide (
      (s.graph.symbol ⟨0⟩).class?.map (·.resolution) = some .unresolved ∧
      s'.graph.isAbstract ⟨0⟩ = false ∧ (s'.graph.symbol ⟨0⟩).flags.isForeign = false ∧
      (s'.graph.superclass? none ⟨0⟩ = some ⟨6⟩ ∧ s'.graph.isAbstract ⟨6⟩ = true) ∧
      ⟨8⟩ ∈ (s'.graph.symbol ⟨6⟩).interfaces ∧ ⟨10⟩ ∈ s'.graph.superInterfaces ⟨8⟩ ∧
      ⟨11⟩ ∈ s'.graph.memberFunctions ⟨10⟩)) = true := by
    decide +kernel
  obtain ⟨s, s', hs, hinstant, hrun, h⟩ := exists_of_elaboratesWith hend
  obtain ⟨hopen, habstract, hforeign, htopped, hinterface, hrefines, hf⟩ := of_decide_eq_true h
  obtain ⟨data, hdata, hopen⟩ := Option.map_eq_some_iff.mp hopen
  have howes : s'.graph.Owes none ⟨0⟩ ⟨11⟩ :=
    .interface (.single htopped) hinterface (.single hrefines) hf
  exact ⟨s, s', hs, hrun, habstract, hforeign, howes,
    implements_of_resolve reaches_start hinstant (Graph.class?_eq_some hdata) hopen hrun habstract
      hforeign howes⟩

/-! ### Completeness -/

/-- A class for which the nearest member of every function that it owes fits is accepted, without a
report, exactly if no function of its own is abstract and every constructor, destructor and accessor
that it owes has a plain function of its name that fits. -/
theorem accepted_iff (hσ : Reaches (startWith config reducer loader) σ)
    (hs : σ.Instant s.graph) (hdata : (s.graph.symbol c).data = .cls data)
    (hopen : data.resolution = .unresolved)
    (hforeign : (s.graph.symbol c).flags.isForeign = false)
    (hdeclared : s.graph.isAbstract c = false)
    (hrun : resolveWithin σ.environment fuel c s = .ok () s') :
    ∃ before, Resolving σ.environment (fuel - 1) c data s before s' ∧
      ((∀ f, before.graph.Owes σ.rootObject c f → before.graph.Provides c f) →
        (s'.graph.isAbstract c = false ∧ s'.log = before.log ↔
          (∀ f ∈ before.graph.memberFunctions c, before.graph.isAbstract f = false) ∧
          ∀ f, before.graph.Owes σ.rootObject c f → before.graph.roleOf f ≠ .plain →
            before.graph.Implements c f)) := by
  obtain ⟨before, h⟩ := exists_resolving hdata hopen hrun
  have hcheck := checkable_of_resolving hσ hs hdata hopen h
  have hbefore : before.graph.isAbstract c = false := hcheck.isAbstract.trans hdeclared
  have hforeign' : (s'.graph.symbol c).flags.isForeign = false := by
    rw [isForeign_finish h, hcheck.isForeign, hforeign]
  have hown : hasAbstract before.graph c = false ↔
      ∀ f ∈ before.graph.memberFunctions c, before.graph.isAbstract f = false := by
    rw [hasAbstract, List.any_eq_false]
    simp only [Bool.not_eq_true]
  refine ⟨before, h, fun hprovides => ?_⟩
  rw [isAbstract_finish_iff h hcheck hforeign', hcheck.leavesUnmet_eq_false_iff hbefore, ← hown]
  constructor
  · rintro ⟨⟨-, howned, hall⟩, -⟩
    exact ⟨howned, fun f hf _ => hall f hf⟩
  · rintro ⟨howned, hslots⟩
    have hall : ∀ f, before.graph.Owes σ.rootObject c f → before.graph.Implements c f := by
      intro f hf
      by_cases hrole : before.graph.roleOf f = .plain
      · exact hcheck.implements_of_provides hrole hf (hprovides f hf)
      · exact hslots f hf hrole
    refine ⟨⟨hbefore, howned, hall⟩, ?_⟩
    have hmet := (hcheck.leavesUnmet_eq_false_iff hbefore).mpr hall
    rw [h.finish, (checked_eq_self hbefore howned hmet).2]
    exact Log.extend_nil _

/-- The state in which a class is checked, all its relatives being linked. -/
def checkpoint (s : Analysis) (c : SymbolId) (data : ClassData) : Analysis :=
  Analysis.endOf (prepareClass {} (resolveWithin {} (s.budget - 1)) c data
    { s with graph := s.graph.modifyData c (·.setResolution .resolving) })

/-- Is the nearest member of every function that a class owes one that fits? -/
def providesAll (g : Graph) (c : SymbolId) : Bool :=
  (g.obligations none c).all fun f => (g.nearest? c f).any fun i =>
    !g.isAbstract i && (g.mismatch? f i).isNone

theorem Checkable.provides {g g₁ : Graph} (h : (start {}).Checkable c g g₁)
    (habstract : g.isAbstract c = false) (hall : providesAll g₁ c = true) {f : SymbolId}
    (hf : g₁.Owes none c f) : g₁.Provides c f := by
  have hmem := (Graph.mem_obligations_iff h.regular h.root h.kind
    (h.isAbstract.trans habstract)).mpr hf
  obtain ⟨i, hi, hfit⟩ := (Option.any_eq_true _ _).mp (List.all_eq_true.mp hall f hmem)
  rw [Bool.and_eq_true, Bool.not_eq_true', Option.isNone_iff_eq_none] at hfit
  exact ⟨i, hi, hfit.1, (Graph.mismatch?_eq_none_iff h.regular hf.kind).mp hfit.2⟩

/-- The class `c` of a unit is neither foreign nor declared abstract, and for every function that it
owes the nearest member fits. -/
structure Provided (c : SymbolId) (s : Analysis) (data : ClassData) (before s' : Analysis) :
    Prop where
  isClass : (s.graph.symbol c).data = .cls data
  unresolved : data.resolution = .unresolved
  isForeign : (s.graph.symbol c).flags.isForeign = false
  isAbstract : s.graph.isAbstract c = false
  resolving : Resolving {} (s.budget - 1) c data s before s'
  provides : ∀ f, before.graph.Owes none c f → before.graph.Provides c f

/-- Is this so, with the given outcome? -/
def providedWith (t : Tree) (c : SymbolId) (outcome : Analysis → Analysis → Bool) : Bool :=
  resolvesWith t c fun s s' => (s.graph.symbol c).class?.any fun data =>
    decide (data.resolution = .unresolved ∧ (s.graph.symbol c).flags.isForeign = false ∧
      s.graph.isAbstract c = false ∧ providesAll (checkpoint s c data).graph c = true ∧
      outcome (checkpoint s c data) s' = true)

theorem exists_of_providedWith {t : Tree} {outcome : Analysis → Analysis → Bool}
    (h : providedWith t c outcome = true) :
    ∃ s s' data before, collected t = some s ∧ (start {}).Instant s.graph ∧
      resolveType {} c s = .ok () s' ∧ Provided c s data before s' ∧
      outcome before s' = true := by
  obtain ⟨s, s', hs, hinstant, hrun, h⟩ := exists_of_elaboratesWith h
  obtain ⟨data, hdata, h⟩ := (Option.any_eq_true _ _).mp h
  obtain ⟨hopen, hforeign, habstract, hall, houtcome⟩ := of_decide_eq_true h
  have hdata := Graph.class?_eq_some hdata
  obtain ⟨before, hres⟩ := exists_resolving hdata hopen hrun
  have hbefore : checkpoint s c data = before := by
    rw [checkpoint, hres.prepare]
    rfl
  rw [hbefore] at hall houtcome
  have hcheck := checkable_of_resolving reaches_start hinstant hdata hopen hres
  exact ⟨s, s', data, before, hs, hinstant, hrun, ⟨hdata, hopen, hforeign, habstract, hres,
    fun _ hf => hcheck.provides habstract hall hf⟩, houtcome⟩

/-- The getter is implemented by a function of its name. -/
theorem accepted_metContract :
    ∃ s s' data before, collected metContract = some s ∧ resolveType {} ⟨0⟩ s = .ok () s' ∧
      Provided ⟨0⟩ s data before s' ∧ before.graph.Owes none ⟨0⟩ ⟨9⟩ ∧
      before.graph.roleOf ⟨9⟩ = .getter ∧
      s'.graph.isAbstract ⟨0⟩ = false ∧ s'.log = before.log := by
  have hend : providedWith metContract ⟨0⟩ (fun before _ => decide (
      ⟨9⟩ ∈ before.graph.obligations none ⟨0⟩ ∧ before.graph.roleOf ⟨9⟩ = .getter ∧
      (∀ f ∈ before.graph.memberFunctions ⟨0⟩, before.graph.isAbstract f = false) ∧
      ∀ f ∈ before.graph.obligations none ⟨0⟩, before.graph.standing ⟨0⟩ f = .met)) = true := by
    decide +kernel
  obtain ⟨s, s', data, before, hs, hinstant, hrun, h, houtcome⟩ := exists_of_providedWith hend
  obtain ⟨hgetter, hrole, hown, hmet⟩ := of_decide_eq_true houtcome
  have hcheck := checkable_of_resolving reaches_start hinstant h.isClass h.unresolved h.resolving
  have hmem := fun f => Graph.mem_obligations_iff (f := f) hcheck.regular hcheck.root hcheck.kind
    (hcheck.isAbstract.trans h.isAbstract)
  obtain ⟨before', hres, haccepted⟩ := accepted_iff reaches_start hinstant h.isClass h.unresolved
    h.isForeign h.isAbstract hrun
  have hsame : before' = before := by
    have := h.resolving.prepare.symm.trans hres.prepare
    cases this
    rfl
  subst hsame
  have howed : ∀ f, before'.graph.Owes none ⟨0⟩ f → before'.graph.roleOf f ≠ .plain →
      before'.graph.Implements ⟨0⟩ f := fun f hf _ =>
    (Graph.standing_eq_met_iff hcheck.regular hf.kind).mp (hmet f ((hmem f).mpr hf))
  exact ⟨s, s', data, before', hs, hrun, h, (hmem ⟨9⟩).mp hgetter, hrole,
    (haccepted h.provides).mpr ⟨hown, howed⟩⟩

/-- A class with the getter that its interface asks for. -/
def getterContract : Tree :=
  { file := "a.phs"
    nodes := #[{ kind := .fnDecl { name := some "x", role := .getter } },
      { kind := .interfaceDecl { name := "I", members := [⟨0⟩] } },
      { kind := .block [] },
      { kind := .fnDecl { name := some "x", role := .getter, mods := [.visible],
                          body := some ⟨2⟩ } },
      { kind := .classDecl { name := "C", implements := [.single "I"], members := [⟨3⟩] } },
      { kind := .unit [⟨1⟩, ⟨4⟩] }]
    root := ⟨5⟩ }

/-- The getter is there and fits, every function of the class has a body, and yet the class is
abstract in the end. -/
theorem getterContract_not_accepted :
    ∃ s s' data before, collected getterContract = some s ∧ resolveType {} ⟨2⟩ s = .ok () s' ∧
      Provided ⟨2⟩ s data before s' ∧
      (∀ f ∈ before.graph.memberFunctions ⟨2⟩,
        (before.graph.symbol f).fn?.map (·.hasBody) = some true) ∧
      s'.graph.isAbstract ⟨2⟩ = true := by
  have hend : providedWith getterContract ⟨2⟩ (fun before s' => decide (
      (∀ f ∈ before.graph.memberFunctions ⟨2⟩,
        (before.graph.symbol f).fn?.map (·.hasBody) = some true) ∧
      s'.graph.isAbstract ⟨2⟩ = true)) = true := by
    decide +kernel
  obtain ⟨s, s', data, before, hs, -, hrun, h, houtcome⟩ := exists_of_providedWith hend
  exact ⟨s, s', data, before, hs, hrun, h, of_decide_eq_true houtcome⟩

end Session

end Scoping
