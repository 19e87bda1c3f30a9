import Scoping.Proofs.Graph.Residence
import Scoping.Proofs.Session.Run

/-!
# The graphs that a session goes through

All that a session does are edits, from its first graph on: the declarations of the root object and
of the intrinsic functions, the analysis of every unit and its publication. So the graph of a
session is regular, its modules branch, only functions have delegates and outside units only roots
hold entries, at every moment (`Session.Instant.orderly`, `Session.Moment.resident`).
-/

namespace Scoping

namespace Graph

variable {g : Graph}

theorem regular_initial : initial.Regular := by
  have hblank : ∀ x, initial.symbol x = .blank := fun x => symbol_of_size_le (Nat.zero_le _)
  have hmember : ∀ q, (initial.scope q).member = none := by
    intro q
    obtain ⟨kind, active, hq⟩ := scope_initial q
    rw [hq]
  refine ⟨fun {x _} h => ?_, fun {x _} h => ?_, fun {f _} h => ?_, fun {f _ _} h => ?_,
    fun {x _} h => ?_, fun {q _} h => ?_, fun {q _} h => ?_⟩
  · rw [hblank x] at h
    cases h
  · rw [hblank x] at h
    cases h
  · rw [hblank f] at h
    cases h
  · rw [hblank f] at h
    cases h
  · rw [hblank x] at h
    cases h
  · rw [superScope?, memberInfo?, hmember] at h
    cases h
  · rw [hmember] at h
    cases h

theorem branching_initial : initial.Branching := by
  have hmodules : ∀ q, (initial.scope q).modules = {} := by
    intro q
    obtain ⟨kind, active, hq⟩ := scope_initial q
    rw [hq]
  refine ⟨fun q => ?_, fun {q _ _} h => ?_, fun {q _ _ _} h => ?_⟩
  · rw [hmodules]
    exact List.nodup_nil
  all_goals
    rw [hmodules] at h
    cases h

theorem hinged_initial : initial.Hinged := by
  intro q hq
  obtain ⟨kind, active, hscope⟩ := scope_initial q
  rw [hscope] at hq
  exact absurd rfl hq

theorem charted_initial : initial.Charted := by
  intro q hroot
  have hlt : q.index < 1 := lt_size_of_kind fun hblock => by
    rw [hblock] at hroot
    cases hroot
  exact .global (congrArg ScopeId.mk (Nat.lt_one_iff.mp hlt))

/-- What edits keep. -/
structure Orderly (g : Graph) : Prop where
  regular : g.Regular
  branching : g.Branching
  hinged : g.Hinged
  charted : g.Charted

theorem Edits.orderly {types : Set SymbolId} {g' : Graph} (hg : g.Orderly) (h : Edits types g g') :
    g'.Orderly :=
  ⟨h.regular hg.regular, h.branching hg.branching, h.hinged hg.hinged,
    h.charted hg.charted⟩

/-- A symbol of the session may change its namespace, since it is no parameter. -/
theorem Regular.manage (hg : g.Regular) {symbol : SymbolId} (ns : Namespace)
    (hkind : (g.symbol symbol).kind ≠ .var) : (g.manage symbol ns).Regular := by
  have hdata : ∀ x, ((g.manage symbol ns).symbol x).data = (g.symbol x).data := fun x =>
    symbol_modifySymbol_congr Symbol.data _ _ fun _ => rfl
  have hsame : ∀ x, ((g.manage symbol ns).symbol x).kind = (g.symbol x).kind := fun x =>
    congrArg SymbolData.kind (hdata x)
  refine ⟨fun {x t} h => ?_, fun {x t} h => ?_, fun {f p} h => ?_, fun {f f' p} h h' => ?_,
    fun {x m} h => ?_, fun {q p} h => ?_, hg.slots⟩
  · rw [Symbol.interfaces_congr (hdata x)] at h
    rw [hsame, hg.interfaces h]
  · rw [Symbol.super?_congr (hdata x)] at h
    rw [hsame, hg.super? h]
  · rw [Symbol.params_congr (hdata f)] at h
    obtain ⟨hlt, hparam⟩ := hg.param h
    have hne : p ≠ symbol := by
      rintro rfl
      exact hkind hparam.kind
    refine ⟨by rwa [Graph.manage, size_symbols_modifySymbol], ?_⟩
    rwa [Graph.manage, symbol_modifySymbol_of_ne hne]
  · rw [Symbol.params_congr (hdata f)] at h
    rw [Symbol.params_congr (hdata f')] at h'
    exact hg.param_unique h h'
  · rw [Symbol.members?, hdata x] at h
    obtain ⟨host, hhost, hkinds, hself⟩ := hg.host h
    have horigin : ((g.manage symbol ns).symbol x).origin = (g.symbol x).origin :=
      symbol_modifySymbol_congr Symbol.origin _ _ fun _ => rfl
    exact ⟨host, hhost, by rw [hsame, hsame, hkinds], fun hnone => hself (horigin ▸ hnone)⟩
  · obtain ⟨x, hkind, hmembers⟩ := hg.link h
    exact ⟨x, by rw [hsame, hkind], by rw [Symbol.members?, hdata x, ← Symbol.members?, hmembers]⟩

/-- What a session supplies is declared in an orderly graph. -/
theorem Orderly.declareManaged (hg : g.Orderly) {symbol : SymbolId}
    (hkind : (g.symbol symbol).kind ≠ .var) (p : ScopeId) (ns : Namespace) :
    (g.declareManaged p symbol ns).2.Orderly := by
  rw [declareManaged_eq]
  have hmanage : (g.manage symbol ns).Orderly :=
    ⟨hg.regular.manage ns hkind, ⟨hg.branching.nodup, hg.branching.lt_size, hg.branching.inj⟩,
      hg.hinged, fun q hq => (hg.charted q hq).congr rfl rfl (.inl rfl) id⟩
  have hedits : Edits .univ (g.manage symbol ns) ((g.manage symbol ns).declare p symbol).2 :=
    .single .declare
  exact hedits.orderly hmanage

end Graph

namespace Session

open Scoping.Graph

theorem orderly_addIntrinsic {g : Graph} (hg : g.Orderly) (name : String) :
    (addIntrinsic g name).Orderly := by
  have hedit : Edit .univ g (g.alloc (Symbol.mkDetached name {} { isPublic := true }
      (.fn { hasBody := true }))).2 := .alloc (.of_bare ⟨rfl, rfl, rfl, rfl⟩ rfl)
  refine (Edits.orderly hg (.single hedit)).declareManaged ?_ _ _
  rw [symbol_alloc, if_pos rfl]
  show SymbolKind.fn ≠ .var
  decide

theorem orderly_addRootObject {g : Graph} (hg : g.Orderly) (name : String) :
    (addRootObject g name).2.Orderly := by
  have htype : Edit .univ g (g.allocType global (rootSymbol name)).2 :=
    .allocType ⟨rfl, rfl, rfl, rfl⟩ rfl
  have hname : Edit .univ (g.allocType global (rootSymbol name)).2
      ((g.allocType global (rootSymbol name)).2.modifyScope ⟨g.scopes.size⟩ fun s =>
        { s with name := some name }) := by
    refine .amendScope ⟨rfl, rfl, rfl, .inl rfl, rfl, .inr ?_⟩
    rw [scope_allocType, (newMemberScope_self _ _ _).2.2]
    decide
  rw [addRootObject_snd]
  refine (Edits.orderly hg (.tail (.single htype) hname)).declareManaged ?_ _ _
  rw [symbol_modifyScope, symbol_allocType, if_pos rfl]
  show SymbolKind.cls ≠ .var
  decide

theorem orderly_start (config : Config) : (start config).graph.Orderly := by
  have hinitial : initial.Orderly :=
    ⟨regular_initial, branching_initial, hinged_initial, charted_initial⟩
  exact start_induction config (fun _ => hinitial) (fun _ => orderly_addRootObject hinitial _)
    fun name hg => orderly_addIntrinsic hg name

variable {config : Config} {reducer : Reducer} {loader : Loader} {s s' : Session} {g : Graph}

theorem orderly_of_reaches (h : Reaches (startWith config reducer loader) s) : s.graph.Orderly := by
  induction h with
  | refl => exact orderly_start config
  | tail hreaches hnext ih => exact (hnext.edits (sound_of_reaches hreaches)).orderly ih

/-- All that a session supplies is in the global scope. -/
theorem resident_start (config : Config) : (start config).graph.Resident := by
  have hg := founding_start config
  refine ⟨fun {q ns name x} hx => ?_⟩
  have hglobal := (hg.owner (hg.agreement.entry hx).1).1
  rw [hglobal, hg.nested.kind_global]
  exact .inr rfl

theorem Moment.resident (hg : s.Moment g) (hs : Reaches (startWith config reducer loader) s) :
    g.Resident :=
  hg.induction (resident_start config) (fun hg hr h => h.resident hg hr)
    (fun hg hr h => (h.spec hg).2.resident hg hr) hs

/-! ### Moments -/

/-- A graph that the session goes through from here to the end of the next unit. -/
structure Instant (s : Session) (g : Graph) : Prop where
  moment : s.Moment g
  edits : Edits .univ s.graph g

/-- The graph in which the declarations of a unit have been collected. -/
theorem instant_collected (hs : s.Sound) {t : Tree} {unit : ScopeId} {a : Analysis}
    (h : Declaration.unit (s.opening t) = .ok unit a) : s.Instant a.graph := by
  have hcollected := Analysis.collected_of_unit (s := s.opening t) hs.coherent h
  exact ⟨⟨a.graph, hcollected.onward.steps.mono (Set.subset_univ _), .refl⟩,
    hcollected.onward.edits.mono (Set.subset_univ _)⟩

/-- The graph in which the references of a unit are resolved. -/
theorem instant_entered (hs : s.Sound) {t : Tree} {unit : ScopeId} {a : Analysis}
    (h : Declaration.unit (s.opening t) = .ok unit a) : s.Instant (a.graph.enter unit) := by
  have hcollected := Analysis.collected_of_unit (s := s.opening t) hs.coherent h
  have henter : Step .univ a.graph (a.graph.enter unit) := .amendScope (.marks _ _ _ _)
  refine ⟨⟨_, (hcollected.onward.steps.mono (Set.subset_univ _)).tail henter, .refl⟩, ?_⟩
  exact (instant_collected hs h).edits.tail (.amendScope ⟨rfl, rfl, rfl, .inl rfl, rfl, .inl rfl⟩)

namespace Instant

variable (h : s.Instant g)

include h

theorem coherent (hs : s.Sound) : g.Coherent := h.moment.coherent hs

theorem ready (hs : s.Sound) : Analysis.Ready s.environment ∅ g := by
  obtain ⟨g₁, hsteps, hpublishes⟩ := h.moment
  refine ⟨fun x hx => absurd hx (Set.notMem_empty x), fun r hr => ?_⟩
  obtain ⟨hresolved, hkind⟩ := hs.ready.root r hr
  refine ⟨?_, h.edits.kind_eq hkind (by decide)⟩
  rw [(hpublishes.spec (hs.coherent.steps hsteps)).2.symbol]
  exact hsteps.resolved hresolved

variable (hs : s.graph.Orderly)

include hs

theorem orderly : g.Orderly := h.edits.orderly hs

theorem regular : g.Regular := (h.orderly hs).regular

theorem branching : g.Branching := (h.orderly hs).branching

end Instant

end Session

end Scoping
