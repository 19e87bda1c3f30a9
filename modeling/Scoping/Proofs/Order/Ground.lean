import Mathlib.Data.Finset.Card
import Scoping.Proofs.Change.Hierarchy
import Scoping.Proofs.Graph.Meaning
import Scoping.Proofs.Graph.Residence

/-!
# Stages of the resolution of types

`Hierarchy.Ground` is a graph in which some types are to be resolved that do not refer to each other
in a circle. While they are resolved, the outline of the graph stays as it is, and whatever is
linked to a type has been resolved before (`Hierarchy.Stage`). So a type sees the same if only other
types change that have not been resolved (`Hierarchy.Stage.concur`).
-/

namespace Scoping

/-- The types that a type is linked to. -/
def Symbol.leads (s : Symbol) : List SymbolId := s.interfaces ++ s.super?.toList

theorem Symbol.params_of_outline {s s' : Symbol} (h : s'.outline = s.outline) :
    s'.params = s.params := by
  rw [params, params, fn?_of_outline h]

theorem Symbol.outline_of_data {s : Symbol} {data : SymbolData}
    (h : data.outline = s.data.outline) : Symbol.outline { s with data } = s.outline := by
  have hkind : data.kind = s.data.kind := by
    have hsame : ∀ data : SymbolData, data.outline.kind = data.kind := by
      intro data
      cases data <;> rfl
    rw [← hsame, h, hsame]
  have hmark : isMarkable { s with data } = s.isMarkable := by
    rw [isMarkable, isMarkable, kind, kind, hkind]
  simp only [outline, hmark, h]

namespace Graph

theorem superclass?_eq (g : Graph) (root : Option SymbolId) (x : SymbolId) :
    g.superclass? root x = ((g.symbol x).class?.map ClassData.super).bind fun super =>
      super.elim (root.filter (· != x)) TypeRef.target := by
  unfold superclass?
  cases (g.symbol x).class? with
  | none => rfl
  | some data => cases hsuper : data.super <;> simp [hsuper]

theorem outline_modifyScope {g : Graph} {q : ScopeId} {f : Scope → Scope}
    (hf : (f (g.scope q)).outline = (g.scope q).outline) :
    (g.modifyScope q f).outline = g.outline := by
  refine ext_of_view (by simp) (by simp) (fun p => ?_) fun x => by simp
  rw [scope_outline, scope_outline, scope_modifyScope]
  split
  next hp => rw [hp.1, hf]
  next => rfl

theorem exists_members?_of_isType {g : Graph} {x : SymbolId}
    (h : (g.symbol x).kind.isType = true) : ∃ m, (g.symbol x).members? = some m := by
  obtain ⟨r, hr⟩ := Hierarchy.isType_iff.mp h
  exact Hierarchy.exists_members? hr

end Graph

namespace Hierarchy

open Scoping.Graph

/-! ### Where references lead -/

/-- The references of a type, each with the kind of type that it asks for. -/
def references : SymbolData → List (SymbolKind × TypeRef)
  | .cls data => data.super.toList.map (SymbolKind.cls, ·) ++ data.interfaces.map (.iface, ·)
  | .iface data => data.interfaces.map (.iface, ·)
  | _ => []

/-- A reference of `x` is answered by `y`, which is of the kind that it asks for. -/
def Refers (g : Graph) (x y : SymbolId) : Prop :=
  ∃ kind ref, (kind, ref) ∈ references (g.symbol x).data ∧
    g.meaning (declaringScope g x) ref.path = .found y ∧ (g.symbol y).kind = kind

/-- References between the types of a set. -/
def RefersWithin (types : Set SymbolId) (g : Graph) (x y : SymbolId) : Prop :=
  x ∈ types ∧ y ∈ types ∧ Refers g x y

variable {env : Environment} {g₀ g g' : Graph} {types touched : Set SymbolId}
  {busy : Finset SymbolId} {t u x y : SymbolId} {m : ScopeId}

theorem references_outline (data : SymbolData) :
    references data.outline = (references data).map fun e => (e.1, e.2.unlinked) := by
  cases data with
  | cls data => cases hsuper : data.super <;> simp [SymbolData.outline, references, hsuper]
  | iface data => simp [SymbolData.outline, references]
  | _ => rfl

theorem kind_of_refers (h : Refers g x y) :
    (g.symbol y).kind = .cls ∨ (g.symbol y).kind = .iface := by
  obtain ⟨kind, ref, href, -, rfl⟩ := h
  unfold references at href
  split at href
  · simp only [List.mem_append, List.mem_map, Prod.mk.injEq] at href
    rcases href with ⟨_, -, hkind, -⟩ | ⟨_, -, hkind, -⟩
    · exact .inl hkind.symm
    · exact .inr hkind.symm
  · simp only [List.mem_map, Prod.mk.injEq] at href
    obtain ⟨_, -, hkind, -⟩ := href
    exact .inr hkind.symm
  · cases href

theorem isType_of_refers (h : Refers g x y) : (g.symbol y).kind.isType = true := by
  rcases kind_of_refers h with hkind | hkind <;> rw [hkind] <;> rfl

theorem declaringScope_congr (h : g'.outline = g.outline) (x : SymbolId) :
    declaringScope g' x = declaringScope g x := by
  have howner : g'.owner = g.owner := by rw [← owner_outline, h, owner_outline]
  have hsymbol := outline_symbol_eq h x
  simp only [declaringScope, Symbol.scope_of_outline hsymbol, Symbol.members?_of_outline hsymbol,
    howner, scope_congr_of_outline Scope.parent (fun _ => rfl) h]

/-! ### The graph that types are resolved in -/

/-- The parameters of the functions of a type. -/
def paramList (g : Graph) (x : SymbolId) : List SymbolId :=
  (g.memberFunctions x).flatMap fun f => (g.symbol f).params

/-- The symbols that change when a type is resolved. -/
def Owns (g : Graph) (t x : SymbolId) : Prop := x = t ∨ x ∈ paramList g t

/-- Classes and interfaces that can be resolved: they are declared in root scopes, use no traits and
do not refer to themselves in a circle, nothing has been resolved about them, and whatever else they
refer to has been resolved. -/
structure Ground (env : Environment) (types : Set SymbolId) (g : Graph) : Prop where
  coherent : g.Coherent
  resident : g.Resident
  regular : g.Regular
  hinged : g.Hinged
  root : ∀ r, env.rootObject = some r → r ∉ types ∧ (g.symbol r).kind = .cls
  kind : ∀ t ∈ types, (g.symbol t).kind = .cls ∨ (g.symbol t).kind = .iface
  unresolved : ∀ t ∈ types, (g.symbol t).Unresolved
  /-- The types share their member scopes with no other type. -/
  own : ∀ t ∈ types, ∀ u m, (g.symbol t).members? = some m → (g.symbol u).members? = some m → u = t
  level : ∀ t ∈ types, ∀ m, (g.symbol t).members? = some m → g.Level m
  place : ∀ t ∈ types, (g.scope (declaringScope g t)).kind.isRoot = true
  plain : ∀ t ∈ types, ∀ data, (g.symbol t).class? = some data → data.traits = []
  acyclic : ∀ t, ¬ Relation.TransGen (RefersWithin types g) t t
  outside : ∀ t ∈ types, ∀ y, Refers g t y →
    y ∈ types ∨ (g.symbol y).data.resolution? = some .resolved
  /-- Nothing is linked to the types. -/
  leads : ∀ {u v}, v ∈ (g.symbol u).leads → v ∉ types
  chain : ∀ {q p}, g.superScope? q = some p → ∃ v ∉ types, (g.symbol v).members? = some p

namespace Ground

variable (hg : Ground env types g₀)

include hg

theorem isType (ht : t ∈ types) : (g₀.symbol t).kind.isType = true := by
  rcases hg.kind t ht with hkind | hkind <;> rw [hkind] <;> rfl

theorem exists_members? (ht : t ∈ types) : ∃ m, (g₀.symbol t).members? = some m :=
  exists_members?_of_isType (hg.isType ht)

theorem kind_of_mem_paramList (hx : x ∈ paramList g₀ t) : (g₀.symbol x).kind = .var := by
  obtain ⟨f, -, hx⟩ := List.mem_flatMap.mp hx
  exact (hg.regular.param hx).2.kind

theorem not_mem_paramList (hm : (g₀.symbol u).members? = some m) : u ∉ paramList g₀ t := by
  intro hu
  rw [members?_of_kind_var (hg.kind_of_mem_paramList hu)] at hm
  cases hm

/-- Functions of different types have different parameters. -/
theorem owns_unique (ht : t ∈ types) (hu : (g₀.symbol u).members? = some m) (hx : Owns g₀ t x)
    (hx' : Owns g₀ u x) : u = t := by
  obtain ⟨m', hm'⟩ := hg.exists_members? ht
  rcases hx with rfl | hx
  · rcases hx' with rfl | hx'
    · rfl
    · exact absurd hx' (hg.not_mem_paramList hm')
  · rcases hx' with rfl | hx'
    · exact absurd hx (hg.not_mem_paramList hu)
    · obtain ⟨f, hf, hx⟩ := List.mem_flatMap.mp hx
      obtain ⟨f', hf', hx'⟩ := List.mem_flatMap.mp hx'
      obtain rfl := hg.regular.param_unique hx hx'
      have howner := owner_of_mem_members hg.coherent hg.resident hg.regular hm'
        (List.mem_filter.mp hf).1
      have howner' := owner_of_mem_members hg.coherent hg.resident hg.regular hu
        (List.mem_filter.mp hf').1
      rw [howner, Option.some.injEq] at howner'
      exact hg.own t ht u m (howner' ▸ hm') hu

end Ground

/-- Of the symbols and scopes only those that belong to the touched types have changed, and the
outline has not. -/
structure Touches (g₀ : Graph) (touched : Set SymbolId) (g g' : Graph) : Prop where
  outline : g'.outline = g.outline
  symbol : ∀ x, (∀ t ∈ touched, ¬ Owns g₀ t x) → g'.symbol x = g.symbol x
  scope : ∀ q, (∀ t ∈ touched, (g₀.symbol t).members? ≠ some q) → g'.scope q = g.scope q

namespace Touches

variable {touched' : Set SymbolId} {g'' : Graph}

protected theorem refl : Touches g₀ touched g g := ⟨rfl, fun _ _ => rfl, fun _ _ => rfl⟩

protected theorem trans (h : Touches g₀ touched g g') (h' : Touches g₀ touched g' g'') :
    Touches g₀ touched g g'' where
  outline := h'.outline.trans h.outline
  symbol x hx := (h'.symbol x hx).trans (h.symbol x hx)
  scope q hq := (h'.scope q hq).trans (h.scope q hq)

theorem mono (hsub : touched ⊆ touched') (h : Touches g₀ touched g g') :
    Touches g₀ touched' g g' where
  outline := h.outline
  symbol x hx := h.symbol x fun t ht => hx t (hsub ht)
  scope q hq := h.scope q fun t ht => hq t (hsub ht)

theorem modifySymbol {f : Symbol → Symbol} (hx : Owns g₀ t x)
    (hf : (f (g.symbol x)).outline = (g.symbol x).outline) :
    Touches g₀ {t} g (g.modifySymbol x f) where
  outline := outline_modifySymbol hf
  symbol y hy := symbol_modifySymbol_of_ne (by rintro rfl; exact hy t rfl hx) f
  scope _ _ := rfl

theorem modifyScope {f : Scope → Scope} (hm : (g₀.symbol t).members? = some m)
    (hf : (f (g.scope m)).outline = (g.scope m).outline) :
    Touches g₀ {t} g (g.modifyScope m f) where
  outline := outline_modifyScope hf
  symbol _ _ := rfl
  scope q hq := scope_modifyScope_of_ne (by rintro rfl; exact hq t rfl hm) f

/-- Nothing changes for the types that are not touched. -/
theorem eq_of_notMem (htouch : Touches g₀ touched g g') (hg : Ground env types g₀)
    (hsub : touched ⊆ types) (hm : (g₀.symbol u).members? = some m) (hu : u ∉ touched) :
    (∀ x, Owns g₀ u x → g'.symbol x = g.symbol x) ∧ g'.scope m = g.scope m := by
  refine ⟨fun x hx => htouch.symbol x fun t ht hown => ?_, htouch.scope m fun t ht htm => ?_⟩
  · exact hu (hg.owns_unique (hsub ht) hm hown hx ▸ ht)
  · exact hu (hg.own t (hsub ht) u m htm hm ▸ ht)

end Touches

/-! ### Stages -/

/-- A type that nothing more will happen to. -/
def Ready (types : Set SymbolId) (busy : Finset SymbolId) (g : Graph) (v : SymbolId) : Prop :=
  (∃ m, (g.symbol v).members? = some m) ∧
    (v ∈ types → v ∉ busy ∧ (g.symbol v).data.resolution? = some .resolved)

theorem Ready.insert_busy (h : Ready types busy g u) (ht : ¬ Ready types busy g t) :
    Ready types (insert t busy) g u := by
  refine ⟨h.1, fun hin => ⟨fun hmem => ?_, (h.2 hin).2⟩⟩
  rcases Finset.mem_insert.mp hmem with rfl | hmem
  · exact ht h
  · exact (h.2 hin).1 hmem

theorem Ready.of_insert_busy (h : Ready types (insert t busy) g u) : Ready types busy g u :=
  ⟨h.1, fun hin => ⟨fun hmem => (h.2 hin).1 (Finset.mem_insert_of_mem hmem), (h.2 hin).2⟩⟩

/-- A stage of the resolution of some types. Links lead only to types that have been resolved, and
of the types only those in `busy` may be being resolved. -/
structure Stage (types : Set SymbolId) (g₀ : Graph) (busy : Finset SymbolId) (g : Graph) :
    Prop where
  touches : Touches g₀ types g₀ g
  subset : ∀ u ∈ busy, u ∈ types
  resolving : ∀ u ∈ types, (g.symbol u).data.resolution? = some .resolving → u ∈ busy
  leads : ∀ {u v}, v ∈ (g.symbol u).leads → Ready types busy g v
  chain : ∀ {q p}, g.superScope? q = some p →
    ∃ v, Ready types busy g v ∧ (g.symbol v).members? = some p

/-- A graph in which `t` sees the same as in `g`: other types have changed that were not ready. -/
structure Sight (types : Set SymbolId) (g₀ : Graph) (busy : Finset SymbolId) (t : SymbolId)
    (g g' : Graph) : Prop where
  touches : Touches g₀ {u | u ∈ types ∧ u ≠ t ∧ ¬ Ready types busy g u} g g'
  resolving : ∀ u ∈ types, (g'.symbol u).data.resolution? = some .resolving → u ∈ busy

theorem Ground.stage (hg : Ground env types g₀) : Stage types g₀ ∅ g₀ where
  touches := .refl
  subset u hu := absurd hu (Finset.notMem_empty u)
  resolving u hu h := by cases (hg.unresolved u hu).resolution _ h
  leads {u v} hv := by
    refine ⟨exists_members?_of_isType ?_, fun hin => absurd hin (hg.leads hv)⟩
    rcases List.mem_append.mp hv with hv | hv
    · rw [hg.regular.interfaces hv]
      rfl
    · rw [hg.regular.super? (Option.mem_toList.mp hv)]
      rfl
  chain hq := by
    obtain ⟨v, hv, hm⟩ := hg.chain hq
    exact ⟨v, ⟨⟨_, hm⟩, fun hin => absurd hin hv⟩, hm⟩

namespace Stage

variable (h : Stage types g₀ busy g)

include h

theorem outline : g.outline = g₀.outline := h.touches.outline

theorem members?_eq (u : SymbolId) : (g.symbol u).members? = (g₀.symbol u).members? :=
  Symbol.members?_of_outline (outline_symbol_eq h.outline u)

theorem sight (t : SymbolId) : Sight types g₀ busy t g g := ⟨.refl, h.resolving⟩

/-- One more type is being resolved. -/
theorem insert_busy (ht : t ∈ types) (hopen : ¬ Ready types busy g t) :
    Stage types g₀ (insert t busy) g where
  touches := h.touches
  subset u hu := (Finset.mem_insert.mp hu).elim (· ▸ ht) (h.subset u)
  resolving u hu hr := Finset.mem_insert_of_mem (h.resolving u hu hr)
  leads hv := (h.leads hv).insert_busy hopen
  chain hq := by
    obtain ⟨v, hv, hm⟩ := h.chain hq
    exact ⟨v, hv.insert_busy hopen, hm⟩

omit h in
/-- A type has been resolved. -/
theorem of_insert_busy (h : Stage types g₀ (insert t busy) g)
    (hres : (g.symbol t).data.resolution? = some .resolved) : Stage types g₀ busy g where
  touches := h.touches
  subset u hu := h.subset u (Finset.mem_insert_of_mem hu)
  resolving u hu hr := by
    refine (Finset.mem_insert.mp (h.resolving u hu hr)).resolve_left ?_
    rintro rfl
    rw [hres] at hr
    cases hr
  leads hv := (h.leads hv).of_insert_busy
  chain hq := by
    obtain ⟨v, hv, hm⟩ := h.chain hq
    exact ⟨v, hv.of_insert_busy, hm⟩

theorem ready_root (hg : Ground env types g₀) {r : SymbolId} (hr : env.rootObject = some r) :
    Ready types busy g r := by
  obtain ⟨hout, hkind⟩ := hg.root r hr
  obtain ⟨m, hm⟩ := exists_members?_of_isType (x := r) (g := g₀) (by rw [hkind]; rfl)
  exact ⟨⟨m, (h.members?_eq r).trans hm⟩, fun hin => absurd hin hout⟩

/-- Types that are not touched stay ready. -/
theorem ready_of_touches (hg : Ground env types g₀) (htouch : Touches g₀ touched g g')
    (hsub : touched ⊆ types) (hu : u ∉ touched) (hready : Ready types busy g u) :
    Ready types busy g' u := by
  obtain ⟨⟨m, hm⟩, hres⟩ := hready
  refine ⟨⟨m, ?_⟩, fun hin => ?_⟩
  · rw [Symbol.members?_of_outline (outline_symbol_eq htouch.outline u), hm]
  · rw [h.members?_eq] at hm
    rw [(htouch.eq_of_notMem hg hsub hm hu).1 u (.inl rfl)]
    exact hres hin

/-- A type that is being resolved may be linked to types that are ready. -/
theorem touch (hg : Ground env types g₀) (ht : t ∈ busy) (htouch : Touches g₀ {t} g g')
    (hleads : ∀ v ∈ (g'.symbol t).leads, v ∈ (g.symbol t).leads ∨ Ready types busy g v)
    (hchain : ∀ m p, (g₀.symbol t).members? = some m → g'.superScope? m = some p →
      g.superScope? m = some p ∨ ∃ v, Ready types busy g v ∧ (g.symbol v).members? = some p) :
    Stage types g₀ busy g' := by
  have hmem := h.subset t ht
  have hsub : {t} ⊆ types := Set.singleton_subset_iff.mpr hmem
  have hkeep : ∀ v, Ready types busy g v → Ready types busy g' v := by
    refine fun v hv => h.ready_of_touches hg htouch hsub ?_ hv
    rintro rfl
    exact (hv.2 hmem).1 ht
  have hmembers := fun v => Symbol.members?_of_outline (outline_symbol_eq htouch.outline v)
  refine ⟨h.touches.trans (htouch.mono hsub), h.subset, fun u hu hr => ?_, fun {u v} hv => ?_,
    fun {q p} hq => ?_⟩
  · by_cases heq : u = t
    · exact heq ▸ ht
    · obtain ⟨m, hm⟩ := hg.exists_members? hu
      rw [(htouch.eq_of_notMem hg hsub hm heq).1 u (.inl rfl)] at hr
      exact h.resolving u hu hr
  · refine hkeep v ?_
    by_cases hu : Owns g₀ t u
    · rcases hu with rfl | hu
      · exact (hleads v hv).elim h.leads id
      · -- parameters are not linked to anything
        have hkind := Symbol.kind_of_outline (outline_symbol_eq (htouch.outline.trans h.outline) u)
        rw [hg.kind_of_mem_paramList hu] at hkind
        unfold Symbol.kind at hkind
        unfold Symbol.leads Symbol.interfaces Symbol.super? Symbol.class? at hv
        cases hdata : (g'.symbol u).data with
        | var =>
          rw [hdata] at hv
          cases hv
        | _ =>
          rw [hdata] at hkind
          cases hkind
    · rw [htouch.symbol u fun v hv => hv ▸ hu] at hv
      exact h.leads hv
  · have hex : ∃ v, Ready types busy g v ∧ (g.symbol v).members? = some p := by
      by_cases hm : (g₀.symbol t).members? = some q
      · exact (hchain q p hm hq).elim h.chain id
      · have hscope := htouch.scope q fun v hv => hv ▸ hm
        rw [superScope?_congr (congrArg Scope.member hscope)] at hq
        exact h.chain hq
    obtain ⟨v, hv, hp⟩ := hex
    exact ⟨v, hkeep v hv, (hmembers v).trans hp⟩

section Sight

variable (hg : Ground env types g₀) (ht : t ∈ types) (hs : Sight types g₀ busy t g g')

include hg hs

omit h in
/-- What a type can see stays as it is. -/
theorem eq_of_sight (hm : (g₀.symbol u).members? = some m) (hu : u = t ∨ Ready types busy g u) :
    (∀ x, Owns g₀ u x → g'.symbol x = g.symbol x) ∧ g'.scope m = g.scope m :=
  hs.touches.eq_of_notMem hg (fun _ hv => hv.1) hm fun hv => hu.elim hv.2.1 hv.2.2

include ht

/-- So a type and those that are ready are the same in both graphs. -/
theorem concur : Concur env.rootObject {u | u = t ∨ Ready types busy g u} g g' := by
  have hsame : ∀ u, u = t ∨ Ready types busy g u → ∃ m, (g₀.symbol u).members? = some m ∧
      (∀ x, Owns g₀ u x → g'.symbol x = g.symbol x) ∧ g'.scope m = g.scope m := by
    intro u hu
    obtain ⟨m, hm⟩ : ∃ m, (g₀.symbol u).members? = some m := by
      rcases hu with rfl | ⟨⟨m, hm⟩, -⟩
      · exact hg.exists_members? ht
      · exact ⟨m, (h.members?_eq u).symm.trans hm⟩
    exact ⟨m, hm, eq_of_sight hg hs hm hu⟩
  have hself : ∀ u, u = t ∨ Ready types busy g u → g'.symbol u = g.symbol u := by
    intro u hu
    obtain ⟨-, -, hsymbol, -⟩ := hsame u hu
    exact hsymbol u (.inl rfl)
  refine ⟨hs.touches.outline, fun u hu => by rw [hself u hu], fun u hu => ?_, fun u hu => ?_,
    fun u hu m hm => ?_, fun u hu f hf p hp => ?_, fun u hu i hi => .inr ?_,
    fun u hu b hb => .inr ?_, fun u hu m q hm hq => ?_⟩
  · rw [superclass?, superclass?, hself u hu]
  · rw [isAbstract, isAbstract, hself u hu]
  · obtain ⟨m', hm', -, hscope⟩ := hsame u hu
    rw [h.members?_eq, hm', Option.some.injEq] at hm
    exact superScope?_congr (congrArg Scope.member (hm ▸ hscope))
  · obtain ⟨-, -, hsymbol, -⟩ := hsame u hu
    rw [memberFunctions_congr h.outline] at hf
    rw [Symbol.params_of_outline (outline_symbol_eq h.outline f)] at hp
    rw [hsymbol p (.inr (List.mem_flatMap.mpr ⟨f, hf, hp⟩))]
  · exact h.leads (u := u) (List.mem_append_left _ hi)
  · rw [superclass?_eq] at hb
    obtain ⟨super, hclass, hb⟩ := Option.bind_eq_some_iff.mp hb
    obtain ⟨data, hdata, rfl⟩ := Option.map_eq_some_iff.mp hclass
    cases hsuper : data.super with
    | none =>
      rw [hsuper] at hb
      exact h.ready_root hg (Option.filter_eq_some_iff.mp hb).1
    | some ref =>
      rw [hsuper] at hb
      refine h.leads (u := u) (List.mem_append_right _ (Option.mem_toList.mpr ?_))
      rw [Symbol.super?, hdata, Option.bind_some, hsuper]
      exact hb
  · obtain ⟨v, hv, hm⟩ := h.chain hq
    exact ⟨v, .inr hv, hm⟩

end Sight

end Stage

/-! ### The checks of a class in two graphs -/

section Checks

variable {D : Set SymbolId}

theorem standingReport_congr (h : g'.outline = g.outline) (f : SymbolId) (standing : Standing) :
    standingReport g' f standing = standingReport g f standing := by
  have hspan := fun x => Symbol.span_of_outline (outline_symbol_eq h x)
  cases standing with
  | broken i why => simp only [standingReport, symbolPath_congr h, hspan]
  | _ => rfl

/-- A class leaves the same in graphs that agree on the types that it is linked to. -/
theorem standings_congr (hg₀ : g₀.Coherent) (hsame : g.outline = g₀.outline)
    (h : Concur env.rootObject D g g') (hu : u ∈ D) :
    leavesUnmet env g' u = leavesUnmet env g u ∧
      ((g'.obligations env.rootObject u).flatMap fun f => standingReport g' f (g'.standing u f)) =
        (g.obligations env.rootObject u).flatMap fun f => standingReport g f (g.standing u f) := by
  have hstanding : ∀ f ∈ g.obligations env.rootObject u, g'.standing u f = g.standing u f :=
    fun f hf => h.standing_eq hg₀ hsame hu (h.exists_of_mem_obligations hu hf)
  constructor
  · rw [leavesUnmet, leavesUnmet, h.obligations_eq hu, Bool.eq_iff_iff, List.any_eq_true,
      List.any_eq_true]
    refine exists_congr fun f => and_congr_right fun hf => ?_
    rw [hstanding f hf]
  · rw [h.obligations_eq hu]
    refine List.flatMap_congr fun f hf => ?_
    rw [standingReport_congr h.outline, hstanding f hf]

theorem hasAbstract_congr (h : g'.outline = g.outline) : hasAbstract g' u = hasAbstract g u := by
  rw [hasAbstract, hasAbstract, memberFunctions_congr h, Bool.eq_iff_iff, List.any_eq_true,
    List.any_eq_true]
  refine exists_congr fun f => and_congr_right fun hf => ?_
  rw [isAbstract, isAbstract, symbol_eq_of_kind h (kind_of_mem_memberFunctions hf)]

end Checks

end Hierarchy

end Scoping
