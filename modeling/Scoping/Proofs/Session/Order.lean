import Scoping.Proofs.Graph.Ancestry
import Scoping.Proofs.Order.Commute
import Scoping.Proofs.Session.Activity
import Scoping.Proofs.Session.Balance
import Scoping.Proofs.Session.Instant

/-!
# The order in which types are resolved

The classes and interfaces of a unit may be resolved in any order. When the declarations of a unit
have been collected, its types stand on a ground (`Session.ground_of_collected`), provided that they
are declared in the scope of the unit, use no traits and do not refer to each other in a circle, and
that the types of earlier units that they refer to have been resolved. So resolving them has the
same effect in whichever order, and with whichever repetitions, it is done
(`Session.resolveTypes_order_irrel`).

The types in a module that is opened in the body of a trait are not resolved with their unit. Later
units find them as they are, and may then resolve them in one order or another
(`Session.not_resolveTypes_order_irrel_hiddenTypes`).
-/

namespace Scoping

namespace Session

open Scoping.Graph Analysis Hierarchy

variable {config : Config} {reducer : Reducer} {loader : Loader} {σ : Session} {t : Tree}
  {unit : ScopeId} {a : Analysis}

/-- The classes and interfaces that have been declared since a session has analysed its last
unit. -/
def newTypes (σ : Session) (g : Graph) : Set SymbolId :=
  {x | σ.graph.symbols.size ≤ x.index ∧
    ((g.symbol x).kind = .cls ∨ (g.symbol x).kind = .iface)}

instance (σ : Session) (g : Graph) (x : SymbolId) : Decidable (x ∈ σ.newTypes g) :=
  inferInstanceAs (Decidable (_ ∧ _))

/-- A type is declared in a scope: its relatives are looked up from there, and its members are in a
scope of their own inside it. -/
structure DeclaredIn (g : Graph) (scope : ScopeId) (x : SymbolId) : Prop where
  declaring : declaringScope g x = scope
  parent : ∀ m, (g.symbol x).members? = some m → (g.scope m).parent = some scope

/-- The types of a unit are declared in its scope, use no traits and do not refer to each other in a
circle. -/
structure Unordered (σ : Session) (unit : ScopeId) (g : Graph) : Prop where
  declared : ∀ x ∈ σ.newTypes g, DeclaredIn g unit x
  plain : ∀ x ∈ σ.newTypes g, ∀ data, (g.symbol x).class? = some data → data.traits = []
  acyclic : ∀ x, ¬ Relation.TransGen (RefersWithin (σ.newTypes g) g) x x

/-- The types of earlier units that the types of a unit refer to have been resolved. -/
def EarlierResolved (σ : Session) (g : Graph) : Prop :=
  ∀ x ∈ σ.newTypes g, ∀ y, Refers g x y → y.index < σ.graph.symbols.size →
    (g.symbol y).data.resolution? = some .resolved

section Collected

variable (hσ : Reaches (startWith config reducer loader) σ)
  (hrun : Declaration.unit (σ.opening t) = .ok unit a)

include hσ hrun

theorem collected_opening : Collected (σ.opening t) unit a :=
  collected_of_unit (s := σ.opening t) (sound_of_reaches hσ).coherent hrun

theorem steps_collected : Steps ∅ σ.graph (a.entering unit).graph :=
  (collected_opening hσ hrun).onward.steps.tail (.amendScope (.marks _ _ _ _))

/-- The scope of the unit is new, and a root. -/
theorem unit_collected : unit = ⟨σ.graph.scopes.size⟩ ∧
    ((a.entering unit).graph.scope unit).kind = .unit := by
  have hcollected := collected_opening hσ hrun
  have henter : Steps ∅ a.graph (a.entering unit).graph := .single (.amendScope (.marks _ _ _ _))
  exact ⟨hcollected.unit_eq, by rw [henter.grows.kind hcollected.inside.lt_size, hcollected.kind]⟩

theorem collects_collected : Collects (fun _ => True) σ.graph (a.entering unit).graph :=
  (collected_opening hσ hrun).collects.trans (.amendScope ⟨rfl, rfl, rfl, .inl rfl, rfl, .inl rfl⟩)

/-- The members of a type that is declared in the unit are in a new scope. -/
theorem DeclaredIn.members_new {x : SymbolId} {m : ScopeId}
    (h : DeclaredIn (a.entering unit).graph unit x)
    (hm : ((a.entering unit).graph.symbol x).members? = some m) :
    σ.graph.scopes.size < m.index := by
  have hnested := ((instant_entered (sound_of_reaches hσ) hrun).coherent
    (sound_of_reaches hσ)).nested
  have hlt := hnested.parent_lt (h.parent m hm)
  rwa [(unit_collected hσ hrun).1] at hlt

/-- Collected types have not been linked to anything, nor anything to them. -/
theorem ground_of_collected (h : σ.Unordered unit (a.entering unit).graph)
    (hearlier : σ.EarlierResolved (a.entering unit).graph) :
    Ground σ.environment (σ.newTypes (a.entering unit).graph) (a.entering unit).graph := by
  have hs := sound_of_reaches hσ
  have horderly := orderly_of_reaches hσ
  have hinstant : σ.Instant (a.entering unit).graph := instant_entered hs hrun
  have hgrows := (steps_collected hσ hrun).grows
  have hsuper := (steps_collected hσ hrun).superScope?_eq
  have hcollects := collects_collected hσ hrun
  obtain ⟨hunit, hkind⟩ := unit_collected hσ hrun
  have hregular := hinstant.regular horderly
  have hcoherent := hinstant.coherent hs
  -- what was there before is none of the new types, and is linked to what was there before
  have hold : ∀ {x}, x.index < σ.graph.symbols.size → x ∉ σ.newTypes (a.entering unit).graph :=
    fun hlt hin => absurd hin.1 (Nat.not_le_of_lt hlt)
  have hroot : ((a.entering unit).graph.scope unit).kind.isRoot = true := by
    rw [hkind]
    rfl
  refine
    { coherent := hcoherent
      resident := hinstant.moment.resident hσ
      regular := hregular
      hinged := (hinstant.orderly horderly).hinged
      root := fun r hr => ⟨hold (lt_size_of_symbol_kind (hs.ready.root r hr).2 (by decide)),
        ((hinstant.ready hs).root r hr).2⟩
      kind := fun x hx => hx.2
      unresolved := fun x hx => hcollects.unresolved hx.1
      own := fun x hx u m hm hum => ?_
      level := fun x hx m hm => ⟨fun hfn => ?_, fun p hp => ?_⟩
      place := fun x hx => by rw [(h.declared x hx).declaring, hroot]
      plain := h.plain
      acyclic := h.acyclic
      outside := fun x hx y hy => ?_
      leads := fun {u v} hv => ?_
      chain := fun {q p} hq => ?_ }
  · have hnew := (h.declared x hx).members_new hσ hrun hm
    obtain ⟨host, hhost, -, hself⟩ := hregular.host hm
    obtain ⟨host', hhost', -, hself'⟩ := hregular.host hum
    rcases Nat.lt_or_ge u.index σ.graph.symbols.size with hlt | hge
    · -- members of an earlier type are in a scope that was there
      rw [hgrows.members? hlt] at hum
      obtain ⟨host, hhost, -⟩ := horderly.regular.host hum
      have hscope : m.index < σ.graph.scopes.size := by
        refine scope_lt_size fun hblank => ?_
        rw [hblank] at hhost
        cases hhost
      omega
    · have hx' := hself (hcollects.unresolved hx.1).origin
      have hu' := hself' (hcollects.unresolved hge).origin
      rw [hhost, Option.some.injEq] at hhost'
      rw [← hu', ← hx', hhost']
  · obtain ⟨host, hhost, -⟩ := hregular.host hm
    have hmember := hcoherent.nested.kind_of_member (q := m) (fun hnone => by
      rw [hnone] at hhost
      cases hhost)
    rw [hfn] at hmember
    cases hmember
  · rw [(h.declared x hx).parent m hm, Option.some.injEq] at hp
    rw [← hp, hroot]
  · rcases Nat.lt_or_ge y.index σ.graph.symbols.size with hlt | hge
    · exact .inr (hearlier x hx y hy hlt)
    · exact .inl ⟨hge, kind_of_refers hy⟩
  · rcases Nat.lt_or_ge u.index σ.graph.symbols.size with hlt | hge
    · have hties := hcollects.ties_eq hlt
      simp only [Symbol.ties, Prod.mk.injEq] at hties
      rw [Symbol.leads, hties.2.1, hties.2.2.1, List.mem_append, Option.mem_toList] at hv
      rcases hv with hv | hv
      · exact hold (lt_size_of_symbol_kind (horderly.regular.interfaces hv) (by decide))
      · exact hold (lt_size_of_symbol_kind (horderly.regular.super? hv) (by decide))
    · rw [Symbol.leads, (hcollects.unresolved hge).interfaces, (hcollects.unresolved hge).super?]
        at hv
      cases hv
  · rw [hsuper] at hq
    obtain ⟨v, hv, hm⟩ := horderly.regular.link hq
    have hlt := lt_size_of_members? hm
    exact ⟨v, hold hlt, by rw [hgrows.members? hlt, hm]⟩

end Collected

/-- Let the classes and interfaces of a unit be declared in the scope of the unit, use no traits and
not refer to each other in a circle, and let those of earlier units that they refer to have been
resolved. In whichever order they are resolved, and however often each of them is, the state is the
same in the end, but for the order of what has been reported. -/
theorem resolveTypes_order_irrel (hσ : Reaches (startWith config reducer loader) σ)
    (hrun : Declaration.unit (σ.opening t) = .ok unit a)
    (h : σ.Unordered unit (a.entering unit).graph)
    (hearlier : σ.EarlierResolved (a.entering unit).graph) {order order' : List SymbolId}
    (horder : ∀ x ∈ order, x ∈ σ.newTypes (a.entering unit).graph)
    (hsame : ∀ x, x ∈ order' ↔ x ∈ order) : ∃ g ds ds',
    order.forM (resolveType σ.environment) (a.entering unit) =
        .ok () ((a.entering unit).after g ds) ∧
      order'.forM (resolveType σ.environment) (a.entering unit) =
        .ok () ((a.entering unit).after g ds') ∧
      ds.Perm ds' :=
  resolveTypes_order (ground_of_collected hσ hrun h hearlier) horder hsame rfl

/-! ### Checking a unit -/

/-- Does an answer lead to a symbol that is older than the one with the given index? -/
def leadsBelow (i : Nat) : Lookup → Bool
  | .found y => y.index < i
  | _ => true

/-- Does an answer lead to a type that is new or has been resolved? -/
def leadsToResolved (σ : Session) (g : Graph) : Lookup → Bool
  | .found y =>
    σ.graph.symbols.size ≤ y.index || (g.symbol y).data.resolution? == some .resolved
  | _ => true

/-- Are the new types of a graph declared in the scope `unit`, without traits, and do they refer to
older types only? -/
def isLayered (σ : Session) (g : Graph) (unit : ScopeId) : Bool :=
  decide (∀ i < g.symbols.size, ⟨i⟩ ∈ σ.newTypes g →
    declaringScope g ⟨i⟩ = unit ∧
    (∀ m ∈ (g.symbol ⟨i⟩).members?, (g.scope m).parent = some unit) ∧
    (∀ data ∈ (g.symbol ⟨i⟩).class?, data.traits = []) ∧
    ∀ e ∈ references (g.symbol ⟨i⟩).data,
      leadsBelow i (g.meaning (declaringScope g ⟨i⟩) e.2.path) = true)

/-- Have the types of earlier units that the new ones refer to been resolved? -/
def refersToResolved (σ : Session) (g : Graph) : Bool :=
  decide (∀ i < g.symbols.size, ⟨i⟩ ∈ σ.newTypes g → ∀ e ∈ references (g.symbol ⟨i⟩).data,
    leadsToResolved σ g (g.meaning (declaringScope g ⟨i⟩) e.2.path) = true)

variable {g : Graph}

theorem lt_size_of_mem_newTypes {x : SymbolId} (h : x ∈ σ.newTypes g) :
    x.index < g.symbols.size := by
  obtain ⟨-, hkind | hkind⟩ := h
  all_goals exact lt_size_of_symbol_kind hkind (by decide)

theorem index_lt_of_refersWithin {x y : SymbolId} (h : σ.isLayered g unit = true)
    (href : RefersWithin (σ.newTypes g) g x y) : y.index < x.index := by
  obtain ⟨hx, -, kind, ref, hmem, hmeaning, -⟩ := href
  have hleads := (of_decide_eq_true h x.index (lt_size_of_mem_newTypes hx) hx).2.2.2 _ hmem
  rw [hmeaning] at hleads
  exact of_decide_eq_true hleads

theorem unordered_of_isLayered (h : σ.isLayered g unit = true) : σ.Unordered unit g := by
  have hnew := fun (x : SymbolId) (hx : x ∈ σ.newTypes g) =>
    of_decide_eq_true h x.index (lt_size_of_mem_newTypes hx) hx
  refine ⟨fun x hx => ⟨(hnew x hx).1, (hnew x hx).2.1⟩, fun x hx => (hnew x hx).2.2.1,
    fun x hcycle => ?_⟩
  have hbelow : ∀ y, Relation.TransGen (RefersWithin (σ.newTypes g) g) x y →
      y.index < x.index := by
    intro y hpath
    induction hpath with
    | single hlast => exact index_lt_of_refersWithin h hlast
    | tail _ hlast ih => exact (index_lt_of_refersWithin h hlast).trans ih
  exact Nat.lt_irrefl _ (hbelow x hcycle)

theorem earlierResolved_of_refersToResolved (h : σ.refersToResolved g = true) :
    σ.EarlierResolved g := by
  rintro x hx y ⟨kind, ref, href, hmeaning, -⟩ hy
  have hleads := of_decide_eq_true h x.index (lt_size_of_mem_newTypes hx) hx _ href
  rw [hmeaning, leadsToResolved, Bool.or_eq_true] at hleads
  rcases hleads with hle | hresolved
  · exact absurd (of_decide_eq_true hle) (Nat.not_le_of_lt hy)
  · exact eq_of_beq hresolved

/-- Does the collection of a unit come to an end, with the given outcome? -/
def collectsWith (σ : Session) (t : Tree) (outcome : ScopeId → Analysis → Bool) : Bool :=
  match Declaration.unit (σ.opening t) with
  | .ok unit a => outcome unit a
  | .error _ _ => false

theorem exists_of_collectsWith {outcome : ScopeId → Analysis → Bool}
    (h : σ.collectsWith t outcome = true) :
    ∃ unit a, Declaration.unit (σ.opening t) = .ok unit a ∧ outcome unit a = true := by
  unfold collectsWith at h
  split at h
  next unit a hrun => exact ⟨unit, a, hrun, h⟩
  next => cases h

/-- The state that the resolution of the types in `order` leads to. -/
def resolvedIn (σ : Session) (unit : ScopeId) (a : Analysis) (order : List SymbolId) : Analysis :=
  endOf (order.forM (resolveType σ.environment) (a.entering unit))

/-! ### Types on top of each other -/

/-- A class that others may refer to. -/
def publicType : Tree :=
  { file := "a.phs"
    nodes := #[{ kind := .classDecl { name := "P", mods := [.visible] } }, { kind := .unit [⟨0⟩] }]
    root := ⟨1⟩ }

/-- A class with an unknown superclass and one with an unknown hint, with an abstract class and an
interface between them. -/
def layeredTypes : Tree :=
  { file := "b.phs"
    nodes := #[{ kind := .classDecl { name := "K", super := some (.single "Missing") } },
      { kind := .fnDecl { name := some "f",
                          params := [{ name := "p", hint := some (.named (.single "K")) }] } },
      { kind := .interfaceDecl { name := "I", members := [⟨1⟩] } },
      { kind := .classDecl { name := "A", super := some (.single "P"),
                             implements := [.single "I"] } },
      { kind := .block [] },
      { kind := .fnDecl { name := some "f", mods := [.visible], body := some ⟨4⟩,
                          params := [{ name := "q", hint := some (.named (.single "L")) }] } },
      { kind := .classDecl { name := "C", super := some (.single "A"), members := [⟨5⟩] } },
      { kind := .unit [⟨0⟩, ⟨2⟩, ⟨3⟩, ⟨6⟩] }]
    root := ⟨7⟩ }

/-- The subclass comes first or late, one class comes twice, and the reports change places. The
superclass from the other unit is found in each case. -/
theorem resolveTypes_order_irrel_layeredTypes : ∃ σ unit a g ds ds',
    Reaches (startWith {} Reduce.node (.counting [])) σ ∧
      Declaration.unit (σ.opening layeredTypes) = .ok unit a ∧
      σ.Unordered unit (a.entering unit).graph ∧ σ.EarlierResolved (a.entering unit).graph ∧
      [⟨6⟩, ⟨2⟩, ⟨5⟩, ⟨1⟩].forM (resolveType σ.environment) (a.entering unit) =
        .ok () ((a.entering unit).after g ds) ∧
      [⟨1⟩, ⟨5⟩, ⟨6⟩, ⟨2⟩, ⟨5⟩].forM (resolveType σ.environment) (a.entering unit) =
        .ok () ((a.entering unit).after g ds') ∧
      superTarget? ((a.entering unit).after g ds) ⟨5⟩ = some ⟨0⟩ ∧ ds.Perm ds' ∧ ds ≠ ds' := by
  have hsame : ∀ x : SymbolId, x ∈ [⟨1⟩, ⟨5⟩, ⟨6⟩, ⟨2⟩, ⟨5⟩] ↔ x ∈ [⟨6⟩, ⟨2⟩, ⟨5⟩, ⟨1⟩] := by
    grind
  have hend : (start {}).yields publicType (fun _ _ σ => σ.collectsWith layeredTypes fun unit a =>
      σ.isLayered (a.entering unit).graph unit &&
      σ.refersToResolved (a.entering unit).graph &&
      decide ((∀ x ∈ [(⟨6⟩ : SymbolId), ⟨2⟩, ⟨5⟩, ⟨1⟩], x ∈ σ.newTypes (a.entering unit).graph) ∧
        superTarget? (σ.resolvedIn unit a [⟨6⟩, ⟨2⟩, ⟨5⟩, ⟨1⟩]) ⟨5⟩ = some ⟨0⟩ ∧
        (σ.resolvedIn unit a [⟨6⟩, ⟨2⟩, ⟨5⟩, ⟨1⟩]).log.diagnostics ≠
          (σ.resolvedIn unit a [⟨1⟩, ⟨5⟩, ⟨6⟩, ⟨2⟩, ⟨5⟩]).log.diagnostics)) = true := by
    decide +kernel
  obtain ⟨r, t', σ, hfirst, hcollects⟩ := exists_of_yields hend
  obtain ⟨unit, a, hrun, hcheck⟩ := exists_of_collectsWith hcollects
  rw [Bool.and_eq_true, Bool.and_eq_true] at hcheck
  obtain ⟨⟨hlayered, hresolved⟩, hrest⟩ := hcheck
  obtain ⟨hnew, hsuper, hdiffer⟩ := of_decide_eq_true hrest
  have hσ : Reaches (startWith {} Reduce.node (.counting [])) σ :=
    .single ⟨publicType, r, t', hfirst⟩
  have hunordered := unordered_of_isLayered hlayered
  have hearlier := earlierResolved_of_refersToResolved hresolved
  obtain ⟨g, ds, ds', hone, hother, hperm⟩ :=
    resolveTypes_order_irrel hσ hrun hunordered hearlier hnew hsame
  rw [resolvedIn, hone] at hsuper
  refine ⟨σ, unit, a, g, ds, ds', hσ, hrun, hunordered, hearlier, hone, hother, hsuper, hperm, ?_⟩
  rintro rfl
  exact hdiffer (by rw [resolvedIn, resolvedIn, hone, hother])

/-! ### Types that an earlier unit has left unresolved -/

/-- The module `m` in the body of a trait. The class `Y` is announced there and completed inside
`K`, so its members are in the scope of `K`, which inherits the class `H` from `B`. -/
def hiddenTypes : Tree :=
  { file := "a.phs"
    nodes := #[{ kind := .classDecl { name := "Y", mods := [.visible], incomplete := true } },
      { kind := .classDecl { name := "H", mods := [.visible] } },
      { kind := .classDecl { name := "B", mods := [.visible], members := [⟨1⟩] } },
      { kind := .fnDecl { name := some "f", mods := [.visible],
                          params := [{ name := "p", hint := some (.named (.single "H")) }] } },
      { kind := .classDecl { name := "Y", mods := [.visible], members := [⟨3⟩] } },
      { kind := .classDecl { name := "K", mods := [.visible], super := some (.single "B"),
                             members := [⟨4⟩] } },
      { kind := .moduleDecl (some (.single "m")) [⟨0⟩, ⟨2⟩, ⟨5⟩] },
      { kind := .traitDecl { name := "T", members := [⟨6⟩] } },
      { kind := .unit [⟨7⟩] }]
    root := ⟨8⟩ }

/-- A subclass of each of the two classes. -/
def subclasses : Tree :=
  { file := "b.phs"
    nodes := #[{ kind := .classDecl { name := "C", super := some ⟨["m", "Y"], false⟩ } },
      { kind := .classDecl { name := "D", super := some ⟨["m", "K"], false⟩ } },
      { kind := .unit [⟨0⟩, ⟨1⟩] }]
    root := ⟨2⟩ }

/-- The hint of `p` is found only if `K`, and with it the link to `B`, comes before `Y`. -/
theorem exists_hiddenTypes : ∃ σ unit a,
    Reaches (startWith {} Reduce.node (.counting [])) σ ∧
      Declaration.unit (σ.opening subclasses) = .ok unit a ∧
      σ.Unordered unit (a.entering unit).graph ∧
      (∀ x ∈ [⟨8⟩, ⟨9⟩], x ∈ σ.newTypes (a.entering unit).graph) ∧
      ((σ.resolvedIn unit a [⟨8⟩, ⟨9⟩]).graph.symbol ⟨7⟩).var?.bind (·.hint) =
        some (.named "H" none) ∧
      ((σ.resolvedIn unit a [⟨9⟩, ⟨8⟩]).graph.symbol ⟨7⟩).var?.bind (·.hint) =
        some (.named "H" (some ⟨3⟩)) := by
  have hend : (start {}).yields hiddenTypes (fun _ _ σ => σ.collectsWith subclasses fun unit a =>
      σ.isLayered (a.entering unit).graph unit &&
      decide ((∀ x ∈ [(⟨8⟩ : SymbolId), ⟨9⟩], x ∈ σ.newTypes (a.entering unit).graph) ∧
        ((σ.resolvedIn unit a [⟨8⟩, ⟨9⟩]).graph.symbol ⟨7⟩).var?.bind (·.hint) =
          some (.named "H" none) ∧
        ((σ.resolvedIn unit a [⟨9⟩, ⟨8⟩]).graph.symbol ⟨7⟩).var?.bind (·.hint) =
          some (.named "H" (some ⟨3⟩)))) = true := by decide +kernel
  obtain ⟨r, t', σ, hfirst, hcollects⟩ := exists_of_yields hend
  obtain ⟨unit, a, hrun, hcheck⟩ := exists_of_collectsWith hcollects
  obtain ⟨hlayered, hrest⟩ := (Bool.and_eq_true _ _).mp hcheck
  obtain ⟨hnew, hhints⟩ := of_decide_eq_true hrest
  exact ⟨σ, unit, a, .single ⟨hiddenTypes, r, t', hfirst⟩, hrun, unordered_of_isLayered hlayered,
    hnew, hhints⟩

/-- So the order makes a difference in general. -/
theorem not_resolveTypes_order_irrel_hiddenTypes :
    ¬ ∀ (config : Config) (reducer : Reducer) (loader : Loader) (σ : Session) (t : Tree)
      (unit : ScopeId) (a : Analysis), Reaches (startWith config reducer loader) σ →
      Declaration.unit (σ.opening t) = .ok unit a → σ.Unordered unit (a.entering unit).graph →
      ∀ order order' : List SymbolId, (∀ x ∈ order, x ∈ σ.newTypes (a.entering unit).graph) →
        (∀ x, x ∈ order' ↔ x ∈ order) → ∃ g ds ds',
        order.forM (resolveType σ.environment) (a.entering unit) =
            .ok () ((a.entering unit).after g ds) ∧
          order'.forM (resolveType σ.environment) (a.entering unit) =
            .ok () ((a.entering unit).after g ds') ∧
          ds.Perm ds' := by
  intro h
  obtain ⟨σ, unit, a, hσ, hrun, hunordered, hnew, hnone, hsome⟩ := exists_hiddenTypes
  have hsame : ∀ x : SymbolId, x ∈ [⟨9⟩, ⟨8⟩] ↔ x ∈ [⟨8⟩, ⟨9⟩] := by grind
  obtain ⟨g, ds, ds', hone, hother, -⟩ :=
    h {} Reduce.node (.counting []) σ subclasses unit a hσ hrun hunordered _ _ hnew hsame
  rw [resolvedIn, hone] at hnone
  rw [resolvedIn, hother] at hsome
  -- both runs end with the graph `g`, in which the hint has one target
  have hboth : some (TypeHint.named "H" none) = some (.named "H" (some ⟨3⟩)) :=
    hnone.symm.trans hsome
  cases hboth

end Session

end Scoping
