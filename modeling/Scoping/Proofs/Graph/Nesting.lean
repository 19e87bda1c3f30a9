import Mathlib.Logic.Relation
import Scoping.Graph.Module
import Scoping.Proofs.Graph.Partition

/-!
# How scopes are nested

Every scope but the global one is created inside a scope that is already there, so the parents of a
scope have smaller ids and the walk outward ends. `Graph.Nested` collects what creation guarantees
about the links between scopes, and `Graph.Inside` says that a scope belongs to some unit. The
global scope and the global modules, in which units are published, belong to none.

The fuelled functions `Graph.enclosing`, `Graph.unitOf?` and `Graph.rootOf` are tied to the walk
outward here; nothing later mentions the fuel.
-/

namespace Scoping

/-- What ties a scope to the others from its creation on. -/
def Scope.links (s : Scope) :
    ScopeKind × Option ScopeId × Option ScopeId × Option ScopeId × Bool :=
  (s.kind, s.parent, s.pairing)

namespace Graph

variable {g : Graph}

/-! ### Links -/

/-- What the creation of scopes guarantees about the links between them. -/
structure Nested (g : Graph) : Prop where
  partitioned : g.Partitioned
  parent_lt : ∀ {p q}, (g.scope q).parent = some p → p.index < q.index
  parent_of_outer : ∀ {p q}, (g.scope q).outer = some p →
    (g.scope q).parent = some p ∧ (g.scope q).kind = .inner
  /-- Units and modules are nested in roots only. -/
  isRoot_parent : ∀ {p q}, (g.scope q).parent = some p → (g.scope q).kind.isRoot = true →
    (g.scope p).kind.isRoot = true
  kind_of_member : ∀ {q}, (g.scope q).member ≠ none → (g.scope q).kind = .member
  module : ∀ {p name m}, (name, m) ∈ (g.scope p).modules.entries →
    (g.scope m).parent = some p ∧ (g.scope m).kind = .module
  kind_global : (g.scope global).kind = .global

/-- `p` is `q` or encloses it. -/
def Outward (g : Graph) (q p : ScopeId) : Prop :=
  Relation.ReflTransGen (fun a b => g.outward? a = some b) q p

/-- Does a scope belong to a unit? -/
def Inside (g : Graph) (p : ScopeId) : Prop :=
  ∃ unit, g.Outward (g.owner p) unit ∧ (g.scope unit).kind = .unit

/-- The scopes that a unit may declare symbols in. -/
structure Place (g : Graph) (p : ScopeId) : Prop where
  inside : g.Inside p
  outer_eq_none : (g.scope p).outer = none

variable {p q : ScopeId}

theorem Place.owner_eq (h : g.Place p) : g.owner p = p :=
  owner_of_outer_eq_none h.outer_eq_none

theorem lt_size_of_kind (h : (g.scope q).kind ≠ .block) : q.index < g.scopes.size :=
  scope_lt_size fun hb => h (by rw [hb]; rfl)

theorem lt_size_of_parent (h : (g.scope q).parent = some p) : q.index < g.scopes.size :=
  scope_lt_size fun hb => by simp [hb, Scope.blank] at h

theorem outward?_eq_some (h : g.outward? q = some p) :
    ∃ r, (g.scope q).parent = some r ∧ g.owner r = p := by
  simpa [outward?] using h

theorem Inside.of_owner_eq (h : g.Inside p) (howner : g.owner q = g.owner p) : g.Inside q := by
  rwa [Inside, howner]

theorem Inside.lt_size (h : g.Inside p) : p.index < g.scopes.size := by
  refine Nat.lt_of_not_le fun hle => ?_
  -- an id that was never handed out owns itself, has no parent and is no unit
  have hblank : g.scope p = .blank := scope_of_size_le hle
  have howner : g.owner p = p := owner_of_outer_eq_none (by rw [hblank]; rfl)
  obtain ⟨unit, hout, hkind⟩ := h
  rw [howner] at hout
  rcases Relation.ReflTransGen.cases_head hout with rfl | ⟨r, hstep, -⟩
  · rw [hblank] at hkind
    cases hkind
  · obtain ⟨q, hparent, -⟩ := outward?_eq_some hstep
    rw [hblank] at hparent
    cases hparent

/-- A scope that is no unit is inside a unit only through its parent. -/
theorem Inside.exists_parent (h : g.Inside q) (hkind : (g.scope q).kind ≠ .unit)
    (houter : (g.scope q).outer = none) : ∃ p, (g.scope q).parent = some p ∧ g.Inside p := by
  obtain ⟨unit, hout, hunit⟩ := h
  rw [owner_of_outer_eq_none houter] at hout
  rcases Relation.ReflTransGen.cases_head hout with rfl | ⟨r, hstep, hrest⟩
  · exact absurd hunit hkind
  · obtain ⟨p, hparent, rfl⟩ := outward?_eq_some hstep
    exact ⟨p, hparent, unit, hrest, hunit⟩

namespace Nested

variable (hg : g.Nested)

include hg

theorem owner_le (p : ScopeId) : (g.owner p).index ≤ p.index := by
  cases h : (g.scope p).outer with
  | none => exact Nat.le_of_eq (by rw [owner_of_outer_eq_none h])
  | some q =>
    rw [owner_of_outer_eq_some h]
    exact Nat.le_of_lt (hg.parent_lt (hg.parent_of_outer h).1)

theorem outward?_lt (h : g.outward? q = some p) : p.index < q.index := by
  obtain ⟨r, hr, rfl⟩ := outward?_eq_some h
  exact Nat.lt_of_le_of_lt (hg.owner_le r) (hg.parent_lt hr)

theorem outward_le (h : g.Outward q p) : p.index ≤ q.index := by
  induction h with
  | refl => exact Nat.le_refl _
  | tail _ hstep ih => exact Nat.le_trans (Nat.le_of_lt (hg.outward?_lt hstep)) ih

theorem inner_gt (h : (g.scope p).inner = some q) : p.index < q.index :=
  hg.parent_lt (hg.parent_of_outer (hg.partitioned.outer_of_inner h)).1

theorem outer_of_kind (h : (g.scope q).kind ≠ .inner) : (g.scope q).outer = none :=
  Option.eq_none_iff_forall_ne_some.mpr fun _ houter => h (hg.parent_of_outer houter).2

theorem outer_global : (g.scope global).outer = none :=
  hg.outer_of_kind fun h => by rw [hg.kind_global] at h; cases h

/-- The scopes on the walk outward own themselves. -/
theorem outer_of_outward (h : g.Outward q p) (hq : (g.scope q).outer = none) :
    (g.scope p).outer = none := by
  induction h with
  | refl => exact hq
  | tail _ hstep _ =>
    obtain ⟨r, -, rfl⟩ := outward?_eq_some hstep
    exact hg.partitioned.outer_owner r

theorem member_of_isRoot (h : (g.scope q).kind.isRoot = true) : (g.scope q).member = none := by
  cases hm : (g.scope q).member with
  | none => rfl
  | some info =>
    rw [hg.kind_of_member (by simp [hm])] at h
    cases h

/-- Walking outward from a root, all scopes are roots. -/
theorem isRoot_of_outward (h : g.Outward q p)
    (hq : (g.scope q).kind.isRoot = true) : (g.scope p).kind.isRoot = true := by
  induction h with
  | refl => exact hq
  | tail _ hstep ih =>
    obtain ⟨r, hparent, rfl⟩ := outward?_eq_some hstep
    have hroot := hg.isRoot_parent hparent ih
    have houter : (g.scope r).outer = none :=
      hg.outer_of_kind fun hkind => by rw [hkind] at hroot; cases hroot
    rwa [owner_of_outer_eq_none houter]

/-- A scope inside another one, as parents go, belongs to the same unit. -/
theorem inside_of_parent (h : (g.scope q).parent = some p) (hp : g.Inside p) : g.Inside q := by
  cases houter : (g.scope q).outer with
  | none =>
    obtain ⟨unit, hout, hkind⟩ := hp
    refine ⟨unit, ?_, hkind⟩
    rw [owner_of_outer_eq_none houter]
    exact .head (by rw [outward?, h, Option.map_some]) hout
  | some r =>
    have hr : r = p := by
      have := (hg.parent_of_outer houter).1
      rw [h, Option.some.injEq] at this
      exact this.symm
    refine hp.of_owner_eq ?_
    rw [owner_of_outer_eq_some houter, hr,
      owner_of_outer_eq_none (hg.partitioned.owner_outer (hr ▸ houter))]

/-- The global scope belongs to no unit. -/
theorem not_inside_global : ¬ g.Inside global := by
  intro h
  have houter : (g.scope global).outer = none :=
    hg.outer_of_kind fun hkind => by rw [hg.kind_global] at hkind; cases hkind
  obtain ⟨p, hparent, -⟩ := h.exists_parent
    (fun hkind => by rw [hg.kind_global] at hkind; cases hkind) houter
  exact absurd (hg.parent_lt hparent) (Nat.not_lt_zero _)

/-- Modules of a scope belong to the unit of the scope, if any. -/
theorem inside_module_iff {m : ScopeId} (hparent : (g.scope m).parent = some p)
    (hkind : (g.scope m).kind = .module) : g.Inside m ↔ g.Inside p := by
  refine ⟨fun hm => ?_, hg.inside_of_parent hparent⟩
  obtain ⟨r, hr, hinside⟩ := hm.exists_parent (fun hu => by rw [hkind] at hu; cases hu)
    (hg.outer_of_kind fun hi => by rw [hkind] at hi; cases hi)
  rw [hparent, Option.some.injEq] at hr
  rwa [hr]

end Nested

/-! ### The walk outward as a list -/

theorem outward_of_mem_enclosingWithin : ∀ {fuel : Nat} {q p : ScopeId},
    p ∈ g.enclosingWithin fuel q → g.Outward q p
  | 0, _, _, h => by cases h
  | fuel + 1, q, p, h => by
    rw [enclosingWithin] at h
    rcases List.mem_cons.mp h with rfl | h
    · exact .refl
    · split at h
      next r hr => exact .head hr (outward_of_mem_enclosingWithin h)
      next => cases h

/-- Of two scopes on the walk, the first with a property is not outside the other. -/
theorem outward_of_find? {P : ScopeId → Bool} {first u : ScopeId} : ∀ {fuel : Nat} {q : ScopeId},
    (g.enclosingWithin fuel q).find? P = some first → u ∈ g.enclosingWithin fuel q → P u = true →
    g.Outward first u
  | 0, _, hfind, _, _ => by cases hfind
  | fuel + 1, q, hfind, hu, hP => by
    have houtward := outward_of_mem_enclosingWithin hu
    rw [enclosingWithin] at hfind hu
    rw [List.find?_cons] at hfind
    split at hfind
    next =>
      cases hfind
      exact houtward
    next hq =>
      rcases List.mem_cons.mp hu with rfl | hu
      · rw [hP] at hq
        cases hq
      · split at hfind
        next r hr =>
          rw [hr] at hu
          exact outward_of_find? hfind hu hP
        next => cases hfind

namespace Nested

variable (hg : g.Nested)

include hg

/-- The walk ends before the fuel does. -/
theorem mem_enclosingWithin : ∀ {fuel : Nat} {q p : ScopeId}, q.index < fuel →
    g.Outward q p → p ∈ g.enclosingWithin fuel q
  | 0, _, _, hfuel, _ => absurd hfuel (Nat.not_lt_zero _)
  | fuel + 1, q, p, hfuel, h => by
    rw [enclosingWithin]
    rcases Relation.ReflTransGen.cases_head h with rfl | ⟨r, hstep, hrest⟩
    · exact List.mem_cons_self
    · rw [hstep]
      have hlt := hg.outward?_lt hstep
      exact List.mem_cons_of_mem _ (mem_enclosingWithin (by omega) hrest)

theorem mem_enclosing_iff (hq : q.index < g.scopes.size) :
    p ∈ g.enclosing q ↔ g.Outward (g.owner q) p :=
  ⟨outward_of_mem_enclosingWithin,
    hg.mem_enclosingWithin (Nat.lt_of_le_of_lt (hg.owner_le q) hq)⟩

/-- A scope of a unit finds its unit. -/
theorem unitOf?_of_inside (h : g.Inside p) :
    ∃ unit, g.unitOf? p = some unit ∧ (g.scope unit).kind = .unit ∧
      g.Outward (g.owner p) unit := by
  obtain ⟨u, hout, hkind⟩ := h
  have hmem := (hg.mem_enclosing_iff (Inside.lt_size ⟨u, hout, hkind⟩)).mpr hout
  cases hfind : g.unitOf? p with
  | none =>
    rw [unitOf?, List.find?_eq_none] at hfind
    exact absurd hkind (by simpa using hfind u hmem)
  | some unit =>
    rw [unitOf?] at hfind
    exact ⟨unit, rfl, by simpa using List.find?_some hfind,
      outward_of_mem_enclosingWithin (List.mem_of_find?_eq_some hfind)⟩

/-- The nearest root around a scope of a unit is a root inside that unit. -/
theorem rootOf_of_inside (h : g.Inside p) :
    g.Place (g.rootOf p) ∧ (g.scope (g.rootOf p)).kind.isRoot = true ∧
      g.Outward (g.owner p) (g.rootOf p) := by
  obtain ⟨u, hout, hkind⟩ := h
  have hmem := (hg.mem_enclosing_iff (Inside.lt_size ⟨u, hout, hkind⟩)).mpr hout
  have howner : g.owner u = u := owner_of_outer_eq_none
    (hg.outer_of_outward hout (hg.partitioned.outer_owner p))
  have hroot : g.isRoot u = true := by rw [isRoot, howner, hkind]; rfl
  cases hfind : (g.enclosing p).find? g.isRoot with
  | none => exact absurd hroot (by simpa using List.find?_eq_none.mp hfind u hmem)
  | some root =>
    have heq : g.rootOf p = root := by simp only [rootOf, hfind]
    rw [heq]
    have hrootOut : g.Outward (g.owner p) root :=
      outward_of_mem_enclosingWithin (List.mem_of_find?_eq_some hfind)
    have houter := hg.outer_of_outward hrootOut (hg.partitioned.outer_owner p)
    have hself : g.owner root = root := owner_of_outer_eq_none houter
    have hisRoot := List.find?_some hfind
    rw [isRoot, hself] at hisRoot
    refine ⟨⟨⟨u, ?_, hkind⟩, houter⟩, hisRoot, hrootOut⟩
    rw [hself]
    exact outward_of_find? hfind hmem hroot

end Nested

/-! ### Growth -/

/-- No scope is taken away, and the links of a scope stay as they were created. -/
structure Extends (g g' : Graph) : Prop where
  size_le : g.scopes.size ≤ g'.scopes.size
  links : ∀ {q}, q.index < g.scopes.size → (g'.scope q).links = (g.scope q).links

namespace Extends

variable {g' g'' : Graph}

protected theorem refl : g.Extends g := ⟨Nat.le_refl _, fun _ => rfl⟩

protected theorem trans (h : g.Extends g') (h' : g'.Extends g'') : g.Extends g'' where
  size_le := Nat.le_trans h.size_le h'.size_le
  links hq := (h'.links (Nat.lt_of_lt_of_le hq h.size_le)).trans (h.links hq)

/-- Updates of existing scopes that spare the links. -/
theorem of_eq (hsize : g'.scopes.size = g.scopes.size)
    (h : ∀ q, (g'.scope q).links = (g.scope q).links) : g.Extends g' :=
  ⟨Nat.le_of_eq hsize.symm, fun _ => h _⟩

theorem newScope (kind : ScopeKind) (parent : Option ScopeId) :
    g.Extends (g.newScope kind parent).2 where
  size_le := by
    rw [size_scopes_newScope]
    split <;> omega
  links hq := by rw [scope_newScope_of_lt _ _ _ hq]

variable (h : g.Extends g')

include h

theorem kind (hq : q.index < g.scopes.size) : (g'.scope q).kind = (g.scope q).kind :=
  congrArg (·.1) (h.links hq)

theorem parent (hq : q.index < g.scopes.size) : (g'.scope q).parent = (g.scope q).parent :=
  congrArg (·.2.1) (h.links hq)

theorem inner (hq : q.index < g.scopes.size) : (g'.scope q).inner = (g.scope q).inner :=
  congrArg (·.2.2.1) (h.links hq)

theorem outer (hq : q.index < g.scopes.size) : (g'.scope q).outer = (g.scope q).outer :=
  congrArg (·.2.2.2.1) (h.links hq)

theorem owner_eq (hq : q.index < g.scopes.size) : g'.owner q = g.owner q := by
  rw [owner, owner, h.outer hq]

variable (hg : g.Nested)

include hg

theorem outward?_eq (hq : q.index < g.scopes.size) : g'.outward? q = g.outward? q := by
  rw [outward?, outward?, h.parent hq]
  cases hparent : (g.scope q).parent with
  | none => rfl
  | some p =>
    have hp : p.index < g.scopes.size := Nat.lt_trans (hg.parent_lt hparent) hq
    rw [Option.map_some, Option.map_some, h.owner_eq hp]

/-- The walk outward from an old scope is the old walk. -/
theorem outward_iff (hq : q.index < g.scopes.size) : g'.Outward q p ↔ g.Outward q p := by
  constructor
  · intro hout
    induction hout using Relation.ReflTransGen.head_induction_on with
    | refl => exact .refl
    | head hstep _ ih =>
      rw [h.outward?_eq hg hq] at hstep
      exact .head hstep (ih (Nat.lt_trans (hg.outward?_lt hstep) hq))
  · intro hout
    induction hout using Relation.ReflTransGen.head_induction_on with
    | refl => exact .refl
    | head hstep _ ih =>
      refine .head ?_ (ih (Nat.lt_trans (hg.outward?_lt hstep) hq))
      rw [h.outward?_eq hg hq, hstep]

theorem inside_iff (hp : p.index < g.scopes.size) : g'.Inside p ↔ g.Inside p := by
  have howner := Nat.lt_of_le_of_lt (hg.owner_le p) hp
  simp only [Inside, h.owner_eq hp, h.outward_iff hg howner]
  refine exists_congr fun unit => and_congr_right fun hout => ?_
  rw [h.kind (Nat.lt_of_le_of_lt (hg.outward_le hout) howner)]

theorem inside (hp : g.Inside p) : g'.Inside p :=
  (h.inside_iff hg hp.lt_size).mpr hp

theorem place (hp : g.Place p) : g'.Place p :=
  ⟨h.inside hg hp.inside, by rw [h.outer hp.inside.lt_size, hp.outer_eq_none]⟩

end Extends

/-! ### Keeping the nesting -/

theorem nested_initial : initial.Nested := by
  have hscope : ∀ q, (initial.scope q).parent = none ∧ (initial.scope q).outer = none ∧
      (initial.scope q).member = none ∧ (initial.scope q).modules = {} := by
    intro q
    obtain ⟨kind, active, hq⟩ := scope_initial q
    rw [hq]
    exact ⟨rfl, rfl, rfl, rfl⟩
  refine ⟨partitioned_initial, fun {p q} h => ?_, fun {p q} h => ?_, fun {p q} h => ?_,
    fun {q} h => ?_, fun {p name m} h => ?_, rfl⟩
  · simp [hscope] at h
  · simp [hscope] at h
  · simp [hscope] at h
  · simp [hscope] at h
  · rw [(hscope p).2.2.2] at h
    cases h

/-- Updates of existing scopes may add modules that are where they belong. -/
theorem Nested.congr {g' : Graph} (hg : g.Nested)
    (h : ∀ q, (g'.scope q).links = (g.scope q).links)
    (hmember : ∀ q, (g'.scope q).member ≠ none → (g.scope q).kind = .member)
    (hmodule : ∀ p name m, (name, m) ∈ (g'.scope p).modules.entries →
      (name, m) ∈ (g.scope p).modules.entries ∨
        (g.scope m).parent = some p ∧ (g.scope m).kind = .module) : g'.Nested := by
  have hkind : ∀ q, (g'.scope q).kind = (g.scope q).kind := fun q => congrArg (·.1) (h q)
  have hparent : ∀ q, (g'.scope q).parent = (g.scope q).parent := fun q => congrArg (·.2.1) (h q)
  have houter : ∀ q, (g'.scope q).outer = (g.scope q).outer :=
    fun q => congrArg (·.2.2.2.1) (h q)
  refine ⟨hg.partitioned.congr fun q => congrArg (·.2.2) (h q), fun h => ?_, fun h => ?_,
    fun h => ?_, fun h => ?_, fun h => ?_, by rw [hkind, hg.kind_global]⟩
  · rw [hparent] at h
    exact hg.parent_lt h
  · rw [houter] at h
    rw [hparent, hkind]
    exact hg.parent_of_outer h
  · rw [hparent] at h
    rw [hkind, hkind]
    exact hg.isRoot_parent h
  · rw [hkind]
    exact hmember _ h
  · rw [hparent, hkind]
    exact (hmodule _ _ _ h).elim hg.module id

theorem Nested.of_scope_eq {g' : Graph} (hg : g.Nested) (h : ∀ q, g'.scope q = g.scope q) :
    g'.Nested :=
  hg.congr (fun q => by rw [h]) (fun q hq => hg.kind_of_member (h q ▸ hq))
    fun p _ _ hm => .inl (h p ▸ hm)

/-- Updates of a scope that spare its links. -/
theorem Nested.modifyScope (hg : g.Nested) {f : Scope → Scope}
    (hlinks : (f (g.scope p)).links = (g.scope p).links)
    (hmember : (f (g.scope p)).member ≠ none → (g.scope p).member ≠ none)
    (hmodule : ∀ name m, (name, m) ∈ (f (g.scope p)).modules.entries →
      (name, m) ∈ (g.scope p).modules.entries ∨
        (g.scope m).parent = some p ∧ (g.scope m).kind = .module) : (g.modifyScope p f).Nested := by
  refine hg.congr (scope_modifyScope_rel (fun s s' => s'.links = s.links) (fun _ => rfl) hlinks)
    (fun q hq => hg.kind_of_member ?_) fun q name m hm => ?_
  · exact scope_modifyScope_rel (fun s s' => s'.member ≠ none → s.member ≠ none) (fun _ h => h)
      hmember q hq
  · rw [scope_modifyScope] at hm
    split at hm
    next hq =>
      rw [hq.1] at hm ⊢
      exact hmodule name m hm
    next => exact .inl hm

/-- A scope that is opened is numbered above its parent, and its partition above itself. -/
theorem Nested.newScope (hg : g.Nested) {kind : ScopeKind} {parent : ScopeId}
    (hparent : parent.index < g.scopes.size)
    (hroot : kind.isRoot = true → (g.scope parent).kind.isRoot = true) :
    (g.newScope kind (some parent)).2.Nested := by
  have hold : ∀ {q : ScopeId}, q.index < g.scopes.size →
      (g.newScope kind (some parent)).2.scope q = g.scope q := fun h => scope_newScope_of_lt g _ _ h
  have hmember := scope_newScope_congr g Scope.member (fun _ _ _ _ _ => rfl) kind (some parent)
  have hmodules := scope_newScope_congr g Scope.modules (fun _ _ _ _ _ => rfl) kind (some parent)
  refine ⟨hg.partitioned.newScope _ _, fun {p q} h => ?_, fun {p q} h => ?_, fun {p q} h hq => ?_,
    fun {q} h => ?_, fun {p name m} h => ?_, ?_⟩
  · rw [scope_newScope] at h
    split at h
    next hq =>
      cases h
      omega
    next =>
      split at h
      next hq =>
        cases h
        exact Nat.lt_of_lt_of_eq (Nat.lt_succ_self _) hq.2.symm
      next => exact hg.parent_lt h
  · rw [scope_newScope] at h ⊢
    split at h
    · cases h
    next hq =>
      split at h
      next hq' =>
        cases h
        rw [if_neg hq, if_pos hq']
        exact ⟨rfl, rfl⟩
      next hq' =>
        rw [if_neg hq, if_neg hq']
        exact hg.parent_of_outer h
  · rw [scope_newScope] at h hq
    split at h
    next hnew =>
      cases h
      rw [if_pos hnew] at hq
      rw [hold hparent]
      exact hroot hq
    next hnew =>
      split at h
      next hinner =>
        rw [if_neg hnew, if_pos hinner] at hq
        cases hq
      next hinner =>
        rw [if_neg hnew, if_neg hinner] at hq
        have hp := Nat.lt_trans (hg.parent_lt h) (lt_size_of_parent h)
        rw [hold hp]
        exact hg.isRoot_parent h hq
  · rw [hmember] at h
    have hq : q.index < g.scopes.size := scope_lt_size fun hb => h (by rw [hb]; rfl)
    rw [hold hq]
    exact hg.kind_of_member h
  · rw [hmodules] at h
    obtain ⟨hp, hk⟩ := hg.module h
    rw [hold (lt_size_of_parent hp)]
    exact ⟨hp, hk⟩
  · rw [hold (lt_size_of_kind (by rw [hg.kind_global]; exact fun h => nomatch h)), hg.kind_global]

theorem Nested.newMemberScope (hg : g.Nested) (host : SymbolId) {parent : ScopeId}
    (hparent : parent.index < g.scopes.size) : (g.newMemberScope host parent).2.Nested := by
  have hnew : (g.newScope .member (some parent)).2.Nested :=
    hg.newScope hparent fun h => nomatch h
  have hmodules : ∀ q, ((g.newMemberScope host parent).2.scope q).modules =
      ((g.newScope .member (some parent)).2.scope q).modules :=
    fun q => scope_modifyScope_congr Scope.modules _ _ fun _ => rfl
  -- only the new scope gets extras, and it is a member scope
  have hmember : ∀ q, ((g.newMemberScope host parent).2.scope q).member ≠ none →
      ((g.newScope .member (some parent)).2.scope q).kind = .member := by
    intro q hq
    simp only [Graph.newMemberScope, scope_modifyScope] at hq
    split at hq
    next h =>
      rw [h.1, newScope_fst, scope_newScope, if_pos rfl]
    next => exact hnew.kind_of_member hq
  exact hnew.congr (fun _ => scope_modifyScope_congr Scope.links _ _ fun _ => rfl) hmember
    fun p name m h => .inl (hmodules p ▸ h)

end Graph

end Scoping
