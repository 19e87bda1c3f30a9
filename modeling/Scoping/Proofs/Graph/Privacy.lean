import Mathlib.Tactic.MkIffOfInductiveProp
import Scoping.Proofs.Graph.Search
import Scoping.Proofs.Graph.Shelter

/-!
# Private symbols and searches

A symbol is private to a unit, module or type if it carries the flag and the scope owns it, be it in
its partition or in a slot. Searches find such a symbol only while its scope is active, and never
through a subclass. The proof follows the two kinds of searches: plain names, which go outward scope
by scope and up the superclasses of each (`Graph.Finds`), and paths, which go down through modules
and along imports.
-/

namespace Scoping

namespace Graph

variable {g : Graph} {x : SymbolId}

/-! ### Searches as trails -/

/-- The scopes that a member search looks at, with the question whether it has come through a
subclass. -/
inductive Climbs (g : Graph) (start : ScopeId) (viaSuper : Bool) : ScopeId → Bool → Prop where
  | here : Climbs g start viaSuper start viaSuper
  | super {p q : ScopeId} {b : Bool} : Climbs g start viaSuper p b → g.superScope? p = some q →
    Climbs g start viaSuper q true

/-- The scopes that a search goes on to from `start`, superclasses aside. -/
def Walks (g : Graph) : ScopeId → ScopeId → Prop :=
  Relation.ReflTransGen fun p q =>
    (g.scope p).sealed = false ∧ (g.scope p).parent = some q ∨ (g.scope p).delegate = some q

/-- A scope on the way of a member search from `start` answers with the symbol, and `crossed` tells
whether the search has come there through a subclass. -/
def FindsMember (g : Graph) (start : ScopeId) (name : String) (ns : Option Namespace)
    (viaSuper : Bool) (x : SymbolId) (crossed : Bool) : Prop :=
  ∃ p, g.Climbs start viaSuper p crossed ∧ g.searchOwn p name ns crossed = .found x

/-- A scope on the way of a search from `start` answers with the symbol. -/
def Finds (g : Graph) (start : ScopeId) (name : String) (ns : Option Namespace) (x : SymbolId)
    (crossed : Bool) : Prop :=
  ∃ p, g.Walks start p ∧ g.FindsMember p name ns false x crossed

theorem orElse_eq_found {first : Lookup} {second : Unit → Lookup}
    (h : first.orElse second = .found x) : first = .found x ∨ second () = .found x := by
  cases first with
  | notFound => exact .inr h
  | _ => exact .inl h

variable {p q : ScopeId}

theorem Climbs.head {r : ScopeId} {b viaSuper : Bool} (h : g.superScope? p = some q)
    (hclimbs : g.Climbs q true r b) : g.Climbs p viaSuper r b := by
  induction hclimbs with
  | here => exact .super .here h
  | super _ hsuper ih => exact .super ih hsuper

/-- Once a search has come through a subclass, it stays so. -/
theorem Climbs.eq_true {b : Bool} (h : g.Climbs p true q b) : b = true := by
  cases h with
  | here => rfl
  | super => rfl

/-- A member search answers with what a scope on its way answers. -/
theorem findsMember_of_searchMember {name : String} {ns : Option Namespace} :
    ∀ (fuel : Nat) {p : ScopeId} {viaSuper : Bool},
      g.searchMember name ns fuel p viaSuper = .found x →
      ∃ crossed, g.FindsMember p name ns viaSuper x crossed
  | 0, _, _, h => nomatch h
  | fuel + 1, p, viaSuper, h => by
    rcases orElse_eq_found h with h | h
    · exact ⟨viaSuper, p, .here, h⟩
    · split at h
      next parent hsuper =>
        obtain ⟨b, q, hclimbs, hfound⟩ := findsMember_of_searchMember fuel h
        exact ⟨b, q, .head hsuper hclimbs, hfound⟩
      next => cases h

/-- A search answers with what a scope on its way answers. -/
theorem finds_of_search {name : String} {ns : Option Namespace} :
    ∀ (fuel : Nat) {start : ScopeId}, g.search name ns fuel start = .found x →
      ∃ crossed, g.Finds start name ns x crossed
  | 0, _, h => nomatch h
  | fuel + 1, start, h => by
    -- what is found from the next scope on is found from here
    have hnext : ∀ next, ((g.scope start).sealed = false ∧ (g.scope start).parent = some next ∨
        (g.scope start).delegate = some next) → g.search name ns fuel next = .found x →
        ∃ crossed, g.Finds start name ns x crossed := by
      intro next hlink hsearch
      obtain ⟨crossed, p, hwalks, hrest⟩ := finds_of_search fuel hsearch
      exact ⟨crossed, p, .head hlink hwalks, hrest⟩
    rcases orElse_eq_found h with h | h
    · obtain ⟨crossed, hfinds⟩ := findsMember_of_searchMember _ h
      exact ⟨crossed, start, .refl, hfinds⟩
    · rcases orElse_eq_found h with h | h
      · split at h
        next parent hparent =>
          split at hparent
          · cases hparent
          next hsealed => exact hnext parent (.inl ⟨by simpa using hsealed, hparent⟩) h
        next => cases h
      · split at h
        next delegate hdelegate => exact hnext delegate (.inr hdelegate) h
        next => cases h

/-! ### What a scope discloses -/

/-- The symbol is private to the unit, module or type `p`. -/
@[mk_iff privateTo_iff]
structure PrivateTo (g : Graph) (x : SymbolId) (p : ScopeId) : Prop where
  isPrivate : (g.symbol x).flags.isPrivate = true
  owned : ∃ q, (g.symbol x).scope = some q ∧ g.owner q = p
  isPartitioned : (g.scope p).kind.isPartitioned = true

/-- A search may answer with the symbol: a scope that it is private to is active, and the search has
not come through a subclass. -/
def Accessible (g : Graph) (x : SymbolId) (crossed : Bool) : Prop :=
  ∀ p, g.PrivateTo x p → g.isActive p = true ∧ crossed = false

theorem PrivateTo.eq_of_scope (h : g.PrivateTo x p)
    (hscope : (g.symbol x).scope = some q) : p = g.owner q := by
  obtain ⟨r, hr, rfl⟩ := h.owned
  rw [hscope, Option.some.injEq] at hr
  rw [hr]

theorem Accessible.direct {crossed : Bool} (h : g.Accessible x crossed) :
    g.Accessible x false :=
  fun p hp => ⟨(h p hp).1, rfl⟩

theorem accessible_of_isClosed {viaSuper : Bool} (hopen : ¬ isClosed (g.scope p) viaSuper = true)
    (hp : ∀ q, g.PrivateTo x q → q = p) : g.Accessible x viaSuper := by
  intro q hq
  rw [hp q hq]
  simpa [isClosed, isActive, and_comm] using hopen

theorem restrict_eq_found {s : Scope} {y : SymbolId} (h : restrict s y = .found x) : y = x := by
  have hsymbol := symbol?_restrict s y
  rw [h] at hsymbol
  exact (Option.some.inj hsymbol).symm

namespace Discreet

variable (hd : g.Discreet) (hg : g.Coherent)

include hd hg

variable {name : String} {ns : Namespace} {viaSuper : Bool}

/-- What a scope lists itself is not private to any scope with a partition. -/
theorem not_privateTo_of_get? (houter : (g.scope p).outer = none)
    (h : (g.scope p).table.get? ns name = some x) : ¬ g.PrivateTo x q := by
  intro hx
  obtain ⟨hinside, hinner⟩ := hd.sheltered.entry h hx.isPrivate houter
  have hq : q = p := by
    rw [hx.eq_of_scope (hg.home hinside h), owner_of_outer_eq_none houter]
  exact hd.linked.inner (hq ▸ hx.isPartitioned) hinner

/-- What a partition lists is private to its owner, if it is private at all. -/
theorem eq_of_privateTo_of_inner {inner : ScopeId} (hinner : (g.scope p).inner = some inner)
    (h : (g.scope inner).table.get? ns name = some x) (hx : g.PrivateTo x q) : q = p := by
  have houter := hg.nested.partitioned.outer_of_inner hinner
  have hinside := hd.sheltered.partition h (by rw [houter]; simp)
  rw [hx.eq_of_scope (hg.home hinside h), owner_of_outer_eq_some houter]

/-- One scope on the way of a search. -/
theorem accessible_of_searchOwn {ns : Option Namespace} (houter : (g.scope p).outer = none)
    (h : g.searchOwn p name ns viaSuper = .found x) : g.Accessible x viaSuper := by
  unfold searchOwn at h
  dsimp only at h
  split at h
  next found hfound =>
    obtain rfl := restrict_eq_found h
    obtain ⟨ns', hget⟩ := exists_get?_of_find? hfound
    exact fun q hq => absurd hq (hd.not_privateTo_of_get? hg houter hget)
  next =>
    split at h
    next found hfound =>
      split at h
      · cases h
      next hopen =>
        obtain rfl := restrict_eq_found h
        obtain ⟨inner, hinner, hfound⟩ := Option.bind_eq_some_iff.mp hfound
        obtain ⟨ns', hget⟩ := exists_get?_of_find? hfound
        exact accessible_of_isClosed hopen fun q hq =>
          hd.eq_of_privateTo_of_inner hg hinner hget hq
    next =>
      split at h
      next found hfound =>
        obtain ⟨role, hslot⟩ := exists_slot?_of_accessor? hfound
        split at h
        · cases h
        next hopen =>
          obtain rfl := restrict_eq_found h
          intro q hq
          -- a slot belongs to the scope itself, so that only the flag keeps the symbol back
          have hp : ∀ q, g.PrivateTo found q → q = p := fun q hq => by
            rw [hq.eq_of_scope (hg.slot hslot).1, owner_of_outer_eq_none houter]
          have hclosed : ¬ isClosed (g.scope p) viaSuper = true := by
            simpa [hq.isPrivate] using hopen
          exact accessible_of_isClosed hclosed hp q hq
      next => cases h

omit hg in
theorem outer_of_climbs {b : Bool} (houter : (g.scope p).outer = none)
    (h : g.Climbs p viaSuper q b) : (g.scope q).outer = none := by
  induction h with
  | here => exact houter
  | super _ hsuper _ => exact (hd.linked.members (hd.linked.super hsuper)).2

omit hg in
theorem outer_of_walks (houter : (g.scope p).outer = none)
    (h : g.Walks p q) : (g.scope q).outer = none := by
  induction h with
  | refl => exact houter
  | tail _ hlink _ =>
    rcases hlink with ⟨-, hparent⟩ | hdelegate
    · exact hd.linked.parent hparent
    · exact (hd.linked.members (hd.linked.delegate hdelegate)).2

/-- A member search finds accessible symbols only. -/
theorem accessible_of_findsMember {start : ScopeId} {ns : Option Namespace} {crossed : Bool}
    (houter : (g.scope start).outer = none)
    (h : g.FindsMember start name ns viaSuper x crossed) : g.Accessible x crossed := by
  obtain ⟨p, hclimbs, hfound⟩ := h
  exact hd.accessible_of_searchOwn hg (hd.outer_of_climbs houter hclimbs) hfound

/-- Plain names stand for accessible symbols only. -/
theorem accessible_of_finds {start : ScopeId} {ns : Option Namespace} {crossed : Bool}
    (houter : (g.scope start).outer = none)
    (h : g.Finds start name ns x crossed) : g.Accessible x crossed := by
  obtain ⟨p, hwalks, hfinds⟩ := h
  exact hd.accessible_of_findsMember hg (hd.outer_of_walks houter hwalks) hfinds

/-! ### Paths -/

/-- What a scope or its partition lists under a name may be answered with. -/
theorem accessible_of_itemIn (houter : (g.scope p).outer = none)
    (h : g.itemIn p name ns = .found x) :
    g.Accessible x false := by
  unfold itemIn at h
  dsimp only at h
  split at h
  next hfound =>
    cases h
    exact fun q hq => absurd hq (hd.not_privateTo_of_get? hg houter hfound)
  next =>
    split at h
    next hfound =>
      obtain ⟨inner, hinner, hget⟩ := Option.bind_eq_some_iff.mp hfound
      split at h
      next hactive =>
        cases h
        intro q hq
        rw [hd.eq_of_privateTo_of_inner hg hinner hget hq]
        exact ⟨hactive, rfl⟩
      next => cases h
    next =>
      split at h
      next hfound =>
        cases h
        split at hfound
        · exact fun q hq => absurd hq (hd.not_privateTo_of_get? hg houter hfound)
        · cases hfound
      next => cases h

omit hd in
theorem outer_of_onPath (h : g.OnPath p) : (g.scope p).outer = none := by
  cases h with
  | @root start _ _ hroot =>
    rcases outward_of_mem_pathRoots hroot with hout | rfl
    · exact hg.nested.outer_of_outward hout (hg.nested.partitioned.outer_owner start)
    · exact hg.nested.outer_global
  | @unit start _ hunit =>
    have hout := outward_of_mem_enclosingWithin (List.mem_of_find?_eq_some hunit)
    exact hg.nested.outer_of_outward hout (hg.nested.partitioned.outer_owner start)
  | module hm =>
    refine hg.nested.outer_of_kind fun hinner => ?_
    rw [(hg.nested.module (NameMap.mem_entries_of_find? hm)).2] at hinner
    cases hinner

/-- Names, plain or qualified, stand for accessible symbols only. -/
theorem answers_accessible : Answers (fun a _ => ∀ x, a = .found x → g.Accessible x false) g g
    (fun q => (g.scope q).outer = none) (fun q => (g.scope q).outer = none)
    (fun q => (g.scope q).outer = none) fun _ => True := by
  refine .left nofun nofun
    (fun houter _ _ _ _ hx => (hd.accessible_of_searchOwn hg houter hx).direct)
    (fun houter _ _ _ => hd.accessible_of_itemIn hg houter)
    (fun _ hsuper => (hd.linked.members (hd.linked.super hsuper)).2) (fun _ hnext => ?_)
    (outer_of_onPath hg)
  rcases hnext with hparent | hdelegate
  · exact hd.linked.parent hparent
  · exact (hd.linked.members (hd.linked.delegate hdelegate)).2

end Discreet

end Graph

end Scoping
