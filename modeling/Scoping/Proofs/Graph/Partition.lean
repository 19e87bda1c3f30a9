import Scoping.Proofs.Graph.View

/-!
# Private partitions

A partitioned scope and its private partition point at each other. `Graph.owner` undoes the split,
so that the scopes with a given owner are the owner and at most one more.
-/

namespace Scoping

/-- What ties a partition and its owner to each other. -/
def Scope.pairing (s : Scope) : Option ScopeId × Option ScopeId × Bool :=
  (s.inner, s.outer, s.sealed)

namespace Graph

variable {g : Graph} {p : ScopeId}

/-- Private partitions and their owners are linked in pairs, no owner is itself a partition, and
partitions are sealed. -/
structure Partitioned (g : Graph) : Prop where
  outer_of_inner : ∀ {p q}, (g.scope p).inner = some q → (g.scope q).outer = some p
  inner_of_outer : ∀ {p q}, (g.scope q).outer = some p → (g.scope p).inner = some q
  owner_outer : ∀ {p q}, (g.scope q).outer = some p → (g.scope p).outer = none
  sealed : ∀ {p q}, (g.scope q).outer = some p → (g.scope q).sealed = true

theorem owner_of_outer_eq_none (h : (g.scope p).outer = none) : g.owner p = p := by
  rw [owner, h, Option.getD_none]

theorem owner_of_outer_eq_some {q : ScopeId} (h : (g.scope q).outer = some p) : g.owner q = p := by
  rw [owner, h, Option.getD_some]

namespace Partitioned

variable (hg : g.Partitioned) {p q : ScopeId}

include hg

theorem outer_owner (p : ScopeId) : (g.scope (g.owner p)).outer = none := by
  cases h : (g.scope p).outer with
  | none => rwa [owner_of_outer_eq_none h]
  | some q => rw [owner_of_outer_eq_some h, hg.owner_outer h]

theorem owner_owner (p : ScopeId) : g.owner (g.owner p) = g.owner p :=
  owner_of_outer_eq_none (hg.outer_owner p)

theorem owner_inner (h : (g.scope p).inner = some q) : g.owner q = p :=
  owner_of_outer_eq_some (hg.outer_of_inner h)

theorem inner_ne (h : (g.scope p).inner = some q) : q ≠ p := by
  rintro rfl
  have houter := hg.outer_of_inner h
  rw [hg.owner_outer houter] at houter
  exact absurd houter (by simp)

theorem inner_lt_size (h : (g.scope p).inner = some q) : q.index < g.scopes.size :=
  lt_size_of_outer (hg.outer_of_inner h)

theorem owner_lt_size (h : p.index < g.scopes.size) : (g.owner p).index < g.scopes.size := by
  cases houter : (g.scope p).outer with
  | none => rwa [owner_of_outer_eq_none houter]
  | some q =>
    rw [owner_of_outer_eq_some houter]
    exact lt_size_of_inner (hg.inner_of_outer houter)

/-- The scopes with a given owner are the owner and its partition. -/
theorem eq_or_inner_of_owner (h : g.owner q = p) : q = p ∨ (g.scope p).inner = some q := by
  cases houter : (g.scope q).outer with
  | none => exact .inl (by rw [← h, owner_of_outer_eq_none houter])
  | some r =>
    rw [owner_of_outer_eq_some houter] at h
    subst h
    exact .inr (hg.inner_of_outer houter)

end Partitioned

/-! ### Keeping the pairs -/

theorem Partitioned.congr {g' : Graph} (hg : g.Partitioned)
    (h : ∀ q, (g'.scope q).pairing = (g.scope q).pairing) : g'.Partitioned := by
  have hinner : ∀ q, (g'.scope q).inner = (g.scope q).inner := fun q => congrArg (·.1) (h q)
  have houter : ∀ q, (g'.scope q).outer = (g.scope q).outer := fun q => congrArg (·.2.1) (h q)
  refine ⟨fun h => ?_, fun h => ?_, fun h => ?_, fun {p q} hq => ?_⟩
  · rw [hinner] at h
    rw [houter, hg.outer_of_inner h]
  · rw [houter] at h
    rw [hinner, hg.inner_of_outer h]
  · rw [houter] at h
    rw [houter, hg.owner_outer h]
  · rw [houter] at hq
    exact (congrArg (·.2.2) (h q)).trans (hg.sealed hq)

theorem partitioned_initial : initial.Partitioned := by
  have hscope : ∀ q, (initial.scope q).inner = none ∧ (initial.scope q).outer = none := by
    intro q
    obtain ⟨kind, active, hq⟩ := scope_initial q
    rw [hq]
    exact ⟨rfl, rfl⟩
  constructor
  · intro p q h
    rw [(hscope p).1] at h
    cases h
  all_goals
    intro p q h
    rw [(hscope q).2] at h
    cases h

/-- A new scope comes with its partition if it is of a kind that has one. -/
theorem Partitioned.newScope (hg : g.Partitioned) (kind : ScopeKind) (parent : Option ScopeId) :
    (g.newScope kind parent).2.Partitioned := by
  -- the links of an old scope lead to old scopes; the two new ones are linked to each other
  have hold : ∀ {q : ScopeId}, q.index < g.scopes.size →
      (g.newScope kind parent).2.scope q = g.scope q := fun h => scope_newScope_of_lt g _ _ h
  constructor
  · intro p q h
    rw [scope_newScope] at h
    split at h
    next hp =>
      dsimp only at h
      split at h
      next hk =>
        cases h
        rw [scope_newScope, if_neg (by simp), if_pos ⟨hk, rfl⟩, ← hp]
      next => cases h
    next =>
      split at h
      · cases h
      · have houter := hg.outer_of_inner h
        rw [hold (lt_size_of_outer houter), houter]
  · intro p q h
    rw [scope_newScope] at h
    split at h
    · cases h
    · split at h
      next hq =>
        cases h
        rw [scope_newScope, if_pos rfl]
        simp [hq.1, ← hq.2]
      next =>
        have hinner := hg.inner_of_outer h
        rw [hold (lt_size_of_inner hinner), hinner]
  · intro p q h
    rw [scope_newScope] at h
    split at h
    · cases h
    · split at h
      · cases h
        rw [scope_newScope, if_pos rfl]
      · rw [hold (lt_size_of_inner (hg.inner_of_outer h)), hg.owner_outer h]
  · intro p q h
    rw [scope_newScope] at h ⊢
    split at h
    · cases h
    next hq =>
      rw [if_neg hq]
      split at h
      next hq' => rw [if_pos hq']
      next hq' => rw [if_neg hq', hg.sealed h]

theorem Partitioned.newMemberScope (hg : g.Partitioned) (host : SymbolId) (parent : ScopeId) :
    (g.newMemberScope host parent).2.Partitioned :=
  (hg.newScope .member (some parent)).congr
    fun _ => scope_modifyScope_congr Scope.pairing _ _ fun _ => rfl

end Graph

end Scoping
