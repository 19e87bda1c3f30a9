import Mathlib.Data.Set.Finite.Basic
import Mathlib.Order.WellFoundedSet
import Scoping.Proofs.Graph.Final

/-!
# Chains of superclasses

A class is linked to its superclass while it is being resolved, and the superclass has been resolved
by then. If types and member scopes were in bijection, links could not close a cycle: the scope that
gets a link would belong to a type that is not resolved, and no scope is linked to such a type. But
a type that is copied with the members of a trait shares its member scope with the original.
`Graph.Ancestry` says that every cycle passes through such a shared scope, and `superAcyclic_iff`
that chains of superclasses end exactly if no shared scope is on a cycle.
-/

namespace Scoping

namespace Graph

variable {g g' : Graph} {types : Set SymbolId}

/-! ### Cycles -/

/-- Two types have the scope for their members. -/
def Shared (g : Graph) (p : ScopeId) : Prop :=
  ∃ x y, x ≠ y ∧ (g.symbol x).members? = some p ∧ (g.symbol y).members? = some p

/-- Going from superclass to superclass ends with a scope that has none. -/
def ChainEnds (g : Graph) (q : ScopeId) : Prop :=
  ∃ p, Relation.ReflTransGen (fun a b => g.superScope? a = some b) q p ∧ g.superScope? p = none

/-- Every chain of superclasses ends, and no scope is on its own chain. -/
structure SuperAcyclic (g : Graph) : Prop where
  irrefl : ∀ q, ¬ g.Inherits q q
  ends : ∀ q, g.ChainEnds q

theorem lt_size_of_superScope? {p q : ScopeId} (h : g.superScope? q = some p) :
    q.index < g.scopes.size :=
  scope_lt_size fun hblank => by simp [superScope?, memberInfo?, hblank, Scope.blank] at h

/-- There are finitely many scopes, so that chains without repetition end. -/
theorem superAcyclic_of_irrefl (h : ∀ q, ¬ g.Inherits q q) : g.SuperAcyclic := by
  refine ⟨h, ?_⟩
  have hfinite : {q : ScopeId | q.index < g.scopes.size}.Finite :=
    Set.Finite.preimage (fun p _ q _ heq => by cases p; cases q; simp_all)
      (Set.finite_lt_nat g.scopes.size)
  have hirrefl : Std.Irrefl fun a b => g.Inherits b a := ⟨fun q => h q⟩
  have htrans : IsTrans ScopeId fun a b => g.Inherits b a := ⟨fun _ _ _ hab hbc => hbc.trans hab⟩
  have horder : IsStrictOrder ScopeId fun a b => g.Inherits b a := {}
  have hwf := hfinite.wellFoundedOn (r := fun a b => g.Inherits b a)
  have hends : ∀ q ∈ {q : ScopeId | q.index < g.scopes.size}, g.ChainEnds q := by
    intro q hq
    refine hwf.induction (P := g.ChainEnds) hq fun q _ ih => ?_
    cases hsuper : g.superScope? q with
    | none => exact ⟨q, .refl, hsuper⟩
    | some r =>
      by_cases hr : r.index < g.scopes.size
      · obtain ⟨p, hchain, hp⟩ := ih r hr (.single hsuper)
        exact ⟨p, .head hsuper hchain, hp⟩
      · refine ⟨r, .single hsuper, Option.eq_none_iff_forall_ne_some.mpr fun p hp => ?_⟩
        exact hr (lt_size_of_superScope? hp)
  intro q
  by_cases hq : q.index < g.scopes.size
  · exact hends q hq
  · refine ⟨q, .refl, Option.eq_none_iff_forall_ne_some.mpr fun p hp => ?_⟩
    exact hq (lt_size_of_superScope? hp)

/-! ### Links and shared scopes -/

/-- A link between member scopes of which the second belongs to one type only. -/
def LinksApart (g : Graph) (a b : ScopeId) : Prop := g.superScope? a = some b ∧ ¬ g.Shared b

/-- Superclasses are resolved, and links alone that lead to no shared scope make no cycle. -/
structure Ancestry (g : Graph) : Prop where
  resolved : ∀ {q p}, g.superScope? q = some p →
    ∃ x, (g.symbol x).members? = some p ∧ (g.symbol x).data.resolution? = some .resolved
  apart : ∀ q, ¬ Relation.TransGen g.LinksApart q q

/-- Chains end exactly if no shared scope is its own superclass. -/
theorem Ancestry.superAcyclic_iff (h : g.Ancestry) :
    g.SuperAcyclic ↔ ∀ q, g.Shared q → ¬ g.Inherits q q := by
  refine ⟨fun hacyclic q _ => hacyclic.irrefl q, fun hshared => superAcyclic_of_irrefl ?_⟩
  intro q hcycle
  -- every scope on the cycle inherits from itself, so that none is shared
  have happart : ∀ p, g.Inherits q p →
      Relation.ReflTransGen (fun a b => g.superScope? a = some b) p q →
      Relation.TransGen g.LinksApart q p := by
    intro p hqp
    induction hqp with
    | single hlink =>
      intro hback
      refine .single ⟨hlink, fun hp => hshared _ hp ?_⟩
      exact Relation.TransGen.tail' hback hlink
    | tail hfirst hlink ih =>
      intro hback
      refine .tail (ih (.head hlink hback)) ⟨hlink, fun hp => hshared _ hp ?_⟩
      exact Relation.TransGen.trans_right hback (hfirst.tail hlink)
  exact h.apart q (happart q hcycle .refl)

theorem Shared.grows (hgrows : g.Grows g') {p : ScopeId} (h : g.Shared p) : g'.Shared p := by
  obtain ⟨x, y, hne, hx, hy⟩ := h
  exact ⟨x, y, hne, by rw [hgrows.members? (lt_size_of_members? hx), hx],
    by rw [hgrows.members? (lt_size_of_members? hy), hy]⟩

/-- Edits that spare the links between classes. -/
theorem Ancestry.congr (h : g.Ancestry) (hgrows : g.Grows g')
    (hresolved : ∀ x, (g.symbol x).data.resolution? = some .resolved →
      (g'.symbol x).data.resolution? = some .resolved)
    (hsuper : ∀ q, g'.superScope? q = g.superScope? q) : g'.Ancestry where
  resolved {q p} hlink := by
    rw [hsuper] at hlink
    obtain ⟨x, hx, hdone⟩ := h.resolved hlink
    exact ⟨x, by rw [hgrows.members? (lt_size_of_members? hx), hx], hresolved x hdone⟩
  apart q hcycle := by
    refine h.apart q (Relation.TransGen.mono (fun a b hlink => ⟨?_, fun hb => ?_⟩) q q hcycle)
    · rw [← hsuper, hlink.1]
    · exact hlink.2 (hb.grows hgrows)

/-- A link leads from a scope of a type that is not resolved to one of a type that is. -/
theorem Ancestry.link {c super : SymbolId} {members : ScopeId} (h : g.Ancestry)
    (hmembers : (g.symbol c).members? = some members)
    (hopen : (g.symbol c).data.resolution? ≠ some .resolved)
    (hresolved : (g.symbol super).data.resolution? = some .resolved) :
    (g.modifyMember members fun info => { info with super := g.membersOf? super }).Ancestry := by
  have hlinks := superScope?_linkSuper (g := g) members
  have hdone : ∀ {q p},
      (g.modifyMember members fun info => { info with super := g.membersOf? super }).superScope? q =
        some p → ∃ x, (g.symbol x).members? = some p ∧
          (g.symbol x).data.resolution? = some .resolved := by
    intro q p hlink
    rw [hlinks] at hlink
    split at hlink
    · exact ⟨super, hlink, hresolved⟩
    · exact h.resolved hlink
  -- whatever has a link to the scope of the class, shares that scope with it
  have hne : ∀ {a b}, (g.modifyMember members fun info =>
      { info with super := g.membersOf? super }).LinksApart a b → b ≠ members := by
    rintro a b ⟨hlink, hb⟩ rfl
    obtain ⟨x, hx, hxdone⟩ := hdone hlink
    exact hb ⟨x, c, fun heq => hopen (heq ▸ hxdone), hx, hmembers⟩
  have hold : ∀ {a b}, a ≠ members → (g.modifyMember members fun info =>
      { info with super := g.membersOf? super }).LinksApart a b → g.LinksApart a b := by
    rintro a b ha ⟨hlink, hb⟩
    rw [hlinks, if_neg fun heq => ha heq.1] at hlink
    exact ⟨hlink, hb⟩
  refine ⟨hdone, fun q hcycle => ?_⟩
  have hq : q ≠ members := by
    obtain ⟨r, -, hlast⟩ := Relation.TransGen.tail'_iff.mp hcycle
    exact hne hlast
  have hpath : ∀ {b}, Relation.TransGen (g.modifyMember members fun info =>
      { info with super := g.membersOf? super }).LinksApart q b →
      Relation.TransGen g.LinksApart q b ∧ b ≠ members := by
    intro b hqb
    induction hqb with
    | single hlink => exact ⟨.single (hold hq hlink), hne hlink⟩
    | tail _ hlink ih => exact ⟨.tail ih.1 (hold ih.2 hlink), hne hlink⟩
  exact h.apart q (hpath hcycle).1

theorem Steps.ancestry (h : Steps types g g') (hg : g.Ancestry) : g'.Ancestry := by
  induction h with
  | refl => exact hg
  | tail _ hstep ih =>
    rcases hstep.superScope?_cases with heq | ⟨c, super, members, -, hmembers, hopen, hdone, rfl⟩
    · exact ih.congr hstep.grows (fun x hx => Steps.resolved (.single hstep) hx) heq
    · exact ih.link hmembers hopen hdone

/-- Publishing has nothing to do with superclasses. -/
theorem Publishing.ancestry (h : g.Publishing g') (hg : g.Ancestry) : g'.Ancestry :=
  hg.congr h.toGrows (fun x hx => by rwa [h.symbol]) fun q => by
    rw [superScope?, superScope?, memberInfo?, memberInfo?, h.member]

end Graph

end Scoping
