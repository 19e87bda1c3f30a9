import Scoping.Proofs.Graph.Shelter

/-!
# Which symbols tables hold

Two properties of graphs are kept by the steps of an analysis and by the publication of units: a
symbol that a table holds has a visibility and is protected in member scopes only
(`Graph.Visible`), and the symbols of the session are where the session has put them
(`Graph.Reserved`).
-/

namespace Scoping

namespace Graph

variable {g g' : Graph} {types : Set SymbolId} {target p : ScopeId} {symbol : SymbolId}

/-! ### Visibility -/

/-- Every symbol that a table holds has a visibility, and only members are protected. -/
structure Visible (g : Graph) : Prop where
  entry : ∀ {q ns name x}, (g.scope q).table.get? ns name = some x →
    (g.symbol x).flags.hasVisibility = true ∧
    ((g.symbol x).flags.isProtected = true → (g.scope (g.owner q)).kind = .member)

theorem Extends.kind_owner (h : g.Extends g') {q : ScopeId}
    (hq : (g.scope (g.owner q)).kind = .member) : (g'.scope (g'.owner q)).kind = .member := by
  have howner : (g.owner q).index < g.scopes.size := lt_size_of_kind (by rw [hq]; decide)
  have hlt : q.index < g.scopes.size := by
    by_cases houter : (g.scope q).outer = none
    · rwa [owner_of_outer_eq_none houter] at howner
    · obtain ⟨p, hp⟩ := Option.ne_none_iff_exists'.mp houter
      exact lt_size_of_outer hp
  rw [h.owner_eq hlt, h.kind howner, hq]

theorem hasVisibility_effectiveFlags (g : Graph) (p : ScopeId) (flags : Flags) :
    (g.effectiveFlags p flags).hasVisibility = true := by
  simp only [effectiveFlags]
  grind [Flags.hasVisibility]

theorem isPublic_effectiveFlags (g : Graph) (p : ScopeId) (flags : Flags) :
    (g.effectiveFlags p flags).isPublic = flags.isPublic := by
  simp only [effectiveFlags]
  split <;> split <;> rfl

/-- Only what is declared in a member scope stays protected. -/
theorem isProtected_effectiveFlags {flags : Flags}
    (h : (g.effectiveFlags p flags).isProtected = true) :
    flags.isProtected = true ∧ (g.scope (g.owner p)).kind = .member := by
  simp only [effectiveFlags] at h
  grind

variable (hg : g.Coherent)

include hg

/-- A symbol that is entered as protected is entered into a member scope. -/
theorem Entering.kind_owner (hvisible : g.Visible) (hsymbol : symbol.index < g.symbols.size)
    (h : g.Entering target symbol p)
    (hprotected : ((g.declare target symbol).2.symbol symbol).flags.isProtected = true) :
    (g.scope (g.owner p)).kind = .member := by
  have hpartitioned := hg.nested.partitioned
  cases h with
  | add =>
    rw [flags_declare hsymbol] at hprotected
    rw [owner_landing hpartitioned, ← hpartitioned.owner_owner]
    exact (isProtected_effectiveFlags hprotected).2
  | @replace old _ hv hold =>
    -- the forward declaration is protected as well, and it is where the symbol goes
    rw [flags_declare_replace hv hpartitioned hsymbol] at hprotected
    exact (hvisible.entry (hg.home_of_replace hv hold).2).2 hprotected

theorem Step.visible (h : Step types g g') (hvisible : g.Visible) : g'.Visible := by
  refine ⟨fun {q ns name x} hx => ?_⟩
  rcases h.entry_cases hg hx with hx | ⟨-, -, target, -, hfresh, -, hdeclare, hentering⟩
  · have haccess := h.access_eq (hg.entry hx).1 fun hfresh => hfresh.not_listed ⟨q, ns, name, hx⟩
    simp only [Flags.access, Prod.mk.injEq] at haccess
    rw [Flags.hasVisibility, haccess.1, haccess.2.1, haccess.2.2]
    exact (hvisible.entry hx).imp_right fun hmember hp => h.grows.kind_owner (hmember hp)
  · refine ⟨?_, fun hprotected => h.grows.kind_owner ?_⟩
    · rw [hdeclare, flags_declare hfresh.lt_size]
      exact hasVisibility_effectiveFlags g _ _
    · exact hentering.kind_owner hg hvisible hfresh.lt_size (hdeclare ▸ hprotected)

theorem Steps.visible (h : Steps types g g') (hvisible : g.Visible) : g'.Visible := by
  induction h with
  | refl => exact hvisible
  | tail hfirst hstep ih => exact hstep.visible (hg.steps hfirst) ih

/-- What is published comes from a unit or a module, and is not protected. -/
theorem Publishing.visible (h : g.Publishing g') (hvisible : g.Visible) : g'.Visible := by
  refine ⟨fun {q ns name x} hx => ?_⟩
  rw [h.symbol]
  rcases h.entry hx with hx | ⟨-, src, hsrc, hx⟩
  · exact (hvisible.entry hx).imp_right fun hmember hp => h.kind_owner (hmember hp)
  · refine (hvisible.entry hx).imp_right fun hmember hprotected => ?_
    have hkind := hmember hprotected
    rw [owner_of_outer_eq_none (hsrc.outer_eq_none hg.nested)] at hkind
    rcases hsrc.kind with hroot | hroot <;> cases hkind.symm.trans hroot

/-! ### Symbols of the session -/

/-- The symbols of the session that tables hold are in the global table, as they were in `base`. -/
structure Reserved (base g : Graph) : Prop where
  entry : ∀ {q ns name x}, (g.scope q).table.get? ns name = some x →
    (g.symbol x).managed = true → q = global ∧ (base.scope global).table.get? ns name = some x

variable {base : Graph}

theorem Steps.reserved (h : Steps types g g') (hr : Reserved base g) : Reserved base g' := by
  induction h with
  | refl => exact hr
  | tail hfirst hstep ih =>
    have hmid := hg.steps hfirst
    refine ⟨fun {q ns name x} hx hmanaged => ?_⟩
    rcases hstep.entry_cases hmid hx with hx | ⟨-, -, target, -, hfresh, -⟩
    · exact ih.entry hx ((hstep.grows.managed (hmid.entry hx).1).symm.trans hmanaged)
    · rw [hstep.grows.managed hfresh.lt_size, hfresh.managed] at hmanaged
      cases hmanaged

theorem Publishing.reserved (h : g.Publishing g') (hr : Reserved base g) : Reserved base g' := by
  refine ⟨fun {q ns name x} hx hmanaged => ?_⟩
  rw [h.symbol] at hmanaged
  rcases h.entry hx with hx | ⟨-, src, hsrc, hx⟩
  · exact hr.entry hx hmanaged
  · obtain rfl := (hr.entry hx hmanaged).1
    exact absurd hsrc.inside hg.nested.not_inside_global

end Graph

end Scoping
