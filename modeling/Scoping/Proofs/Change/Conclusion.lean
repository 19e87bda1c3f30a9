import Scoping.Proofs.Change.Passes

/-!
# How classes come to be resolved

Only the checks of a class complete its resolution. A class that an analysis has declared and
resolved has therefore gone through its checks, in a graph in which it was not resolved, and all
that they have decided and reported is there in the end (`Analysis.Course.concludes`).
-/

namespace Scoping

variable {types : Set SymbolId} {c : SymbolId}

/-- A class that was declared, not copied, and has been resolved. -/
def Symbol.Complete (s : Symbol) : Prop :=
  s.kind = .cls ∧ s.origin = none ∧ s.data.resolution? = some .resolved

instance (s : Symbol) : Decidable s.Complete := inferInstanceAs (Decidable (_ ∧ _ ∧ _))

namespace Graph

variable {g g' : Graph}

theorem resolution?_modifyData {f : SymbolData → SymbolData} (x : SymbolId)
    (hf : ∀ d, (f d).resolution? = d.resolution?) :
    ((g.modifyData x f).symbol c).data.resolution? = (g.symbol c).data.resolution? :=
  symbol_modifySymbol_congr (fun s => s.data.resolution?) _ _ fun s => hf s.data

theorem resolution?_copyDefaults (g : Graph) (f : SymbolId) (params : List Param) :
    ((Declaration.copyDefaults g f params).symbol c).data.resolution? =
      (g.symbol c).data.resolution? := by
  refine Graph.copyDefaults_induction (P := fun g' => (g'.symbol c).data.resolution? = _) rfl
    fun _ _ _ _ _ h => (resolution?_modifyData _ fun d => ?_).trans h
  cases d <;> rfl

/-- Collecting declarations completes no class. -/
theorem Collects.complete {held : NodeId → Prop} (h : Collects held g g')
    (hc : (g'.symbol c).Complete) : (g.symbol c).Complete := by
  rcases Nat.lt_or_ge c.index g.symbols.size with hlt | hle
  · have hties := h.ties_eq hlt
    simp only [Symbol.ties, Prod.mk.injEq] at hties
    exact ⟨hties.1.2.2 ▸ hc.1, hties.1.1 ▸ hc.2.1, hties.2.2.2.1 ▸ hc.2.2⟩
  · cases (h.unresolved hle).resolution _ hc.2.2

/-- Nor does anything that the second walk does to the graph, apart from the checks. -/
theorem Elaborates.complete {held : NodeId → Prop} (h : Elaborates False types held g g')
    (hc : (g'.symbol c).Complete) : (g.symbol c).Complete := by
  have hdone := hc.2.2
  have hbefore : (g.symbol c).data.resolution? = some .resolved := by
    cases h with
    | lookUp => rwa [data_lookupPath] at hdone
    | copyDefaults => rwa [resolution?_copyDefaults] at hdone
    | fill x | linkImport x | linkInterface x | linkExtended x =>
      rwa [resolution?_modifyData x fun d => by cases d <;> rfl] at hdone
    | reach =>
      rw [symbol_modifySymbol_congr Symbol.data] at hdone
      · exact hdone
      · exact fun _ => rfl
    | linkSuper =>
      rwa [Hierarchy.linkSuper, resolution?_modifyData _ fun d => by cases d <;> rfl] at hdone
    | makeAbstract hclosing => exact hclosing.elim
    | @resolve x r _ _ hclosing =>
      have hkind := hc.1
      rw [modifyData, symbol_modifySymbol] at hdone hkind
      split at hdone
      next hx =>
        rw [if_pos hx] at hkind
        obtain ⟨rfl, -⟩ := hx
        cases hd : (g.symbol c).data with
        | cls data =>
          rw [hd] at hdone
          exact (hclosing (Option.some.inj hdone) (by rw [Symbol.kind, hd]; rfl)).elim
        | _ =>
          rw [Symbol.kind, hd] at hkind
          cases hkind
      next => exact hdone
  have hgrows := h.steps.grows
  have hlt := lt_size_of_resolution? hbefore
  exact ⟨(congrArg Core.kind (hgrows.core hlt)).symm.trans hc.1,
    (hgrows.origin hlt).symm.trans hc.2.1, hbefore⟩

/-- Copies are not declared, and their parameters are no classes. -/
theorem Copies.complete {member trait copy : SymbolId} (hg : g.Regular)
    (h : Copies member trait g copy g') (hc : (g'.symbol c).Complete) : (g.symbol c).Complete := by
  cases h with
  | @fn data name flags node hdata =>
    rw [symbol_alloc] at hc
    split at hc
    · exact absurd hc.2.1 (origin_copyOf name flags)
    · rcases Nat.lt_or_ge c.index g.symbols.size with hlt | hle
      · rwa [symbol_allocAll_of_lt _ hlt] at hc
      · have hfn : (g.symbol member).fn? = some data := by rw [Symbol.fn?, hdata]
        have hvar := (kind_allocAll_of_le (hg.param_detached hfn) hle).1
        rw [hc.1] at hvar
        cases hvar
  | var name flags | other name flags =>
    rw [symbol_alloc] at hc
    split at hc
    · exact absurd hc.2.1 (origin_copyOf name flags)
    · exact hc

end Graph

namespace Analysis

variable {aim : Aim} {env : Environment} {fine : Prop} {s s₁ s₂ s' : Analysis}

theorem Onward.plain (h : Onward fine types s s') : Onward False ∅ᶜ s s' :=
  ⟨h.coherent, nofun, h.steps.mono fun _ _ => nofun, h.edits.mono fun _ _ => nofun, nofun, nofun,
    h.reports, nofun⟩

/-- The class `c` goes through its checks on the way from `s` to `s'`. -/
def Concludes (env : Environment) (c : SymbolId) (s s' : Analysis) : Prop :=
  ∃ s₁, Onward False ∅ᶜ s s₁ ∧ (s₁.graph.symbol c).kind = .cls ∧
    (s₁.graph.symbol c).data.resolution? ≠ some .resolved ∧
    Onward False ∅ᶜ (s₁.concluded env c) s'

theorem Concludes.before (h : Concludes env c s₁ s') (hfirst : Onward fine types s s₁) :
    Concludes env c s s' := by
  obtain ⟨s₂, h₂, hkind, hopen, hlast⟩ := h
  exact ⟨s₂, hfirst.plain.trans h₂, hkind, hopen, hlast⟩

theorem Concludes.after (h : Concludes env c s s₁) (hlast : Onward fine types s₁ s') :
    Concludes env c s s' := by
  obtain ⟨s₂, h₂, hkind, hopen, hrest⟩ := h
  exact ⟨s₂, h₂, hkind, hopen, hrest.trans hlast.plain⟩

theorem Marks.onward (h : s.Marks s') (hs : s.graph.Coherent) : Onward False ∅ᶜ s s' :=
  ⟨hs, nofun, h.steps.mono fun _ => nofun, h.edits.mono fun _ => nofun, nofun, nofun, h.reports,
    nofun⟩

end Analysis

end Scoping
