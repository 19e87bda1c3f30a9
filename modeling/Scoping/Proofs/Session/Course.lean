import Scoping.Proofs.Graph.Permanence
import Scoping.Proofs.Session.Run

/-!
# The course of a session

`Graph.Move` lists all single edits of a session: those of its start, of the analysis of a unit and
of its publication. So the graphs of a session come one after the other by moves, and every graph
that a session goes through comes from the initial one (`Session.Visits.moves`). What moves
preserve, a whole session preserves: keys of tables stay in their places, and symbols under them
stay until they are completed (`Graph.Moves.held`).
-/

namespace Scoping

namespace Graph

variable {g g' : Graph}

/-- The edits of a session. -/
inductive Move : Graph → Graph → Prop where
  | step {g g' : Graph} : Step .univ g g' → Move g g'
  | publish {g g' : Graph} : Publish g g' → Move g g'
  /-- The root object is taken into the arena. -/
  | allocRoot {g : Graph} {s : Symbol} : g.Founding → s.scope = none →
    Settled { s with data := s.data.setMembers ⟨g.scopes.size⟩ } →
    Move g (g.allocType global s).2
  /-- A symbol is marked as one of the session. -/
  | manage {g : Graph} {symbol : SymbolId} (ns : Namespace) : g.Founding →
    symbol.index < g.symbols.size → (g.symbol symbol).scope = none →
    Move g (g.manage symbol ns)
  /-- A symbol of the session is declared. -/
  | supply {g : Graph} {symbol : SymbolId} : g.Founding → symbol.index < g.symbols.size →
    (g.symbol symbol).scope = none → (g.symbol symbol).managed = true →
    (g.symbol symbol).flags.isPublic = true → Move g (g.declare global symbol).2

/-- Sequences of edits of a session. -/
def Moves : Graph → Graph → Prop := Relation.ReflTransGen Move

theorem Steps.moves (h : Steps .univ g g') : Moves g g' :=
  Relation.ReflTransGen.mono (fun _ _ => Move.step) g g' h

theorem Publishes.moves (h : Publishes g g') : Moves g g' :=
  Relation.ReflTransGen.mono (fun _ _ => Move.publish) g g' h

theorem Coherent.move (hg : g.Coherent) (h : Move g g') : g'.Coherent := by
  cases h with
  | step h => exact hg.step h
  | publish h => exact h.coherent hg
  | allocRoot hf hs hsettled =>
    exact (hf.allocType hf.size_pos hf.nested.outer_global hs hsettled).coherent
  | manage ns hf hsymbol hdetached => exact (hf.manage ns hsymbol hdetached).1.coherent
  | supply hf hsymbol hdetached hmanaged hpublic =>
    exact (hf.declare hsymbol hdetached hmanaged hpublic).coherent

theorem Coherent.moves (hg : g.Coherent) (h : Moves g g') : g'.Coherent := by
  induction h with
  | refl => exact hg
  | tail _ hmove ih => exact ih.move hmove

theorem Move.preserves (hg : g.Coherent) (h : Move g g') : g.Preserves g' := by
  cases h with
  | step h | publish h => exact h.preserves hg
  | allocRoot _ hs =>
    exact .of_table (spares_allocType hs).table fun _ hx =>
      hg.core_of_listed (grows_allocType _ _) hx
  | @manage symbol ns hf _ hdetached =>
    refine .of_table (fun _ => rfl) fun x hx => ?_
    obtain ⟨q, ns, name, hx⟩ := hx
    have hne : x ≠ symbol := by
      rintro rfl
      rw [(hf.agreement.entry hx).1] at hdetached
      cases hdetached
    rw [Graph.manage, symbol_modifySymbol_of_ne hne]
  | supply _ hsymbol => exact hg.declare_preserves hsymbol

/-! ### Tables in the course of a session -/

/-- In one of the moves from `g` to `g'` the symbol `x` completes `old` and takes its place. -/
def Succeeds (g g' : Graph) (q : ScopeId) (ns : Namespace) (name : String) (old x : SymbolId) :
    Prop :=
  ∃ g₁ g₂, Moves g g₁ ∧ Move g₁ g₂ ∧ Moves g₂ g' ∧ (g₁.scope q).table.get? ns name = some old ∧
    (g₂.scope q).table.get? ns name = some x ∧ g₁.Completes g₂ old x

section

variable (hg : g.Coherent) (h : Moves g g')

include hg h

theorem Moves.keys_prefix (q : ScopeId) (ns : Namespace) :
    ((g.scope q).table.space ns).keys <+: ((g'.scope q).table.space ns).keys := by
  induction h with
  | refl => exact List.prefix_rfl
  | tail hfirst hmove ih => exact ih.trans ((hmove.preserves (hg.moves hfirst)).keys q ns)

/-- A key is held by one symbol all the time, or by a forward declaration until it is completed and
by the symbol that completes it from then on. -/
theorem Moves.held {q : ScopeId} {ns : Namespace} {name : String} {x : SymbolId}
    (hx : (g.scope q).table.get? ns name = some x) :
    ∃ x', (g'.scope q).table.get? ns name = some x' ∧
      (x' = x ∧ (g'.symbol x).flags.isIncomplete = (g.symbol x).flags.isIncomplete ∨
        g.Succeeds g' q ns name x x' ∧ (g.symbol x).flags.isIncomplete = true ∧
          (g'.symbol x').flags.isIncomplete = false) := by
  induction h with
  | refl => exact ⟨x, hx, .inl ⟨rfl, rfl⟩⟩
  | @tail g₁ g₂ hfirst hmove ih =>
    obtain ⟨x₁, hx₁, hold⟩ := ih
    have hpreserves := hmove.preserves (hg.moves hfirst)
    have hkeep : (g₂.symbol x₁).flags.isIncomplete = (g₁.symbol x₁).flags.isIncomplete :=
      congrArg Core.isIncomplete (hpreserves.core ⟨q, ns, name, hx₁⟩)
    obtain ⟨x₂, hx₂, rfl | hcompletes⟩ := hpreserves.held hx₁
    · refine ⟨x₂, hx₂, ?_⟩
      rcases hold with ⟨rfl, hsame⟩ | ⟨⟨a, b, hbefore, hat, hafter, hold⟩, hincomplete, hcomplete⟩
      · exact .inl ⟨rfl, hkeep.trans hsame⟩
      · exact .inr ⟨⟨a, b, hbefore, hat, hafter.tail hmove, hold⟩, hincomplete,
          hkeep.trans hcomplete⟩
    · rcases hold with ⟨rfl, hsame⟩ | ⟨-, -, hcomplete⟩
      · refine ⟨x₂, hx₂, .inr ⟨⟨g₁, g₂, hfirst, hmove, .refl, hx₁, hx₂, hcompletes⟩,
          hsame.symm.trans hcompletes.incomplete, ?_⟩⟩
        rw [hcompletes.flags]
      · -- what has completed a forward declaration is not completed again
        rw [hcompletes.incomplete] at hcomplete
        cases hcomplete

end

end Graph

namespace Session

open Scoping.Graph

/-! ### Sessions move -/

theorem moves_declareManaged {g : Graph} (hg : g.Founding) {symbol : SymbolId}
    (hsymbol : symbol.index < g.symbols.size) (hdetached : (g.symbol symbol).scope = none)
    (hpublic : (g.symbol symbol).flags.isPublic = true) (ns : Namespace) :
    Moves g (g.declareManaged global symbol ns).2 := by
  obtain ⟨hfounding, hmanaged⟩ := hg.manage ns hsymbol hdetached
  rw [declareManaged_eq]
  refine .tail (.single (.manage ns hg hsymbol hdetached)) (.supply hfounding ?_ ?_ hmanaged ?_)
  · simpa [Graph.manage] using hsymbol
  · rw [scope_manage_symbol, hdetached]
  · rw [Graph.manage, symbol_modifySymbol_self hsymbol]
    simp [Flags.hasVisibility, hpublic]

theorem moves_addIntrinsic {g : Graph} (hg : g.Founding) (name : String) :
    Moves g (addIntrinsic g name) := by
  have hfounding := hg.alloc (s := Symbol.mkDetached name {} { isPublic := true }
    (.fn { hasBody := true })) rfl rfl ⟨rfl, rfl, by rintro _ ⟨⟩⟩
  refine .head (.step (.alloc (.of_members?_eq_none rfl rfl rfl)))
    (moves_declareManaged hfounding ?_ ?_ ?_ _)
  · simp
  all_goals
    rw [symbol_alloc, if_pos rfl]
    rfl

theorem moves_addRootObject {g : Graph} (hg : g.Founding) (name : String) :
    Moves g (addRootObject g name).2 := by
  have hsettled : Settled { rootSymbol name with
    data := (rootSymbol name).data.setMembers ⟨g.scopes.size⟩ } := ⟨rfl, rfl, fun _ => rfl⟩
  have htype : (g.allocType global (rootSymbol name)).2.Founding :=
    hg.allocType hg.size_pos hg.nested.outer_global rfl hsettled
  rw [addRootObject_snd]
  refine .head (.allocRoot hg rfl hsettled) (.head (.step (.amendScope (.marks _ _ _ _)))
    (moves_declareManaged (htype.nameScope _ _) ?_ ?_ ?_ _))
  · simp [size_symbols_allocType]
  all_goals
    rw [symbol_modifyScope, symbol_allocType, if_pos rfl]
    rfl

theorem moves_start (config : Config) : Moves initial (start config).graph := by
  refine (start_induction config (P := fun g => g.Founding ∧ Moves initial g)
    (fun _ => ⟨founding_initial, .refl⟩) (fun _ => ?_) fun name hg => ?_).2
  · exact ⟨founding_addRootObject founding_initial _, moves_addRootObject founding_initial _⟩
  · exact ⟨founding_addIntrinsic hg.1 name, hg.2.trans (moves_addIntrinsic hg.1 name)⟩

variable {s s' : Session} {g : Graph}

theorem Moment.moves (h : s.Moment g) : Moves s.graph g := by
  obtain ⟨g₁, hsteps, hpublishes⟩ := h
  exact hsteps.moves.trans hpublishes.moves

theorem Next.moves (hs : s.Sound) (h : Next s s') : Moves s.graph s'.graph :=
  Moment.moves (h.phases hs)

theorem Reaches.moves (hs : s.Sound) (h : Reaches s s') : Moves s.graph s'.graph := by
  induction h with
  | refl => exact .refl
  | tail hreaches hnext ih => exact ih.trans (hnext.moves (Reaches.sound hs hreaches))

/-- The graphs that sessions with a given configuration go through: first while they start, and
then from unit to unit. -/
inductive Visits (config : Config) (g : Graph) : Prop where
  | starting : Moves initial g → Moves g (start config).graph → Visits config g
  | going {reducer : Reducer} {loader : Loader} {s : Session} :
    Reaches (startWith config reducer loader) s → s.Moment g → Visits config g

theorem Visits.moves {config : Config} (h : Visits config g) : Moves initial g := by
  cases h with
  | starting h => exact h
  | @going reducer loader s hreaches hmoment =>
    have hsound : (startWith config reducer loader).Sound := sound_of_reaches .refl
    exact (moves_start config).trans ((hreaches.moves hsound).trans hmoment.moves)

theorem Visits.coherent {config : Config} (h : Visits config g) : g.Coherent :=
  founding_initial.coherent.moves h.moves

end Session

end Scoping
