import Scoping.Proofs.Graph.Agreement

/-!
# Where a declaration lands

A symbol that is added goes to the scope that it was declared in, to the table of that scope or to
its private partition, and no other table changes. A symbol that completes a forward declaration
goes to the scope of the forward declaration instead, and that is the first of its name along the
whole reach: it may be the scope of a superclass or of an enclosing unit. So a declaration lands at
home exactly if it does not meet a forward declaration from elsewhere.
-/

namespace Scoping

namespace Graph

variable {g : Graph} {target : ScopeId} {symbol : SymbolId}

/-- Declaring the symbol enters it into the target or its partition, and touches no other table. -/
def LandsAtHome (g : Graph) (target : ScopeId) (symbol : SymbolId) : Prop :=
  ∃ p, ((g.declare target symbol).2.symbol symbol).scope = some p ∧
    (g.declare target symbol).2.owner p = (g.declare target symbol).2.owner target ∧
    ∀ q, q ≠ p → ((g.declare target symbol).2.scope q).table = (g.scope q).table

/-- What the symbol meets is a forward declaration that another scope owns. -/
def MeetsForeignForward (g : Graph) (target : ScopeId) (symbol : SymbolId) : Prop :=
  ∃ e, g.met? (g.owner target) symbol = some e ∧ (g.symbol e).flags.isIncomplete = true ∧
    (g.symbol e).scope.map g.owner ≠ some (g.owner target)

@[simp]
theorem owner_declare (q : ScopeId) : (g.declare target symbol).2.owner q = g.owner q := by
  rw [owner, owner, scope_declare_congr Scope.outer fun _ _ _ _ => rfl]

/-- An added symbol lands at home. -/
theorem landsAtHome_of_add (hp : g.Partitioned) (hsymbol : symbol.index < g.symbols.size)
    {shadows : Option SymbolId} (hv : g.verdict target symbol = .add shadows) :
    g.LandsAtHome target symbol := by
  refine ⟨g.landing target symbol, ?_, ?_, fun q hq => ?_⟩
  · rw [scope_declare_add hv hsymbol, if_pos rfl]
  · rw [owner_declare, owner_declare, owner_landing hp]
  · rw [table_declare_add hv hsymbol, if_neg fun h => hq h.1]

/-- A completing symbol takes over the scope of the forward declaration, whose table is the only
one that changes. -/
theorem Agreement.scope_of_replace (hg : g.Agreement) (hp : g.Partitioned)
    (hsymbol : symbol.index < g.symbols.size) {old : SymbolId}
    (hv : g.verdict target symbol = .replace old) :
    ∃ p, (g.symbol old).scope = some p ∧
      ((g.declare target symbol).2.symbol symbol).scope = some p ∧
      ∀ q, q ≠ p → ((g.declare target symbol).2.scope q).table = (g.scope q).table := by
  obtain ⟨p, hold, -⟩ := hg.entry_of_replace hp hv
  have hne := ne_of_verdict_eq_replace hv
  refine ⟨p, hold, ?_, fun q hq => ?_⟩
  · rw [scope_declare_replace hv hold hsymbol, if_neg (Ne.symm hne), if_pos rfl]
  · rw [table_declare_replace hv, hold, if_neg]
    rintro ⟨hpq, -⟩
    exact hq (Option.some.inj hpq).symm

/-- A live symbol that meets a forward declaration completes it. -/
theorem replace_of_isLive (hp : g.Partitioned) (hlive : (g.verdict target symbol).isLive = true)
    {e : SymbolId} (hmet : g.met? (g.owner target) symbol = some e)
    (hincomplete : (g.symbol e).flags.isIncomplete = true) :
    g.verdict target symbol = .replace e := by
  cases hv : g.verdict target symbol with
  | reject | keep => simp [hv, Decision.isLive] at hlive
  | add shadows =>
    obtain ⟨-, hshadows, hother⟩ := met?_of_verdict_eq_add hp hv
    have hcomplete := (hother e (hshadows.symm.trans hmet)).1
    rw [hincomplete] at hcomplete
    cases hcomplete
  | replace old =>
    obtain ⟨-, hold, -⟩ := met?_of_verdict_eq_replace hp hv
    rw [hmet, Option.some.injEq] at hold
    rw [hold]

/-- A live declaration lands in the scope that it was declared in, unless it meets a forward
declaration of another scope; then it lands in that scope. -/
theorem Agreement.landsAtHome_iff (hg : g.Agreement) (hp : g.Partitioned)
    (hsymbol : symbol.index < g.symbols.size)
    (hlive : (g.declare target symbol).1.isLive = true) :
    (g.LandsAtHome target symbol ↔ ¬ g.MeetsForeignForward target symbol) ∧
      ∀ e, g.met? (g.owner target) symbol = some e → (g.symbol e).flags.isIncomplete = true →
        ((g.declare target symbol).2.symbol symbol).scope = (g.symbol e).scope := by
  have hverdict : (g.declare target symbol).1 = g.verdict target symbol := rfl
  have hforward : ∀ e, g.met? (g.owner target) symbol = some e →
      (g.symbol e).flags.isIncomplete = true →
      ((g.declare target symbol).2.symbol symbol).scope = (g.symbol e).scope := by
    intro e hmet hincomplete
    obtain ⟨p, hold, hscope, -⟩ :=
      hg.scope_of_replace hp hsymbol (replace_of_isLive hp hlive hmet hincomplete)
    rw [hold, hscope]
  refine ⟨⟨?_, fun hmeets => ?_⟩, hforward⟩
  · rintro ⟨p, hscope, howner, -⟩ ⟨e, hmet, hincomplete, haway⟩
    rw [hforward e hmet hincomplete] at hscope
    rw [owner_declare, owner_declare] at howner
    exact haway (by rw [hscope, Option.map_some, howner])
  · cases hv : g.verdict target symbol with
    | reject | keep => simp [hverdict, hv, Decision.isLive] at hlive
    | add shadows => exact landsAtHome_of_add hp hsymbol hv
    | replace old =>
      obtain ⟨p, hold, hscope, hframe⟩ := hg.scope_of_replace hp hsymbol hv
      obtain ⟨-, hmet, hincomplete, -⟩ := met?_of_verdict_eq_replace hp hv
      refine ⟨p, hscope, ?_, hframe⟩
      -- a forward declaration of another scope is excluded
      refine Classical.byContradiction fun haway => hmeets ⟨old, hmet, hincomplete, fun hhome => ?_⟩
      rw [hold, Option.map_some, Option.some.injEq] at hhome
      exact haway (by rw [owner_declare, owner_declare, hhome])

/-- A unit (scope 1) with a forward declaration of `f` and a function inside (scope 3), and a
second `f` that is not declared yet. -/
def forwardUnit : Graph :=
  let g := (initial.newScope .unit (some global)).2
  let g := (g.newScope .function (some ⟨1⟩)).2
  let g := (g.alloc (.mkDetached "f" {} { isIncomplete := true } (.fn {}))).2
  let g := (g.declare ⟨1⟩ ⟨0⟩).2
  (g.alloc (.mkDetached "f" {} {} (.fn {}))).2

theorem built_forwardUnit : Built forwardUnit := by
  unfold forwardUnit
  refine .alloc _ rfl (.declare _ _ (by decide) (by decide) (by decide) (.alloc _ rfl ?_))
  exact .newScope _ _ (.newScope _ _ .initial)

/-- Declared in the unit, the second `f` completes the first one at home. -/
theorem landsAtHome_iff_forwardUnit :
    (forwardUnit.declare ⟨1⟩ ⟨1⟩).1.isLive = true ∧ forwardUnit.LandsAtHome ⟨1⟩ ⟨1⟩ := by
  have hlive : (forwardUnit.declare ⟨1⟩ ⟨1⟩).1.isLive = true := by decide
  refine ⟨hlive, (built_forwardUnit.agreement.landsAtHome_iff built_forwardUnit.partitioned
    (by decide) hlive).1.mpr ?_⟩
  rintro ⟨e, hmet, -, haway⟩
  have hfirst : forwardUnit.met? (forwardUnit.owner ⟨1⟩) ⟨1⟩ = some ⟨0⟩ := by decide
  rw [hfirst, Option.some.injEq] at hmet
  subst hmet
  exact haway (by decide)

/-- Declared in the function, the second `f` becomes a declaration of the unit. -/
theorem not_landsAtHome_forwardUnit :
    forwardUnit.Agreement ∧ forwardUnit.Partitioned ∧
      (forwardUnit.symbol ⟨1⟩).scope = none ∧ (forwardUnit.declare ⟨3⟩ ⟨1⟩).1.isLive = true ∧
      ¬ forwardUnit.LandsAtHome ⟨3⟩ ⟨1⟩ := by
  refine ⟨built_forwardUnit.agreement, built_forwardUnit.partitioned, by decide, by decide, ?_⟩
  rintro ⟨p, hscope, howner, -⟩
  have hunit : ((forwardUnit.declare ⟨3⟩ ⟨1⟩).2.symbol ⟨1⟩).scope = some ⟨2⟩ := by decide
  rw [hunit, Option.some.injEq] at hscope
  subst hscope
  exact absurd howner (by decide)

end Graph

end Scoping
