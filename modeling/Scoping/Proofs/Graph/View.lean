import Scoping.Graph.Declare
import Scoping.Proofs.Table

/-!
# The two views of a graph

A graph is read through `Graph.scope` and `Graph.symbol`. Each update is described by what it does
to these views; a property of scopes or symbols that the updating function leaves alone is the same
before and after, for every id.
-/

namespace Scoping

namespace Graph

variable (g : Graph) {f : Scope → Scope} {id p q : ScopeId} {x : SymbolId}

/-! ### Updates -/

@[simp]
theorem scope_modifySymbol (id : SymbolId) (f : Symbol → Symbol) (q : ScopeId) :
    (g.modifySymbol id f).scope q = g.scope q := rfl

@[simp]
theorem symbol_modifyScope (id : ScopeId) (f : Scope → Scope) (x : SymbolId) :
    (g.modifyScope id f).symbol x = g.symbol x := rfl

@[simp]
theorem size_scopes_modifyScope (id : ScopeId) (f : Scope → Scope) :
    (g.modifyScope id f).scopes.size = g.scopes.size := by
  simp [modifyScope]

@[simp]
theorem size_symbols_modifyScope (id : ScopeId) (f : Scope → Scope) :
    (g.modifyScope id f).symbols.size = g.symbols.size := rfl

@[simp]
theorem size_scopes_modifySymbol (id : SymbolId) (f : Symbol → Symbol) :
    (g.modifySymbol id f).scopes.size = g.scopes.size := rfl

@[simp]
theorem size_symbols_modifySymbol (id : SymbolId) (f : Symbol → Symbol) :
    (g.modifySymbol id f).symbols.size = g.symbols.size := by
  simp [modifySymbol]

theorem scope_modifyScope (id : ScopeId) (f : Scope → Scope) (q : ScopeId) :
    (g.modifyScope id f).scope q =
      if q = id ∧ id.index < g.scopes.size then f (g.scope q) else g.scope q := by
  by_cases hq : q = id
  · subst hq
    simp only [scope, modifyScope, Array.getD_eq_getD_getElem?, Array.getElem?_modify]
    by_cases hlt : q.index < g.scopes.size <;> simp [hlt]
  · have hne : id.index ≠ q.index := fun h => hq (by cases q; cases id; simp_all)
    simp [scope, modifyScope, Array.getD_eq_getD_getElem?, Array.getElem?_modify, hq, hne]

theorem symbol_modifySymbol (id : SymbolId) (f : Symbol → Symbol) (x : SymbolId) :
    (g.modifySymbol id f).symbol x =
      if x = id ∧ id.index < g.symbols.size then f (g.symbol x) else g.symbol x := by
  by_cases hx : x = id
  · subst hx
    simp only [symbol, modifySymbol, Array.getD_eq_getD_getElem?, Array.getElem?_modify]
    by_cases hlt : x.index < g.symbols.size <;> simp [hlt]
  · have hne : id.index ≠ x.index := fun h => hx (by cases x; cases id; simp_all)
    simp [symbol, modifySymbol, Array.getD_eq_getD_getElem?, Array.getElem?_modify, hx, hne]

variable {g}

theorem scope_modifyScope_self (h : id.index < g.scopes.size) (f : Scope → Scope) :
    (g.modifyScope id f).scope id = f (g.scope id) := by
  rw [scope_modifyScope, if_pos ⟨rfl, h⟩]

theorem scope_modifyScope_of_ne (h : q ≠ id) (f : Scope → Scope) :
    (g.modifyScope id f).scope q = g.scope q := by
  rw [scope_modifyScope, if_neg fun hq => h hq.1]

theorem symbol_modifySymbol_self {id : SymbolId} (h : id.index < g.symbols.size)
    (f : Symbol → Symbol) : (g.modifySymbol id f).symbol id = f (g.symbol id) := by
  rw [symbol_modifySymbol, if_pos ⟨rfl, h⟩]

theorem symbol_modifySymbol_of_ne {id : SymbolId} (h : x ≠ id) (f : Symbol → Symbol) :
    (g.modifySymbol id f).symbol x = g.symbol x := by
  rw [symbol_modifySymbol, if_neg fun hx => h hx.1]

variable {β : Type}

theorem apply_scope_modifyScope (π : Scope → β) (id : ScopeId) (f : Scope → Scope)
    (q : ScopeId) : π ((g.modifyScope id f).scope q) =
      if q = id ∧ q.index < g.scopes.size then π (f (g.scope q)) else π (g.scope q) := by
  rw [scope_modifyScope]
  by_cases hq : q = id
  · subst hq
    split <;> rfl
  · simp [hq]

/-- A property of scopes that `f` leaves alone is the same after the update. -/
theorem scope_modifyScope_congr (π : Scope → β) (id q : ScopeId) (h : ∀ s, π (f s) = π s) :
    π ((g.modifyScope id f).scope q) = π (g.scope q) := by
  rw [scope_modifyScope]
  split
  · exact h _
  · rfl

/-- A property of symbols that `f` leaves alone is the same after the update. -/
theorem symbol_modifySymbol_congr (π : Symbol → β) (id x : SymbolId) {f : Symbol → Symbol}
    (h : ∀ s, π (f s) = π s) : π ((g.modifySymbol id f).symbol x) = π (g.symbol x) := by
  rw [symbol_modifySymbol]
  split
  · exact h _
  · rfl

/-- A relation between a scope and its update holds between all scopes before and after. -/
theorem scope_modifyScope_rel (R : Scope → Scope → Prop) (hrefl : ∀ s, R s s)
    (h : R (g.scope id) (f (g.scope id))) (q : ScopeId) :
    R (g.scope q) ((g.modifyScope id f).scope q) := by
  rw [scope_modifyScope]
  split
  next hq => rwa [hq.1]
  next => exact hrefl _

theorem symbol_modifySymbol_rel (R : Symbol → Symbol → Prop) (hrefl : ∀ s, R s s) {id : SymbolId}
    {f : Symbol → Symbol} (h : R (g.symbol id) (f (g.symbol id))) (x : SymbolId) :
    R (g.symbol x) ((g.modifySymbol id f).symbol x) := by
  rw [symbol_modifySymbol]
  split
  next hx => rwa [hx.1]
  next => exact hrefl _

/-! ### Ids that were never handed out -/

theorem scope_of_size_le (h : g.scopes.size ≤ q.index) : g.scope q = .blank := by
  simp [scope, Array.getD_eq_getD_getElem?, Array.getElem?_eq_none h]

theorem symbol_of_size_le (h : g.symbols.size ≤ x.index) : g.symbol x = .blank := by
  simp [symbol, Array.getD_eq_getD_getElem?, Array.getElem?_eq_none h]

/-- In the initial graph no scope has more than a kind. -/
theorem scope_initial (q : ScopeId) : ∃ kind active, initial.scope q = { kind, active } := by
  by_cases hq : q.index < 1
  · obtain ⟨i⟩ := q
    obtain rfl : i = 0 := by simpa using hq
    exact ⟨.global, 1, rfl⟩
  · exact ⟨.block, 0, scope_of_size_le (Nat.le_of_not_lt hq)⟩

theorem scope_lt_size (h : g.scope q ≠ .blank) : q.index < g.scopes.size :=
  Nat.lt_of_not_le fun hle => h (scope_of_size_le hle)

/-- Only what is in the arena differs from the blank symbol. -/
theorem lt_size_of {P : Symbol → Prop} (h : P (g.symbol x)) (hblank : ¬ P .blank) :
    x.index < g.symbols.size :=
  Nat.lt_of_not_le fun hle => hblank (symbol_of_size_le hle ▸ h)

theorem symbol_lt_size (h : (g.symbol x).scope = some p) : x.index < g.symbols.size :=
  lt_size_of (P := (·.scope = some p)) h nofun

theorem lt_size_of_get? {ns : Namespace} {name : String}
    (h : (g.scope p).table.get? ns name = some x) : p.index < g.scopes.size :=
  scope_lt_size fun hb => by simp [hb, Scope.blank] at h

theorem lt_size_of_outer (h : (g.scope p).outer = some q) : p.index < g.scopes.size :=
  scope_lt_size fun hb => by simp [hb, Scope.blank] at h

theorem lt_size_of_inner (h : (g.scope p).inner = some q) : p.index < g.scopes.size :=
  scope_lt_size fun hb => by simp [hb, Scope.blank] at h

/-! ### Growth -/

variable (g)

theorem scope_pushScope (s : Scope) (q : ScopeId) :
    (g.pushScope s).2.scope q = if q.index = g.scopes.size then s else g.scope q := by
  simp only [scope, pushScope, Array.getD_eq_getD_getElem?, Array.getElem?_push]
  split <;> rfl

@[simp]
theorem size_scopes_pushScope (s : Scope) :
    (g.pushScope s).2.scopes.size = g.scopes.size + 1 := by
  simp [pushScope]

theorem symbol_alloc (s : Symbol) (x : SymbolId) :
    (g.alloc s).2.symbol x = if x.index = g.symbols.size then s else g.symbol x := by
  simp only [symbol, alloc, Array.getD_eq_getD_getElem?, Array.getElem?_push]
  split <;> rfl

@[simp]
theorem scope_alloc (s : Symbol) (q : ScopeId) : (g.alloc s).2.scope q = g.scope q := rfl

@[simp]
theorem size_symbols_alloc (s : Symbol) : (g.alloc s).2.symbols.size = g.symbols.size + 1 := by
  simp [alloc]

@[simp]
theorem size_scopes_alloc (s : Symbol) : (g.alloc s).2.scopes.size = g.scopes.size := rfl

@[simp]
theorem alloc_fst (s : Symbol) : (g.alloc s).1 = ⟨g.symbols.size⟩ := rfl

/-! ### New scopes -/

variable (kind : ScopeKind) (parent : Option ScopeId)

@[simp]
theorem newScope_fst : (g.newScope kind parent).1 = ⟨g.scopes.size⟩ := by
  unfold newScope
  split <;> rfl

@[simp]
theorem symbol_newScope (x : SymbolId) : (g.newScope kind parent).2.symbol x = g.symbol x := by
  unfold newScope
  split <;> rfl

@[simp]
theorem symbols_newScope : (g.newScope kind parent).2.symbols = g.symbols := by
  unfold newScope
  split <;> rfl

theorem size_scopes_newScope : (g.newScope kind parent).2.scopes.size =
      g.scopes.size + if kind.isPartitioned then 2 else 1 := by
  unfold newScope
  split <;> simp

/-- The new scope has the next id and its partition the one after that. -/
theorem scope_newScope (q : ScopeId) : (g.newScope kind parent).2.scope q =
      if q.index = g.scopes.size then
        { kind, parent
          inner := if kind.isPartitioned then some ⟨g.scopes.size + 1⟩ else none }
      else if kind.isPartitioned ∧ q.index = g.scopes.size + 1 then
        { kind := .inner, parent := some ⟨g.scopes.size⟩, sealed := true
          outer := some ⟨g.scopes.size⟩ }
      else g.scope q := by
  unfold newScope
  split
  next hk =>
    simp only [scope_pushScope, size_scopes_pushScope, hk, true_and]
    by_cases hq : q.index = g.scopes.size
    · simp [hq]
    · simp [hq]
  next hk => simp [scope_pushScope, hk]

/-- Scopes that are there already stay as they are. -/
theorem scope_newScope_self : (g.newScope kind parent).2.scope (g.newScope kind parent).1 =
      { kind, parent
        inner := if kind.isPartitioned then some ⟨g.scopes.size + 1⟩ else none } := by
  rw [newScope_fst, scope_newScope, if_pos rfl]

theorem scope_newScope_of_lt
    (h : q.index < g.scopes.size) : (g.newScope kind parent).2.scope q = g.scope q := by
  rw [scope_newScope, if_neg (by omega), if_neg (by omega)]

/-- A property that new scopes share with the blank one is the same for every id. -/
theorem scope_newScope_congr (π : Scope → β)
    (h : ∀ kind parent inner sealed outer,
      π { kind, parent, inner, sealed, outer } = π .blank) (kind : ScopeKind)
    (parent : Option ScopeId) (q : ScopeId) :
    π ((g.newScope kind parent).2.scope q) = π (g.scope q) := by
  rw [scope_newScope]
  split
  next hq => rw [scope_of_size_le (by omega : g.scopes.size ≤ q.index)]; exact h ..
  next =>
    split
    next hq => rw [scope_of_size_le (by omega : g.scopes.size ≤ q.index)]; exact h ..
    next => rfl

/-- A property that is blind to the extras of members as well is kept by `newMemberScope`. -/
theorem scope_newMemberScope_congr (π : Scope → β)
    (h : ∀ kind parent inner sealed outer,
      π { kind, parent, inner, sealed, outer } = π .blank)
    (hm : ∀ s member, π { s with member } = π s) (host : SymbolId) (parent q : ScopeId) :
    π ((g.newMemberScope host parent).2.scope q) = π (g.scope q) := by
  simp only [newMemberScope]
  rw [scope_modifyScope_congr π _ _ fun s => hm s _, scope_newScope_congr g π h]

@[simp]
theorem symbol_newMemberScope (host : SymbolId) (parent : ScopeId) (x : SymbolId) :
    (g.newMemberScope host parent).2.symbol x = g.symbol x := by
  simp [newMemberScope]

theorem member_newMemberScope (host : SymbolId) (parent q : ScopeId) :
    ((g.newMemberScope host parent).2.scope q).member =
      if q.index = g.scopes.size then some { host } else (g.scope q).member := by
  simp only [newMemberScope, newScope_fst, scope_modifyScope]
  by_cases hq : q.index = g.scopes.size
  · have hid : q = ⟨g.scopes.size⟩ := by cases q; simp_all
    have hlt : g.scopes.size < (g.newScope .member (some parent)).2.scopes.size := by
      rw [size_scopes_newScope]
      split <;> omega
    simp [hid, hlt]
  · have hid : q ≠ ⟨g.scopes.size⟩ := fun h => hq (by rw [h])
    simp only [hid, hq, false_and, if_false]
    exact scope_newScope_congr g Scope.member (fun _ _ _ _ _ => rfl) _ _ q

/-- The new scope hangs from its parent. -/
theorem newMemberScope_self (host : SymbolId) (parent : ScopeId) :
    ((g.newMemberScope host parent).2.scope ⟨g.scopes.size⟩).parent = some parent ∧
      ((g.newMemberScope host parent).2.scope ⟨g.scopes.size⟩).outer = none ∧
      ((g.newMemberScope host parent).2.scope ⟨g.scopes.size⟩).kind = .member := by
  have hself : ∀ {α : Type} (π : Scope → α), (∀ s (data : MemberInfo),
      π { s with member := some data } = π s) →
      π ((g.newMemberScope host parent).2.scope ⟨g.scopes.size⟩) =
        π { kind := .member, parent := some parent, inner := some ⟨g.scopes.size + 1⟩ } := by
    intro α π hπ
    rw [newMemberScope, scope_modifyScope_congr π _ _ fun s => hπ s _, scope_newScope, if_pos rfl]
    rfl
  exact ⟨hself _ fun _ _ => rfl, hself _ fun _ _ => rfl, hself _ fun _ _ => rfl⟩

/-- The reach depends on the links between scopes only. -/
theorem reach_congr {g g' : Graph} {target : ScopeId} (hsize : g'.scopes.size = g.scopes.size)
    (hinner : ∀ q, (g'.scope q).inner = (g.scope q).inner)
    (hsuper : ∀ q, g'.superScope? q = g.superScope? q)
    (houtward : ∀ q, g'.outward? q = g.outward? q)
    (howner : g'.owner target = g.owner target) : g'.reach target = g.reach target := by
  have hwith : ∀ q, g'.withInner q = g.withInner q := fun q => by rw [withInner, withInner, hinner]
  have hsupers : ∀ fuel seen next,
      g'.reachSupers fuel seen next = g.reachSupers fuel seen next := by
    intro fuel
    induction fuel with
    | zero => intros; rfl
    | succ n ih =>
      intro seen next
      cases next with
      | none => rfl
      | some id => simp only [reachSupers, hwith, hsuper, ih]
  have hreach : ∀ fuel seen next, g'.reachWithin fuel seen next = g.reachWithin fuel seen next := by
    intro fuel
    induction fuel with
    | zero => intros; rfl
    | succ n ih =>
      intro seen next
      cases next with
      | none => rfl
      | some id => simp only [reachWithin, hwith, hsuper, houtward, hsupers, hsize, ih]
  rw [reach, reach, howner, hsize, hreach]

/-- A graph is what its scopes and symbols are. -/
theorem ext_of_view {g g' : Graph} (hscopes : g'.scopes.size = g.scopes.size)
    (hsymbols : g'.symbols.size = g.symbols.size) (hscope : ∀ q, g'.scope q = g.scope q)
    (hsymbol : ∀ x, g'.symbol x = g.symbol x) : g' = g := by
  obtain ⟨scopes, symbols⟩ := g
  obtain ⟨scopes', symbols'⟩ := g'
  simp only [mk.injEq]
  constructor
  · refine Array.ext hscopes fun i hi hi' => ?_
    simpa [scope, Array.getD, hi, hi'] using hscope ⟨i⟩
  · refine Array.ext hsymbols fun i hi hi' => ?_
    simpa [symbol, Array.getD, hi, hi'] using hsymbol ⟨i⟩

theorem superScope?_congr {g g' : Graph} (h : (g'.scope q).member = (g.scope q).member) :
    g'.superScope? q = g.superScope? q :=
  congrArg (Option.bind · MemberInfo.super) h

end Graph

end Scoping
