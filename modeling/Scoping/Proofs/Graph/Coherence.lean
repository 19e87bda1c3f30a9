import Scoping.Proofs.Graph.Step

/-!
# Coherent graphs

`Graph.Coherent` is what every step of an analysis keeps. It says about graphs with published units
what `Graph.Agreement` says about those without: tables inside a unit hold their own symbols only,
while tables outside list symbols that other scopes own. A symbol that was dropped has no owner, and
a listed symbol without owner was dropped. Symbols in slots are in no table.
-/

namespace Scoping

namespace Graph

variable {g : Graph}

/-- Tables, owners, slots and dropped symbols do not contradict each other. -/
structure Coherent (g : Graph) : Prop where
  nested : g.Nested
  functional : ∀ p, (g.scope p).table.Functional
  entry : ∀ {q ns name x}, (g.scope q).table.get? ns name = some x →
    x.index < g.symbols.size ∧ (g.symbol x).ns = ns ∧ (g.symbol x).name = name
  home : ∀ {q ns name x}, g.Inside q → (g.scope q).table.get? ns name = some x →
    (g.symbol x).scope = some q
  owned : ∀ {x p}, g.Listed x → (g.symbol x).scope = some p →
    (g.scope p).table.get? (g.symbol x).ns (g.symbol x).name = some x
  managed : ∀ {x p}, (g.symbol x).scope = some p → g.Inside p ∨ (g.symbol x).managed = true
  dropped : ∀ {p x}, x ∈ (g.scope p).dropped →
    x.index < g.symbols.size ∧ (g.symbol x).scope = none
  stale : ∀ {x}, g.Listed x → (g.symbol x).scope = none → ∃ p, x ∈ (g.scope p).dropped
  slot : ∀ {p role name x}, g.slot? p role name = some x →
    (g.symbol x).scope = some p ∧ ¬ g.Listed x
  slot_unique : ∀ {p role name p' role' name' x}, g.slot? p role name = some x →
    g.slot? p' role' name' = some x → p = p' ∧ role = role'
  typed : ∀ {x m}, (g.symbol x).members? = some m →
    g.Place m ∨ (g.symbol x).data.resolution? = some .resolved

/-! ### Edits that spare tables, owners and slots -/

namespace Coherent

variable {g' : Graph} (hg : g.Coherent)

include hg

/-- Edits that spare the tables and the owners of what they list. -/
theorem of_table (hgrows : g.Grows g') (hnested : g'.Nested)
    (htable : ∀ q, (g'.scope q).table = (g.scope q).table)
    (hscope : ∀ x, g.Listed x → (g'.symbol x).scope = (g.symbol x).scope)
    (hmanaged : ∀ x p, (g'.symbol x).scope = some p → (g.symbol x).scope = some p ∨ g'.Inside p)
    (hdropped : ∀ p x, x ∈ (g'.scope p).dropped →
      x.index < g.symbols.size ∧ (g'.symbol x).scope = none)
    (hslot : ∀ p role name x, g'.slot? p role name = some x →
      (g'.symbol x).scope = some p ∧ ¬ g.Listed x)
    (hunique : ∀ p role name p' role' name' x, g'.slot? p role name = some x →
      g'.slot? p' role' name' = some x → p = p' ∧ role = role')
    (htyped : ∀ x m, (g'.symbol x).members? = some m →
      g'.Place m ∨ (g'.symbol x).data.resolution? = some .resolved) : g'.Coherent := by
  have hlisted : ∀ x, g'.Listed x ↔ g.Listed x := by
    intro x
    simp only [Listed, htable]
  refine ⟨hnested, fun p => ?_, fun {q ns name x} h => ?_, fun {q ns name x} hq h => ?_,
    fun {x p} hx h => ?_, fun {x p} h => ?_, fun {p x} h => ?_, fun {x} hx h => ?_,
    fun {p role name x} h => ?_, hunique _ _ _ _ _ _ _, htyped _ _⟩
  · rw [htable]
    exact hg.functional p
  · rw [htable] at h
    obtain ⟨hx, hns, hname⟩ := hg.entry h
    exact ⟨Nat.lt_of_lt_of_le hx hgrows.symbols_le, by rw [hgrows.ns hx, hns],
      by rw [hgrows.name hx, hname]⟩
  · rw [htable] at h
    rw [hscope x ⟨q, ns, name, h⟩]
    exact hg.home ((hgrows.inside_iff hg.nested (lt_size_of_get? h)).mp hq) h
  · rw [hlisted] at hx
    rw [hscope x hx] at h
    rw [htable, hgrows.ns (symbol_lt_size h), hgrows.name (symbol_lt_size h)]
    exact hg.owned hx h
  · rcases hmanaged x p h with hold | hp
    · rcases hg.managed hold with hp | hm
      · exact .inl (hgrows.inside hg.nested hp)
      · exact .inr (by rw [hgrows.managed (symbol_lt_size hold), hm])
    · exact .inl hp
  · obtain ⟨hx, hnone⟩ := hdropped p x h
    exact ⟨Nat.lt_of_lt_of_le hx hgrows.symbols_le, hnone⟩
  · rw [hlisted] at hx
    rw [hscope x hx] at h
    obtain ⟨p, hp⟩ := hg.stale hx h
    exact ⟨p, hgrows.dropped hp⟩
  · rw [hlisted]
    exact hslot p role name x h

/-- Coherence is about tables, owners, dropped symbols, slots and member scopes. -/
theorem congr (hgrows : g.Grows g') (hnested : g'.Nested) (h : g.Spares g')
    (htyped : ∀ x m, (g'.symbol x).members? = some m →
      g'.Place m ∨ (g'.symbol x).data.resolution? = some .resolved) : g'.Coherent := by
  refine hg.of_table hgrows hnested h.table (fun x _ => h.scope x) (fun x p hx => .inl ?_)
    (fun p x hx => ?_) (fun p role name x hx => ?_)
    (fun p role name p' role' name' x hx hx' => ?_) htyped
  · rwa [h.scope] at hx
  · rw [h.dropped] at hx
    rw [h.scope]
    exact hg.dropped hx
  · rw [h.slot?] at hx
    rw [h.scope]
    exact hg.slot hx
  · rw [h.slot?] at hx hx'
    exact hg.slot_unique hx hx'

/-- Member scopes stay in place if no payload changes. -/
theorem typed_of_data (hgrows : g.Grows g') (hdata : ∀ x, (g'.symbol x).data = (g.symbol x).data)
    (x : SymbolId) (m : ScopeId) (h : (g'.symbol x).members? = some m) :
    g'.Place m ∨ (g'.symbol x).data.resolution? = some .resolved := by
  have hmembers : (g.symbol x).members? = some m := by rw [← h, Symbol.members?, ← hdata]; rfl
  rw [hdata]
  exact (hg.typed hmembers).imp_left (hgrows.place hg.nested)

theorem newScope {kind : ScopeKind} {parent : ScopeId} (hparent : parent.index < g.scopes.size)
    (hroot : kind.isRoot = true → (g.scope parent).kind.isRoot = true) :
    (g.newScope kind (some parent)).2.Coherent := by
  have hgrows := grows_newScope (g := g) kind (some parent)
  exact hg.congr hgrows (hg.nested.newScope hparent hroot) spares_newScope
    (hg.typed_of_data hgrows (by simp))

theorem alloc {s : Symbol} (hs : g.Admissible s) : (g.alloc s).2.Coherent := by
  have hgrows := grows_alloc (g := g) s
  refine hg.congr hgrows (hg.nested.of_scope_eq fun _ => rfl) (spares_alloc hs.detached)
    fun x m h => ?_
  rw [symbol_alloc] at h ⊢
  split at h
  next hx =>
    rw [if_pos hx]
    exact (hs.typed m h).imp_left (hgrows.place hg.nested)
  next hx =>
    rw [if_neg hx]
    exact (hg.typed h).imp_left (hgrows.place hg.nested)

theorem allocType {parent : ScopeId} {s : Symbol} (hs : s.scope = none) (hparent : g.Place parent) :
    (g.allocType parent s).2.Coherent := by
  have hgrows := grows_allocType (g := g) parent s
  have hnested : (g.allocType parent s).2.Nested :=
    (hg.nested.newMemberScope ⟨g.symbols.size⟩ hparent.inside.lt_size).of_scope_eq fun _ => rfl
  refine hg.congr hgrows hnested (spares_allocType hs) fun x m h => ?_
  rw [symbol_allocType] at h ⊢
  split at h
  next hx =>
    obtain rfl : m = ⟨g.scopes.size⟩ := by
      cases hd : s.data <;> simp_all [Symbol.members?, SymbolData.members?, SymbolData.setMembers]
    obtain ⟨hup, houter, -⟩ := newMemberScope_self g ⟨g.symbols.size⟩ parent
    exact .inl ⟨hnested.inside_of_parent hup (hgrows.inside hg.nested hparent.inside), houter⟩
  next hx =>
    rw [if_neg hx]
    exact (hg.typed h).imp_left (hgrows.place hg.nested)

theorem amendScope {p : ScopeId} {f : Scope → Scope}
    (h : AmendsScope g p (g.scope p) (f (g.scope p))) : (g.modifyScope p f).Coherent :=
  hg.congr h.grows (hg.nested.modifyScope h.links h.member h.module)
    h.spares (hg.typed_of_data h.grows fun _ => rfl)

/-- Linking a superclass. -/
theorem linkSuper (p : ScopeId) (super : Option ScopeId) :
    (g.modifyMember p fun info => { info with super }).Coherent := by
  have hgrows := grows_modifyMember (g := g) p fun info => { info with super }
  refine hg.congr hgrows (hg.nested.modifyScope rfl (fun h => ?_) fun _ _ h => .inl h)
    (spares_linkSuper p super) (hg.typed_of_data hgrows fun _ => rfl)
  simpa [Scope.mapMember] using h

theorem spareSymbol {x : SymbolId} {f : Symbol → Symbol}
    (h : SparesSymbol (g.symbol x) (f (g.symbol x))) : (g.modifySymbol x f).Coherent := by
  have hgrows := grows_modifySymbol h.core
  refine hg.congr hgrows (hg.nested.of_scope_eq fun _ => rfl) h.spares fun y m hy => ?_
  have hmembers : ((g.modifySymbol x f).symbol y).members? = (g.symbol y).members? :=
    symbol_modifySymbol_rel (fun s s' => s'.members? = s.members?) (fun _ => rfl)
      (congrArg Core.members? h.core) y
  rw [hmembers] at hy
  rcases hg.typed hy with hplace | hresolved
  · exact .inl (hgrows.place hg.nested hplace)
  · exact .inr (symbol_modifySymbol_rel (fun s s' => s.data.resolution? = some .resolved →
      s'.data.resolution? = some .resolved) (fun _ h => h) h.resolution y hresolved)

end Coherent

/-! ### Slots -/

end Graph

theorem MemberInfo.slot?_putSlot (info : MemberInfo) (role : Role) (name : String)
    (symbol : SymbolId) (role' : Role) (name' : String) :
    (info.putSlot role name symbol).slot? role' name' =
      if role' = role ∧ role ≠ .plain ∧ (Graph.isReplaceable role = true ∨ name' = name) then
        some symbol
      else info.slot? role' name' := by
  cases role <;> cases role' <;>
    simp [putSlot, slot?, Graph.isReplaceable, NameMap.find?_set]

namespace Graph

variable {g : Graph} {scope : ScopeId} {role : Role} {symbol : SymbolId} {role' : Role}
  {p : ScopeId} {name : String} {x : SymbolId}

variable {β : Type}

theorem scope_modifyMember_congr (π : Scope → β) (h : ∀ s member, π { s with member } = π s)
    (p q : ScopeId) (f : MemberInfo → MemberInfo) :
    π ((g.modifyMember p f).scope q) = π (g.scope q) :=
  scope_modifyScope_congr π _ _ fun s => h s _

theorem table_putSlot (q : ScopeId) :
    ((g.putSlot scope role symbol).scope q).table = (g.scope q).table :=
  scope_modifyMember_congr Scope.table (fun _ _ => rfl) _ _ _

theorem dropped_putSlot (q : ScopeId) :
    ((g.putSlot scope role symbol).scope q).dropped = (g.scope q).dropped :=
  scope_modifyMember_congr Scope.dropped (fun _ _ => rfl) _ _ _

theorem scope_putSlot (hsymbol : symbol.index < g.symbols.size) (x : SymbolId) :
    ((g.putSlot scope role symbol).symbol x).scope =
      if x = symbol then some scope else (g.symbol x).scope := by
  by_cases hx : x = symbol
  · subst hx
    rw [if_pos rfl, putSlot, symbol_modifySymbol_self (by simpa [modifyMember] using hsymbol)]
  · rw [if_neg hx, putSlot, symbol_modifySymbol_of_ne hx]
    rfl

theorem member_putSlot (q : ScopeId) : ((g.putSlot scope role symbol).scope q).member =
    if q = scope then (g.scope q).member.map (·.putSlot role (g.symbol symbol).name symbol)
    else (g.scope q).member := by
  simp only [putSlot, modifyMember, scope_modifySymbol, scope_modifyScope, Scope.mapMember]
  by_cases hq : q = scope
  · subst hq
    by_cases hlt : q.index < g.scopes.size
    · simp [hlt]
    · rw [if_neg fun h => hlt h.2, scope_of_size_le (Nat.le_of_not_lt hlt)]
      simp [Scope.blank]
  · simp [hq]

/-- Filling a slot changes no other slot. -/
theorem slot?_of_putSlot (h : (g.putSlot scope role symbol).slot? p role' name = some x) :
    (x = symbol ∧ p = scope ∧ role' = role) ∨ g.slot? p role' name = some x := by
  rw [slot?, memberInfo?, member_putSlot] at h
  split at h
  next hp =>
    rw [Option.bind_map] at h
    cases hm : (g.scope p).member with
    | none => simp [hm] at h
    | some info =>
      simp only [hm, Option.bind_some, Function.comp_apply, MemberInfo.slot?_putSlot] at h
      split at h
      next hslot => exact .inl ⟨(Option.some.inj h).symm, hp, hslot.1⟩
      next => exact .inr (by rw [slot?, memberInfo?, hm, Option.bind_some, h])
  next => exact .inr h

/-- A slot that is filled stays filled. -/
theorem isSome_slot?_putSlot (h : (g.slot? p role' name).isSome = true) :
    ((g.putSlot scope role symbol).slot? p role' name).isSome = true := by
  rw [slot?, memberInfo?] at h ⊢
  rw [member_putSlot]
  split
  next hp =>
    rw [Option.bind_map]
    cases hm : (g.scope p).member with
    | none => simp [hm] at h
    | some info =>
      rw [hm, Option.bind_some] at h
      simp only [Option.bind_some, Function.comp_apply, MemberInfo.slot?_putSlot]
      split
      · rfl
      · exact h
  next => exact h

theorem grows_putSlot : g.Grows (g.putSlot scope role symbol) :=
  (grows_modifyScope rfl (fun h => h) fun _ h => h).trans (grows_modifySymbol rfl)

theorem grows_drop : g.Grows (g.drop scope x) :=
  (grows_modifySymbol rfl).trans
    (grows_modifyScope rfl (fun h => h) fun _ h => List.mem_append_left _ h)

/-- A symbol for a slot settles its flags, then fills the slot or not, and then the symbol that was
in the slot may be dropped. -/
theorem declareSlot_cases (g : Graph) (scope : ScopeId) (role : Role) (symbol : SymbolId) :
    ∃ f : Symbol → Symbol, (∀ s, SparesSymbol s (f s)) ∧
      ((g.declareSlot scope role symbol).2 = g.modifySymbol symbol f ∨
        (g.declareSlot scope role symbol).2 = (g.modifySymbol symbol f).putSlot scope role symbol ∨
        ∃ name old, isReplaceable role = true ∧
          (g.modifySymbol symbol f).slot? scope role name = some old ∧
          (g.declareSlot scope role symbol).2 =
            ((g.modifySymbol symbol f).putSlot scope role symbol).drop scope old) := by
  refine ⟨fun s => { s with flags := g.effectiveFlags scope s.flags }, fun s => ⟨?_, rfl, id⟩, ?_⟩
  · obtain ⟨isProtected, isPrivate, hflags⟩ := effectiveFlags_spec g scope s.flags
    dsimp only
    rw [hflags]
    rfl
  · simp only [declareSlot]
    split
    · exact .inl rfl
    next info hinfo =>
      split
      · exact .inr (.inl rfl)
      next old hold =>
        split
        next hrole =>
          exact .inr (.inr ⟨_, old, hrole, by rw [slot?, hinfo, Option.bind_some, hold], rfl⟩)
        next => exact .inl rfl

/-- What holds of the settled flags and survives the filling of slots and drops. -/
theorem declareSlot_induction {P : Graph → Prop}
    (flags : P (g.modifySymbol symbol fun s => { s with flags := g.effectiveFlags scope s.flags }))
    (put : ∀ g, P g → P (g.putSlot scope role symbol))
    (drop : ∀ g old, P g → P (g.drop scope old)) : P (g.declareSlot scope role symbol).2 := by
  simp only [declareSlot]
  split
  · exact flags
  · split
    · exact put _ flags
    · split
      · exact drop _ _ (put _ flags)
      · exact flags

theorem size_scopes_declareSlot :
    (g.declareSlot scope role symbol).2.scopes.size = g.scopes.size :=
  declareSlot_induction (P := fun g' => g'.scopes.size = g.scopes.size) (by simp)
    (fun _ h => by simp [putSlot, modifyMember, h]) fun _ _ h => by simp [drop, h]

theorem size_symbols_declareSlot :
    (g.declareSlot scope role symbol).2.symbols.size = g.symbols.size :=
  declareSlot_induction (P := fun g' => g'.symbols.size = g.symbols.size) (by simp)
    (fun _ h => by simp [putSlot, modifyMember, h]) fun _ _ h => by simp [drop, h]

/-- Of a symbol that is declared for a slot the flags are settled, and then owner and reachability
may change. -/
theorem symbol_declareSlot_stamp (π : Symbol → β)
    (h : ∀ s scope reachable, π { s with scope, reachable } = π s) (x : SymbolId) :
    π ((g.declareSlot scope role symbol).2.symbol x) = π ((g.modifySymbol symbol fun s =>
      { s with flags := g.effectiveFlags scope s.flags }).symbol x) :=
  declareSlot_induction (P := fun g' => π (g'.symbol x) = _) rfl
    (fun _ => (symbol_modifySymbol_congr π _ _ fun s => h s _ s.reachable).trans)
    fun _ _ => (symbol_modifySymbol_congr π _ _ fun s => h s _ _).trans

/-- Of the scopes, the extras of members and what is dropped may change. -/
theorem scope_declareSlot_congr (π : Scope → β)
    (h : ∀ s member dropped, π { s with member, dropped } = π s) (q : ScopeId) :
    π ((g.declareSlot scope role symbol).2.scope q) = π (g.scope q) :=
  declareSlot_induction (P := fun g' => π (g'.scope q) = π (g.scope q)) rfl
    (fun _ => (scope_modifyMember_congr π (fun s member => h s member s.dropped) _ _ _).trans)
    fun _ _ => (scope_modifyScope_congr π _ _ fun s => h s s.member _).trans

theorem data_declareSlot (x : SymbolId) :
    ((g.declareSlot scope role symbol).2.symbol x).data = (g.symbol x).data :=
  (symbol_declareSlot_stamp Symbol.data (fun _ _ _ => rfl) x).trans
    (symbol_modifySymbol_congr Symbol.data _ _ fun _ => rfl)

/-- A constructor or destructor takes the place of the first one. -/
theorem slot?_putSlot_of_isReplaceable {name' : String} {old : SymbolId}
    (hrole : isReplaceable role = true) (hold : g.slot? scope role name = some old) :
    (g.putSlot scope role symbol).slot? scope role name' = some symbol := by
  rw [slot?, memberInfo?] at hold ⊢
  rw [member_putSlot, if_pos rfl, Option.bind_map]
  cases hm : (g.scope scope).member with
  | none => simp [hm] at hold
  | some info =>
    rw [Option.bind_some, Function.comp_apply, MemberInfo.slot?_putSlot, if_pos]
    refine ⟨rfl, ?_, .inl hrole⟩
    rintro rfl
    cases hrole

theorem Fresh.modifySymbol {f : Symbol → Symbol} (h : g.Fresh symbol)
    (hf : SparesSymbol (g.symbol x) (f (g.symbol x))) : (g.modifySymbol x f).Fresh symbol where
  lt_size := by simpa using h.lt_size
  managed := ((grows_modifySymbol hf.core).managed h.lt_size).trans h.managed
  detached := by
    rw [symbol_modifySymbol_rel (fun s s' => s'.scope = s.scope) (fun _ => rfl) hf.scope]
    exact h.detached
  not_listed := h.not_listed
  slot_ne := h.slot_ne
  not_dropped := h.not_dropped

namespace Coherent

variable (hg : g.Coherent)

include hg

/-- A fresh symbol may be put into any slot of a place. -/
theorem putSlot (hscope : g.Place scope) (hsymbol : g.Fresh symbol) :
    (g.putSlot scope role symbol).Coherent := by
  have hgrows : g.Grows (g.putSlot scope role symbol) := grows_putSlot
  have howner : ∀ x, ((g.putSlot scope role symbol).symbol x).scope =
      if x = symbol then some scope else (g.symbol x).scope := scope_putSlot hsymbol.lt_size
  have hnested : (g.putSlot scope role symbol).Nested := by
    refine hg.nested.congr (fun _ => scope_modifyMember_congr Scope.links (fun _ _ => rfl) _ _ _)
      (fun q hq => hg.nested.kind_of_member fun hm => hq ?_) fun q name m hm => .inl ?_
    · rw [member_putSlot, hm]
      split <;> rfl
    · rwa [Graph.putSlot, scope_modifySymbol,
        scope_modifyMember_congr Scope.modules fun _ _ => rfl] at hm
  refine hg.of_table hgrows hnested table_putSlot (fun x hx => ?_) (fun x p h => ?_)
    (fun p x h => ?_) (fun p role' name x h => ?_)
    (fun p role₁ name₁ p' role₂ name₂ x h h' => ?_)
    (hg.typed_of_data hgrows fun x => symbol_modifySymbol_congr Symbol.data _ _ fun _ => rfl)
  · rw [howner, if_neg (hsymbol.ne_of_listed hx)]
  · rw [howner] at h
    split at h
    next =>
      cases h
      exact .inr (hgrows.inside hg.nested hscope.inside)
    next => exact .inl h
  · rw [dropped_putSlot] at h
    rw [howner, if_neg (hsymbol.ne_of_dropped h)]
    exact hg.dropped h
  · rw [howner]
    rcases slot?_of_putSlot h with ⟨rfl, rfl, -⟩ | hold
    · exact ⟨if_pos rfl, hsymbol.not_listed⟩
    · rw [if_neg (hsymbol.ne_of_slot? hold)]
      exact hg.slot hold
  · rcases slot?_of_putSlot h with ⟨hx, rfl, rfl⟩ | hold <;>
      rcases slot?_of_putSlot h' with ⟨hx', rfl, rfl⟩ | hold'
    · exact ⟨rfl, rfl⟩
    · exact absurd hx (hsymbol.ne_of_slot? hold')
    · exact absurd hx' (hsymbol.ne_of_slot? hold)
    · exact hg.slot_unique hold hold'

/-- A symbol that no table and no slot holds may be dropped. -/
theorem drop (hlt : x.index < g.symbols.size) (hlisted : ¬ g.Listed x)
    (hslot : ∀ p role name, g.slot? p role name ≠ some x) : (g.drop scope x).Coherent := by
  have hgrows : g.Grows (g.drop scope x) := grows_drop
  have hdropped : ∀ {q y}, y ∈ ((g.drop scope x).scope q).dropped →
      y ∈ (g.scope q).dropped ∨ y = x := by
    intro q y
    exact scope_modifyScope_rel (fun s s' => y ∈ s'.dropped → y ∈ s.dropped ∨ y = x)
      (fun _ h => .inl h) (fun h => by simpa using h) q
  have htable : ∀ q, ((g.drop scope x).scope q).table = (g.scope q).table :=
    fun q => scope_modifyScope_congr Scope.table _ _ fun _ => rfl
  have hmember : ∀ q, ((g.drop scope x).scope q).member = (g.scope q).member :=
    fun q => scope_modifyScope_congr Scope.member _ _ fun _ => rfl
  have howner : ∀ y, ((g.drop scope x).symbol y).scope =
      if y = x then none else (g.symbol y).scope := by
    intro y
    by_cases hy : y = x
    · subst hy
      rw [if_pos rfl, Graph.drop, symbol_modifyScope, symbol_modifySymbol_self hlt]
    · rw [if_neg hy, Graph.drop, symbol_modifyScope, symbol_modifySymbol_of_ne hy]
  have hnested : (g.drop scope x).Nested := by
    have hsymbol :
        (g.modifySymbol x fun s => { s with scope := none, reachable := false }).Nested :=
      hg.nested.of_scope_eq fun _ => rfl
    rw [Graph.drop]
    exact hsymbol.modifyScope rfl (fun h => h) fun _ _ h => .inl h
  refine hg.of_table hgrows hnested htable (fun y hy => ?_) (fun y p h => .inl ?_)
    (fun p y h => ?_) (fun p role name y h => ?_) (fun p role name p' role' name' y h h' => ?_)
    (hg.typed_of_data hgrows fun y => symbol_modifySymbol_congr Symbol.data _ _ fun _ => rfl)
  · rw [howner, if_neg]
    rintro rfl
    exact hlisted hy
  · rw [howner] at h
    split at h
    · cases h
    · exact h
  · rw [howner]
    rcases hdropped h with h | rfl
    · obtain ⟨hy, hnone⟩ := hg.dropped h
      exact ⟨hy, by rw [hnone, ite_self]⟩
    · exact ⟨hlt, if_pos rfl⟩
  · rw [slot?, memberInfo?, hmember] at h
    rw [howner, if_neg]
    · exact hg.slot h
    · rintro rfl
      exact hslot _ _ _ h
  · rw [slot?, memberInfo?, hmember] at h h'
    exact hg.slot_unique h h'

theorem declareSlot (hscope : g.Place scope) (hsymbol : g.Fresh symbol) :
    (g.declareSlot scope role symbol).2.Coherent := by
  obtain ⟨f, hf, hcases⟩ := declareSlot_cases g scope role symbol
  have hg' : (g.modifySymbol symbol f).Coherent := hg.spareSymbol (hf _)
  have hsymbol' := hsymbol.modifySymbol (hf (g.symbol symbol))
  have hscope' := (grows_modifySymbol (hf (g.symbol symbol)).core).place hg.nested hscope
  rcases hcases with h | h | ⟨name, old, hrole, hold, h⟩
  · rwa [h]
  · rw [h]
    exact hg'.putSlot hscope' hsymbol'
  · rw [h]
    have hne : old ≠ symbol := hsymbol'.ne_of_slot? hold
    refine (hg'.putSlot hscope' hsymbol').drop ?_ ?_ fun p role' name' hslot => ?_
    · exact Nat.lt_of_lt_of_le (symbol_lt_size (hg'.slot hold).1) grows_putSlot.symbols_le
    · simp only [Listed, table_putSlot]
      exact (hg'.slot hold).2
    · -- the only slot that it was in has been filled again
      rcases slot?_of_putSlot hslot with ⟨heq, -⟩ | hslot'
      · exact hne heq
      · obtain ⟨rfl, rfl⟩ := hg'.slot_unique hold hslot'
        rw [slot?_putSlot_of_isReplaceable hrole hold, Option.some.injEq] at hslot
        exact hne hslot.symm

end Coherent

end Graph

end Scoping
