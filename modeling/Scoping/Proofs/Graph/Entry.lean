import Scoping.Proofs.Graph.Coherence

/-!
# Declarations in a coherent graph

A declaration in a scope of a unit either changes no table and no owner, or it enters its symbol
into one table of the unit. In the second case the forward declaration that it completes, if any,
loses its owner and is dropped. `Graph.declare_cases` is the only place where the decisions of
`Graph.declare` are told apart; what a declaration does follows from its two outcomes.
-/

namespace Scoping

namespace Graph

variable {g g' : Graph} {target : ScopeId} {symbol : SymbolId} {p q : ScopeId} {x : SymbolId}

/-! ### What any declaration spares -/

theorem size_scopes_declare : (g.declare target symbol).2.scopes.size = g.scopes.size :=
  declare_induction (P := fun g' => g'.scopes.size = g.scopes.size) rfl
    (fun _ _ _ _ h => (size_scopes_modifyScope ..).trans h) (fun _ _ h => h) fun _ _ h => h

theorem size_symbols_declare : (g.declare target symbol).2.symbols.size = g.symbols.size :=
  declare_induction (P := fun g' => g'.symbols.size = g.symbols.size)
    (size_symbols_modifySymbol ..) (fun _ _ _ _ h => h)
    (fun _ _ h => (size_symbols_modifySymbol ..).trans h)
    fun _ _ h => (size_symbols_modifySymbol ..).trans h

theorem core_stamp (x : SymbolId) :
    core ((g.stamp target symbol).symbol x) = core (g.symbol x) := by
  by_cases hx : x = symbol
  · subst hx
    by_cases hlt : x.index < g.symbols.size
    · rw [stamp, symbol_modifySymbol_self hlt]
      obtain ⟨isProtected, isPrivate, hflags⟩ :=
        effectiveFlags_spec g (g.owner target) (g.symbol x).flags
      rw [hflags]
      rfl
    · rw [symbol_of_size_le (by simpa using Nat.le_of_not_lt hlt),
        symbol_of_size_le (Nat.le_of_not_lt hlt)]
  · rw [symbol_stamp_of_ne hx]

/-- A symbol that completes a forward declaration is complete itself, and final if that is. -/
theorem flags_of_verdict_eq_replace {old : SymbolId}
    (hv : g.verdict target symbol = .replace old) :
    (g.symbol symbol).flags.isIncomplete = false ∧
      (g.symbol symbol).flags.isFinal = (g.symbol old).flags.isFinal := by
  obtain ⟨-, hmet, -, -, hcomplete, hflags⟩ := met?_of_decide_eq_replace (verdict_eq ▸ hv)
  have hne : old ≠ symbol := (exists_of_met? hmet).1
  have hcore : core ((g.stamp target symbol).symbol symbol) = core (g.symbol symbol) :=
    core_stamp symbol
  obtain ⟨isProtected, isPrivate, heq⟩ := effectiveFlags_spec (g.stamp target symbol)
    ((g.stamp target symbol).owner (g.owner target)) ((g.stamp target symbol).symbol symbol).flags
  rw [heq] at hcomplete hflags
  rw [symbol_stamp_of_ne hne] at hflags
  have hfinal := congrArg Flags.isFinal hflags
  exact ⟨(congrArg Core.isIncomplete hcore).symm.trans hcomplete,
    (congrArg Core.isFinal hcore).symm.trans hfinal.symm⟩

theorem mem_dropped_declare (h : x ∈ (g.scope q).dropped) :
    x ∈ ((g.declare target symbol).2.scope q).dropped := by
  cases hv : g.verdict target symbol with
  | reject | keep =>
    rw [declare_of_not_isLive (by rw [hv]; rfl)]
    exact h
  | add shadows => rwa [dropped_declare_add hv]
  | replace old =>
    rw [dropped_declare_replace hv]
    split
    · exact List.mem_append_left _ h
    · exact h

theorem core_declare (x : SymbolId) :
    core ((g.declare target symbol).2.symbol x) = core (g.symbol x) :=
  (symbol_declare_stamp core (fun _ _ _ => rfl) x).trans (core_stamp x)

theorem grows_declare : g.Grows (g.declare target symbol).2 where
  toExtends := .of_eq size_scopes_declare (scope_declare_congr Scope.links fun _ _ _ _ => rfl)
  symbols_le := Nat.le_of_eq size_symbols_declare.symm
  core {x} _ := core_declare x
  delegate {q} h := by rwa [scope_declare_congr Scope.delegate fun _ _ _ _ => rfl]
  dropped := mem_dropped_declare

theorem slot?_declare (p : ScopeId) (role : Role) (name : String) :
    (g.declare target symbol).2.slot? p role name = g.slot? p role name := by
  rw [slot?, slot?, memberInfo?, memberInfo?, scope_declare_congr Scope.member fun _ _ _ _ => rfl]

theorem Nested.declare (hg : g.Nested) : (g.declare target symbol).2.Nested := by
  refine hg.congr (scope_declare_congr Scope.links fun _ _ _ _ => rfl)
    (fun q hq => hg.kind_of_member ?_) fun q name m hm => .inl ?_
  · rwa [scope_declare_congr Scope.member fun _ _ _ _ => rfl] at hq
  · rwa [scope_declare_congr Scope.modules fun _ _ _ _ => rfl] at hm

/-! ### The two outcomes -/

/-- The symbol at the key of `symbol` in the table of `p`. -/
def rival? (g : Graph) (p : ScopeId) (symbol : SymbolId) : Option SymbolId :=
  (g.scope p).table.get? (g.symbol symbol).ns (g.symbol symbol).name

/-- The symbol becomes an entry of `p`, in the place of what was at its key. -/
structure Enters (g g' : Graph) (p : ScopeId) (symbol : SymbolId) : Prop where
  inside : g.Inside p
  get? : ∀ q ns name, (g'.scope q).table.get? ns name =
    if q = p ∧ ns = (g.symbol symbol).ns ∧ name = (g.symbol symbol).name then some symbol
    else (g.scope q).table.get? ns name
  scope : ∀ x, (g'.symbol x).scope =
    if x = symbol then some p else if g.rival? p symbol = some x then none else (g.symbol x).scope
  dropped : ∀ q x, x ∈ (g'.scope q).dropped →
    x ∈ (g.scope q).dropped ∨ q = g.owner p ∧ g.rival? p symbol = some x
  drops : ∀ x, g.rival? p symbol = some x → x ∈ (g'.scope (g.owner p)).dropped

theorem Enters.listed (h : g.Enters g' p symbol) (hx : g'.Listed x) : x = symbol ∨ g.Listed x := by
  obtain ⟨q, ns, name, hx⟩ := hx
  rw [h.get?] at hx
  split at hx
  · exact .inl (Option.some.inj hx).symm
  · exact .inr ⟨q, ns, name, hx⟩

/-- An entry of a unit that is not overwritten keeps its owner. -/
theorem Coherent.rival?_ne (hg : g.Coherent) {ns : Namespace} {name : String} (hp : g.Inside p)
    (hq : g.Inside q) (hx : (g.scope q).table.get? ns name = some x)
    (hkey : ¬ (q = p ∧ ns = (g.symbol symbol).ns ∧ name = (g.symbol symbol).name)) :
    g.rival? p symbol ≠ some x := by
  intro hrival
  have hhome := hg.home hp hrival
  rw [hg.home hq hx, Option.some.injEq] at hhome
  obtain ⟨-, hns, hname⟩ := hg.entry hx
  obtain ⟨-, hns', hname'⟩ := hg.entry hrival
  exact hkey ⟨hhome, by rw [← hns, hns'], by rw [← hname, hname']⟩

/-- Entering a fresh symbol keeps a graph coherent: what it displaces leaves its table and is noted
as dropped, and no other entry moves. -/
theorem Coherent.enter {p : ScopeId} (hg : g.Coherent) (hsymbol : g.Fresh symbol)
    (h : g.Enters g' p symbol) (hgrows : g.Grows g') (hnested : g'.Nested)
    (hfunctional : ∀ q, (g'.scope q).table.Functional)
    (hslot : ∀ q role name, g'.slot? q role name = g.slot? q role name)
    (hdata : ∀ x, (g'.symbol x).data = (g.symbol x).data) : g'.Coherent where
  nested := hnested
  functional := hfunctional
  entry {q ns name x} hx := by
    have hx : x.index < g.symbols.size ∧ (g.symbol x).ns = ns ∧ (g.symbol x).name = name := by
      rw [h.get?] at hx
      split at hx
      next hkey =>
        cases hx
        exact ⟨hsymbol.lt_size, hkey.2.1.symm, hkey.2.2.symm⟩
      next => exact hg.entry hx
    exact ⟨Nat.lt_of_lt_of_le hx.1 hgrows.symbols_le, by rw [hgrows.ns hx.1, hx.2.1],
      by rw [hgrows.name hx.1, hx.2.2]⟩
  home {q ns name x} hq hx := by
    rw [h.get?] at hx
    rw [h.scope]
    split at hx
    next hkey =>
      cases hx
      rw [if_pos rfl, hkey.1]
    next hkey =>
      have hq' := (hgrows.inside_iff hg.nested (lt_size_of_get? hx)).mp hq
      rw [if_neg (hsymbol.ne_of_get? hx), if_neg (hg.rival?_ne h.inside hq' hx hkey),
        hg.home hq' hx]
  owned {x q} hx hscope := by
    rw [h.scope] at hscope
    split at hscope
    next hsym =>
      cases hscope
      rw [h.get?, hsym, hgrows.ns hsymbol.lt_size, hgrows.name hsymbol.lt_size,
        if_pos ⟨rfl, rfl, rfl⟩]
    next hne =>
      split at hscope
      · cases hscope
      next hkeep =>
        have hlt := symbol_lt_size hscope
        have howned := hg.owned ((h.listed hx).resolve_left hne) hscope
        rw [h.get?, hgrows.ns hlt, hgrows.name hlt, if_neg, howned]
        rintro ⟨rfl, hns, hname⟩
        rw [hns, hname] at howned
        exact hkeep howned
  managed {x q} hscope := by
    rw [h.scope] at hscope
    split at hscope
    next =>
      cases hscope
      exact .inl (hgrows.inside hg.nested h.inside)
    next =>
      split at hscope
      · cases hscope
      · rcases hg.managed hscope with hq | hm
        · exact .inl (hgrows.inside hg.nested hq)
        · exact .inr (by rw [hgrows.managed (symbol_lt_size hscope), hm])
  dropped {q x} hx := by
    rw [h.scope]
    rcases h.dropped q x hx with hold | ⟨-, hnew⟩
    · obtain ⟨hlt, hnone⟩ := hg.dropped hold
      rw [if_neg (hsymbol.ne_of_dropped hold), hnone, ite_self]
      exact ⟨Nat.lt_of_lt_of_le hlt hgrows.symbols_le, rfl⟩
    · rw [if_neg (hsymbol.ne_of_get? hnew), if_pos hnew]
      exact ⟨Nat.lt_of_lt_of_le (hg.entry hnew).1 hgrows.symbols_le, rfl⟩
  stale {x} hx hscope := by
    rw [h.scope] at hscope
    split at hscope
    · cases hscope
    next hne =>
      split at hscope
      next hnew => exact ⟨_, h.drops x hnew⟩
      next =>
        obtain ⟨q, hq⟩ := hg.stale ((h.listed hx).resolve_left hne) hscope
        exact ⟨q, hgrows.dropped hq⟩
  slot {q role name x} hx := by
    rw [hslot] at hx
    obtain ⟨hscope, hnot⟩ := hg.slot hx
    have hne := hsymbol.ne_of_slot? hx
    rw [h.scope, if_neg hne, if_neg fun hnew : g.rival? p symbol = some x => hnot ⟨_, _, _, hnew⟩]
    exact ⟨hscope, fun hlist => (h.listed hlist).elim hne hnot⟩
  slot_unique hx hx' := by
    rw [hslot] at hx hx'
    exact hg.slot_unique hx hx'
  typed := hg.typed_of_data hgrows hdata _ _

/-! ### The outcome of a declaration -/

/-- A declaration that is refused or repeated has no effect. -/
theorem spares_declare_of_not_isLive (h : (g.verdict target symbol).isLive = false) :
    g.Spares (g.declare target symbol).2 := by
  rw [declare_of_not_isLive h]
  exact ⟨fun _ => rfl, symbol_stamp_congr Symbol.scope fun _ _ => rfl, fun _ => rfl,
    fun _ _ _ => rfl⟩

section

variable (hg : g.Coherent) {shadows : Option SymbolId} {p : ScopeId} {old : SymbolId}

include hg

/-- A declaration of a unit lands inside the unit. -/
theorem Coherent.inside_landing (htarget : g.Place target) :
    g.Inside (g.landing target symbol) :=
  htarget.inside.of_owner_eq (owner_landing hg.nested.partitioned)

/-- An added symbol finds its key free, in the scope and in its partition. -/
theorem Coherent.free_of_add (htarget : g.Place target) (hsymbol : g.Fresh symbol)
    (hv : g.verdict target symbol = .add shadows) {q : ScopeId} (hq : g.owner q = g.owner target) :
    (g.scope q).table.get? (g.symbol symbol).ns (g.symbol symbol).name = none := by
  refine free_of_verdict_eq_add hg.nested.partitioned
    (Nat.zero_lt_of_lt htarget.inside.lt_size) hv (fun p e hp he => ?_) hq
  exact ⟨hsymbol.ne_of_get? he, hg.home (htarget.inside.of_owner_eq hp) he⟩

/-- A forward declaration that is completed is listed and not a symbol of the session. -/
theorem Coherent.listed_of_replace (hv : g.verdict target symbol = .replace old) :
    g.Listed old ∧ (g.symbol old).managed = false ∧ (g.symbol old).ns = (g.symbol symbol).ns ∧
      (g.symbol old).name = (g.symbol symbol).name := by
  obtain ⟨hfree, hmet, -, -⟩ := met?_of_verdict_eq_replace hg.nested.partitioned hv
  obtain ⟨hne, r, hr, hget⟩ := exists_of_met? hmet
  obtain ⟨-, hns, hname⟩ := hg.entry hget
  exact ⟨⟨r, _, _, hget⟩, hfree.managed_eq_false hr hne hget, hns, hname⟩

/-- The owner of a forward declaration that is completed lists it, inside a unit. -/
theorem Coherent.home_of_replace (hv : g.verdict target symbol = .replace old)
    (hold : (g.symbol old).scope = some p) :
    g.Inside p ∧
      (g.scope p).table.get? (g.symbol symbol).ns (g.symbol symbol).name = some old := by
  obtain ⟨hlisted, hmanaged, hns, hname⟩ := hg.listed_of_replace hv
  refine ⟨(hg.managed hold).resolve_right fun h => ?_, ?_⟩
  · rw [hmanaged] at h
    cases h
  · rw [← hns, ← hname]
    exact hg.owned hlisted hold

variable (htarget : g.Place target) (hsymbol : g.Fresh symbol)

include hsymbol

include htarget in
theorem Coherent.enters_add (hv : g.verdict target symbol = .add shadows) :
    g.Enters (g.declare target symbol).2 (g.landing target symbol) symbol := by
  have hland : g.Inside (g.landing target symbol) := hg.inside_landing htarget
  have hfree : g.rival? (g.landing target symbol) symbol = none :=
    hg.free_of_add htarget hsymbol hv (owner_landing hg.nested.partitioned)
  refine ⟨hland, get?_declare_add hv hsymbol.lt_size hland.lt_size hfree, fun x => ?_,
    fun q x h => .inl ?_, fun x h => ?_⟩
  · rw [scope_declare_add hv hsymbol.lt_size, hfree]
    simp
  · rwa [dropped_declare_add hv] at h
  · rw [hfree] at h
    cases h

theorem Coherent.enters_replace (hv : g.verdict target symbol = .replace old)
    (hold : (g.symbol old).scope = some p) : g.Enters (g.declare target symbol).2 p symbol := by
  obtain ⟨hp, hentry⟩ := hg.home_of_replace hv hold
  have hdropped := dropped_declare_replace hv
  rw [hold, Option.map_some] at hdropped
  refine ⟨hp, get?_declare_replace hv hold hp.lt_size, fun x => ?_, fun q x h => ?_,
    fun x h => ?_⟩
  · rw [scope_declare_replace hv hold hsymbol.lt_size, rival?, hentry]
    by_cases hx : x = symbol
    · simp [hx, Ne.symm (ne_of_verdict_eq_replace hv)]
    · simp [hx, eq_comm (a := old)]
  · rw [hdropped] at h
    split at h
    next hq =>
      rcases List.mem_append.mp h with h | h
      · exact .inl h
      · rw [List.mem_singleton.mp h]
        exact .inr ⟨(Option.some.inj hq.1).symm, hentry⟩
    next => exact .inl h
  · rw [rival?, hentry, Option.some.injEq] at h
    rw [hdropped, if_pos ⟨rfl, Nat.lt_of_le_of_lt (hg.nested.owner_le p) hp.lt_size⟩, ← h]
    exact List.mem_append_right _ (List.mem_singleton.mpr rfl)

/-- A forward declaration that has been completed before is completed to no effect. -/
theorem Coherent.spares_replace (hv : g.verdict target symbol = .replace old)
    (hold : (g.symbol old).scope = none) : g.Spares (g.declare target symbol).2 := by
  obtain ⟨⟨r, ns, name, hget⟩, -⟩ := hg.listed_of_replace hv
  refine ⟨fun q => ?_, fun x => ?_, fun q => ?_, slot?_declare⟩
  · rw [table_declare_replace hv, hold, if_neg fun h => nomatch h.1]
  · rw [symbol_declare_replace hv hsymbol.lt_size (hg.entry hget).1, hold]
    split
    next hx => rw [hx, hold]
    next =>
      split
      next hx => rw [hx, Option.none_or]
      next => rfl
  · rw [dropped_declare_replace hv, hold, Option.map_none, if_neg fun h => nomatch h.1]

/-- The decisions by which a declaration enters its symbol into the table of `p`. -/
inductive Entering (g : Graph) (target : ScopeId) (symbol : SymbolId) : ScopeId → Prop where
  | add {shadows : Option SymbolId} : g.verdict target symbol = .add shadows →
    Entering g target symbol (g.landing target symbol)
  | replace {old : SymbolId} {p : ScopeId} : g.verdict target symbol = .replace old →
    (g.symbol old).scope = some p → Entering g target symbol p

include htarget in
/-- A declaration has no effect, or it enters its symbol somewhere. -/
theorem Coherent.declare_cases : g.Spares (g.declare target symbol).2 ∨
      ∃ p, g.Enters (g.declare target symbol).2 p symbol ∧ g.Entering target symbol p := by
  cases hv : g.verdict target symbol with
  | reject | keep => exact .inl (spares_declare_of_not_isLive (by rw [hv]; rfl))
  | add shadows => exact .inr ⟨_, hg.enters_add htarget hsymbol hv, .add hv⟩
  | replace old =>
    cases hold : (g.symbol old).scope with
    | some p => exact .inr ⟨p, hg.enters_replace hsymbol hv hold, .replace hv hold⟩
    | none => exact .inl (hg.spares_replace hsymbol hv hold)

include htarget in
/-- What is in the way of a symbol that is entered is a forward declaration, which it completes. -/
theorem Coherent.replace_of_rival? (h : g.Entering target symbol p)
    (hold : g.rival? p symbol = some old) : g.verdict target symbol = .replace old := by
  cases h with
  | add hv =>
    rw [rival?, hg.free_of_add htarget hsymbol hv (owner_landing hg.nested.partitioned)] at hold
    cases hold
  | replace hv hscope =>
    rw [rival?, (hg.home_of_replace hv hscope).2] at hold
    cases hold
    exact hv

theorem Coherent.functional_declare (q : ScopeId) :
    ((g.declare target symbol).2.scope q).table.Functional := by
  cases hv : g.verdict target symbol with
  | reject | keep =>
    rw [declare_of_not_isLive (by rw [hv]; rfl)]
    exact hg.functional q
  | add shadows =>
    rw [table_declare_add hv hsymbol.lt_size]
    split
    · exact (hg.functional q).insert
    · exact hg.functional q
  | replace old =>
    rw [table_declare_replace hv]
    split
    · exact (hg.functional q).replace
    · exact hg.functional q

include htarget in
theorem Coherent.declare : (g.declare target symbol).2.Coherent := by
  have hdata : ∀ x, ((g.declare target symbol).2.symbol x).data = (g.symbol x).data :=
    symbol_declare_congr Symbol.data fun _ _ _ _ => rfl
  rcases hg.declare_cases htarget hsymbol with h | ⟨p, h, -⟩
  · exact hg.congr grows_declare hg.nested.declare h (hg.typed_of_data grows_declare hdata)
  · exact hg.enter hsymbol h grows_declare hg.nested.declare (hg.functional_declare hsymbol)
      slot?_declare hdata

end

end Graph

end Scoping
