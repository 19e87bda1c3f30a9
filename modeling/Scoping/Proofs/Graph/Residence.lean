import Scoping.Proofs.Graph.Dropped
import Scoping.Proofs.Graph.Outline

/-!
# Where members live

Outside units only the global scope and its modules hold entries (`Graph.Resident`). So a member of
a type lives in the member scope of the type, whichever of its functions it is
(`Graph.owner_of_mem_members`), and types with different member scopes have no function in common.
What a class has under a name lives in the scope of a class (`Graph.owner_of_implementation?`). A
symbol that lives in a scope stays there, unless it is dropped there (`Graph.Steps.lodges`).
-/

namespace Scoping.Graph

variable {g g' : Graph} {types : Set SymbolId}

/-! ### Tables outside units -/

/-- Outside units only roots hold entries. -/
structure Resident (g : Graph) : Prop where
  entry : ∀ {q ns name x}, (g.scope q).table.get? ns name = some x →
    g.Inside q ∨ (g.scope q).kind.isRoot = true

theorem Step.resident (hg : g.Coherent) (hr : g.Resident) (h : Step types g g') : g'.Resident := by
  refine ⟨fun {q ns name x} hx => ?_⟩
  by_cases hq : g.Inside q
  · exact .inl (h.grows.inside hg.nested hq)
  · rw [h.get?_of_not_inside hg hq] at hx
    refine .inr ?_
    rw [h.grows.kind (lt_size_of_get? hx)]
    exact (hr.entry hx).resolve_left hq

theorem Steps.resident (hg : g.Coherent) (hr : g.Resident) (h : Steps types g g') :
    g'.Resident := by
  induction h with
  | refl => exact hr
  | tail hsteps hstep ih => exact hstep.resident (hg.steps hsteps) ih

theorem Publishing.resident (hg : g.Coherent) (hr : g.Resident) (h : g.Publishing g') :
    g'.Resident := by
  refine ⟨fun {q ns name x} hx => ?_⟩
  rcases h.entry hx with hx | ⟨hout, -⟩
  · refine (hr.entry hx).imp (h.inside hg.nested) fun hroot => ?_
    rw [h.kind (lt_size_of_get? hx), hroot]
  · exact .inr hout.isRoot

/-! ### Members -/

theorem exists_slot?_of_mem_slotIds (hreg : g.Regular) {t x : SymbolId} {m : ScopeId}
    (hm : (g.symbol t).members? = some m) (hx : x ∈ g.slotIds t) :
    ∃ role name, g.slot? m role name = some x := by
  simp only [slotIds, membersOf?, hm, Option.bind_some] at hx
  cases hinfo : g.memberInfo? m with
  | none =>
    rw [hinfo] at hx
    cases hx
  | some info =>
    obtain ⟨hgetters, hsetters⟩ := hreg.slots hinfo
    rw [hinfo, Option.map_some, Option.getD_some, MemberInfo.slots] at hx
    have hslot : ∀ role name, g.slot? m role name = info.slot? role name := fun role name => by
      rw [Graph.slot?, hinfo, Option.bind_some]
    simp only [List.mem_append, Option.mem_toList, NameMap.values, List.mem_map] at hx
    rcases hx with ((hx | hx) | ⟨⟨name, y⟩, hx, rfl⟩) | ⟨⟨name, y⟩, hx, rfl⟩
    · exact ⟨.constructor, "", by rw [hslot]; exact hx⟩
    · exact ⟨.destructor, "", by rw [hslot]; exact hx⟩
    · exact ⟨.getter, name, by rw [hslot]; exact NameMap.find?_of_mem_entries hgetters hx⟩
    · exact ⟨.setter, name, by rw [hslot]; exact NameMap.find?_of_mem_entries hsetters hx⟩

theorem member_ne_none (hreg : g.Regular) {t : SymbolId} {m : ScopeId}
    (hm : (g.symbol t).members? = some m) : (g.scope m).member ≠ none := by
  obtain ⟨host, hhost, -⟩ := hreg.host hm
  intro hnone
  rw [hnone] at hhost
  cases hhost

theorem owner_of_memberScope (hg : g.Coherent) {m : ScopeId} (hm : (g.scope m).member ≠ none) :
    g.owner m = m :=
  owner_of_outer_eq_none (hg.nested.outer_of_kind (by
    rw [hg.nested.kind_of_member hm]
    exact ScopeKind.noConfusion))

section

variable (hg : g.Coherent) (hr : g.Resident)

include hg hr

variable {name : String}

/-- What stands in the table of a member scope, or of its partition, lives there. -/
theorem owner_of_part {m q : ScopeId} {ns : Namespace} {x : SymbolId}
    (hm : (g.scope m).member ≠ none) (hq : g.Part m q)
    (hx : (g.scope q).table.get? ns name = some x) : (g.symbol x).scope.map g.owner = some m := by
  rcases hq with rfl | hinner
  · have hinside : g.Inside q := (hr.entry hx).resolve_right (by
      rw [hg.nested.kind_of_member hm]
      exact Bool.false_ne_true)
    rw [hg.home hinside hx, Option.map_some, owner_of_memberScope hg hm]
  · have hpart := hg.nested.partitioned.outer_of_inner hinner
    have hinside : g.Inside q := (hr.entry hx).resolve_right (by
      rw [(hg.nested.parent_of_outer hpart).2]
      exact Bool.false_ne_true)
    rw [hg.home hinside hx, Option.map_some, owner, hpart, Option.getD_some]

/-- The members of a type live in its member scope. -/
theorem owner_of_mem_members (hreg : g.Regular) {t x : SymbolId} {m : ScopeId}
    (hm : (g.symbol t).members? = some m) (hx : x ∈ g.memberIds t ++ g.slotIds t) :
    (g.symbol x).scope.map g.owner = some m := by
  have hmember := member_ne_none hreg hm
  rcases List.mem_append.mp hx with hx | hx
  · obtain ⟨q, ns, name, hq, hx⟩ := (mem_memberIds_iff hg hm).mp hx
    exact owner_of_part hg hr hmember hq hx
  · obtain ⟨role, name, hslot⟩ := exists_slot?_of_mem_slotIds hreg hm hx
    rw [(hg.slot hslot).1, Option.map_some, owner_of_memberScope hg hmember]

/-- What a class has under a name lives in the scope of a class. -/
theorem owner_of_implementation? (hreg : g.Regular) {c i : SymbolId}
    (hkind : (g.symbol c).kind = .cls) (hi : g.implementation? c name = some i) :
    ∃ t m, (g.symbol t).kind = .cls ∧ (g.symbol t).members? = some m ∧
      (g.symbol i).scope.map g.owner = some m := by
  have hfrom : ∀ fuel t m, (g.symbol t).kind = .cls → (g.symbol t).members? = some m →
      g.implementationFrom? name fuel (some m) = some i →
      ∃ t m, (g.symbol t).kind = .cls ∧ (g.symbol t).members? = some m ∧
        (g.symbol i).scope.map g.owner = some m := by
    intro fuel
    induction fuel with
    | zero => rintro t m - - ⟨⟩
    | succ fuel ih =>
      intro t m htkind hm hfound
      rw [implementationFrom?] at hfound
      cases hhere : g.lookupHere? m name (some .value) with
      | some j =>
        rw [hhere] at hfound
        cases hfound
        obtain ⟨q, hq, hx⟩ := exists_part_of_lookupHere? hhere
        exact ⟨t, m, htkind, hm, owner_of_part hg hr (member_ne_none hreg hm) hq hx⟩
      | none =>
        rw [hhere] at hfound
        cases hsuper : g.superScope? m with
        | none =>
          rw [hsuper] at hfound
          cases fuel <;> cases hfound
        | some q =>
          rw [hsuper] at hfound
          obtain ⟨u, hukind, hu⟩ := hreg.link hsuper
          exact ih u q hukind hu hfound
  unfold implementation? at hi
  cases hm : g.membersOf? c with
  | none =>
    rw [hm] at hi
    cases hi
  | some m =>
    rw [hm] at hi
    exact hfrom _ c m hkind hm hi

/-- A function of an interface is never what a class has under its name. -/
theorem implementation?_ne (hreg : g.Regular) {c j f : SymbolId} (hkind : (g.symbol c).kind = .cls)
    (hjkind : (g.symbol j).kind = .iface)
    (hf : f ∈ g.memberFunctions j) : g.implementation? c name ≠ some f := by
  intro hi
  obtain ⟨t, m, htkind, hm, howner⟩ := owner_of_implementation? hg hr hreg hkind hi
  have hmembers : ∃ m', (g.symbol j).members? = some m' := by
    unfold Symbol.kind at hjkind
    cases hdata : (g.symbol j).data with
    | iface data => exact ⟨data.members, by rw [Symbol.members?, hdata]; rfl⟩
    | _ =>
      rw [hdata] at hjkind
      cases hjkind
  obtain ⟨m', hm'⟩ := hmembers
  have hsame : m' = m :=
    Option.some.inj
      ((owner_of_mem_members hg hr hreg hm' (List.mem_filter.mp hf).1).symm.trans howner)
  -- one member scope cannot be the one of a class and of an interface
  obtain ⟨host, hhost, hhostKind, -⟩ := hreg.host hm
  obtain ⟨host', hhost', hhostKind', -⟩ := hreg.host hm'
  rw [hsame, hhost] at hhost'
  cases hhost'
  rw [hhostKind, htkind, hjkind] at hhostKind'
  cases hhostKind'

end

/-! ### Symbols that stay -/

/-- The symbol lives in the scope or its partition, or it did so until it was dropped there. -/
def Lodges (g : Graph) (m : ScopeId) (x : SymbolId) : Prop :=
  x ∈ (g.scope m).dropped ∨
    ∃ q, q.index < g.scopes.size ∧ (g.symbol x).scope = some q ∧ g.owner q = m

theorem lodges_of_mem_members (hg : g.Coherent) (hr : g.Resident) (hreg : g.Regular)
    {t x : SymbolId} {m : ScopeId} (hm : (g.symbol t).members? = some m)
    (hx : x ∈ g.memberIds t ++ g.slotIds t) : g.Lodges m x := by
  obtain ⟨q, hq, howner⟩ := Option.map_eq_some_iff.mp (owner_of_mem_members hg hr hreg hm hx)
  refine .inr ⟨q, Nat.lt_of_not_le fun hle => ?_, hq, howner⟩
  -- a scope that there is not would be the member scope itself
  rw [owner, scope_of_size_le hle] at howner
  obtain rfl : q = m := howner
  exact member_ne_none hreg hm (congrArg Scope.member (scope_of_size_le hle))

/-- A symbol loses its scope to an accessor only where it is noted as dropped. -/
theorem scope_or_dropped_declareSlot (hg : g.Coherent) {p q : ScopeId} {role : Role}
    {symbol x : SymbolId} (hsymbol : g.Fresh symbol)
    (hq : (g.symbol x).scope = some q) :
    ((g.declareSlot p role symbol).2.symbol x).scope = some q ∨
      x ∈ ((g.declareSlot p role symbol).2.scope (g.owner q)).dropped := by
  obtain ⟨f, hf, hcases⟩ := declareSlot_cases g p role symbol
  have hflags : ((g.modifySymbol symbol f).symbol x).scope = some q :=
    (symbol_modifySymbol_rel (fun s s' => s'.scope = s.scope) (fun _ => rfl)
      (hf _).scope x).trans hq
  have hput : (((g.modifySymbol symbol f).putSlot p role symbol).symbol x).scope = some q := by
    rw [scope_putSlot (hsymbol.modifySymbol (hf _)).lt_size, if_neg (hsymbol.ne_of_scope hq),
      hflags]
  rcases hcases with h | h | ⟨name, old, -, hold, h⟩ <;> rw [h]
  · exact .inl hflags
  · exact .inl hput
  · by_cases hx : x = old
    · subst hx
      have hslot : g.slot? p role name = some x := hold
      obtain rfl := Option.some.inj (hq.symm.trans (hg.slot hslot).1)
      have hmember : (g.scope q).member ≠ none := fun hnone => by
        rw [slot?, memberInfo?, hnone] at hslot
        cases hslot
      rw [owner_of_memberScope hg hmember, Graph.drop, scope_modifyScope_self]
      · exact .inr (List.mem_append_right _ List.mem_cons_self)
      · rw [size_scopes_modifySymbol, putSlot, size_scopes_modifySymbol, modifyMember,
          size_scopes_modifyScope]
        exact scope_lt_size fun hblank => hmember (congrArg Scope.member hblank)
    · rw [Graph.drop, symbol_modifyScope, symbol_modifySymbol_of_ne hx]
      exact .inl hput

/-- A symbol that lives in a scope stays there or is dropped there. -/
theorem Step.scope_or_dropped (hg : g.Coherent) (h : Step types g g') {q : ScopeId} {x : SymbolId}
    (hq : (g.symbol x).scope = some q) :
    (g'.symbol x).scope = some q ∨ x ∈ (g'.scope (g.owner q)).dropped := by
  have hspared : g.Spares g' → (g'.symbol x).scope = some q := fun h => (h.scope x).trans hq
  cases h with
  | newScope => exact .inl (hspared spares_newScope)
  | alloc hs => exact .inl (hspared (spares_alloc hs.detached))
  | allocType hs => exact .inl (hspared (spares_allocType hs))
  | amendScope h | amendSymbol h => exact .inl (hspared h.spares)
  | link => exact .inl (hspared (spares_linkSuper _ _))
  | putSlot _ hsymbol =>
    rw [scope_putSlot hsymbol.lt_size, if_neg (hsymbol.ne_of_scope hq)]
    exact .inl hq
  | declareSlot _ hsymbol => exact scope_or_dropped_declareSlot hg hsymbol hq
  | @declare target symbol htarget hsymbol =>
    rcases hg.declare_cases htarget hsymbol with h | ⟨p, henters, -⟩
    · exact .inl (hspared h)
    · rw [henters.scope, if_neg (hsymbol.ne_of_scope hq)]
      split
      next hrival =>
        obtain rfl := Option.some.inj (hq.symm.trans (hg.home henters.inside hrival))
        exact .inr (henters.drops x hrival)
      next => exact .inl hq

theorem Steps.lodges (hg : g.Coherent) (h : Steps types g g') {m : ScopeId} {x : SymbolId}
    (hx : g.Lodges m x) : g'.Lodges m x := by
  induction h with
  | refl => exact hx
  | tail hsteps hstep ih =>
    rcases ih with hdropped | ⟨q, hlt, hq, rfl⟩
    · exact .inl (hstep.grows.dropped hdropped)
    · rcases hstep.scope_or_dropped (hg.steps hsteps) hq with hq | hdropped
      · exact .inr ⟨q, Nat.lt_of_lt_of_le hlt hstep.grows.size_le, hq, hstep.grows.owner_eq hlt⟩
      · exact .inl hdropped

theorem Publishing.lodges (h : g.Publishing g') {m : ScopeId} {x : SymbolId}
    (hx : g.Lodges m x) : g'.Lodges m x := by
  refine hx.imp h.toGrows.dropped fun ⟨q, hlt, hq, howner⟩ =>
    ⟨q, Nat.lt_of_lt_of_le hlt h.size_le, (h.symbol x).symm ▸ hq, ?_⟩
  rw [h.owner_eq hlt, howner]

end Scoping.Graph
