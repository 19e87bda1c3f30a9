import Scoping.Proofs.Graph.Duty

/-!
# What resolving types leaves alone

Resolving a type that uses no trait fills in targets of references and of hints, links member scopes
and marks classes as abstract. `Graph.outline` forgets all this. The functions of a type and the
names of symbols are the same in the outline. What a class owes and where it stands with it depends,
beyond the outline, on what has been filled in for the types that can be reached from it
(`Graph.Concur.obligations_eq`, `Graph.Concur.standing_eq`).
-/

namespace Scoping

/-! ### Outlines -/

/-- The reference without its target. -/
def TypeRef.unlinked (r : TypeRef) : TypeRef := { r with target := none }

/-- The hint without its target. -/
def TypeHint.unlinked : TypeHint → TypeHint
  | named path _ => named path none
  | builtin name => builtin name

/-- The payload without what the resolution of types fills in. -/
def SymbolData.outline : SymbolData → SymbolData
  | cls d => cls
    { d with
      super := d.super.map TypeRef.unlinked
      interfaces := d.interfaces.map TypeRef.unlinked
      resolution := .unresolved }
  | trait d => trait { d with resolution := .unresolved }
  | iface d => iface
    { d with interfaces := d.interfaces.map TypeRef.unlinked, resolution := .unresolved }
  | var v => var { v with hint := v.hint.map TypeHint.unlinked }
  | data => data

/-- May resolving types make the symbol abstract? -/
def Symbol.isMarkable (s : Symbol) : Bool := s.kind == .cls && s.ns == .type

/-- The symbol without what the resolution of types fills in. -/
def Symbol.outline (s : Symbol) : Symbol :=
  { s with
    flags := if s.isMarkable then { s.flags with isAbstract := false } else s.flags
    data := s.data.outline }

/-- The scope without its link to a superclass. -/
@[simps]
def Scope.outline (s : Scope) : Scope :=
  { s with member := s.member.map fun info => { info with super := none } }

namespace Symbol

theorem kind_outline (s : Symbol) : s.outline.kind = s.kind := by
  cases s
  cases ‹SymbolData› <;> rfl

theorem members?_outline (s : Symbol) : s.outline.members? = s.members? := by
  cases s
  cases ‹SymbolData› <;> rfl

theorem fn?_outline (s : Symbol) : s.outline.fn? = s.fn? := by
  cases s
  cases ‹SymbolData› <;> rfl

theorem imported?_outline (s : Symbol) : s.outline.imported? = s.imported? := by
  cases s
  cases ‹SymbolData› <;> rfl

theorem isMarkable_outline (s : Symbol) : s.outline.isMarkable = s.isMarkable := by
  rw [isMarkable, kind_outline]
  rfl

section

variable {s s' : Symbol} (h : s'.outline = s.outline)

include h

theorem name_of_outline : s'.name = s.name := by
  have hsame := congrArg Symbol.name h
  exact hsame

theorem span_of_outline : s'.span = s.span := by
  have hsame := congrArg Symbol.span h
  exact hsame

theorem scope_of_outline : s'.scope = s.scope := by
  have hsame := congrArg Symbol.scope h
  exact hsame

theorem kind_of_outline : s'.kind = s.kind := by
  rw [← kind_outline, h, kind_outline]

theorem members?_of_outline : s'.members? = s.members? := by
  rw [← members?_outline, h, members?_outline]

theorem fn?_of_outline : s'.fn? = s.fn? := by
  rw [← fn?_outline, h, fn?_outline]

/-- Of the flags only the abstract mark may differ. -/
theorem flags_of_outline :
    { s'.flags with isAbstract := false } = { s.flags with isAbstract := false } := by
  have hflags : ∀ s : Symbol,
      { s.outline.flags with isAbstract := false } = { s.flags with isAbstract := false } := by
    intro s
    simp only [outline]
    split <;> rfl
  rw [← hflags s', h, hflags]

theorem isAbstract_of_outline (hmark : s.isMarkable = false) :
    s'.flags.isAbstract = s.flags.isAbstract := by
  have hmark' : s'.isMarkable = false := by
    rw [← isMarkable_outline, h, isMarkable_outline, hmark]
  have hflags := congrArg (fun s => s.flags.isAbstract) h
  simpa only [outline, hmark, hmark', Bool.false_eq_true, if_false] using hflags

/-- Functions have nothing that resolving types fills in. -/
theorem eq_of_outline (hkind : s.kind = .fn) : s' = s := by
  have hkind' : s'.kind = .fn := (kind_of_outline h).trans hkind
  have hself : ∀ s : Symbol, s.kind = .fn → s.outline = s := by
    intro s hs
    have hmark : s.isMarkable = false := by
      rw [isMarkable, hs]
      rfl
    cases s
    cases ‹SymbolData› with
    | fn => simp [outline, hmark, SymbolData.outline]
    | _ => cases hs
  rw [← hself s' hkind', h, hself s hkind]

end

end Symbol

theorem openness_of_flags {a b : Flags}
    (h : { a with isAbstract := false } = { b with isAbstract := false }) :
    a.isStatic = b.isStatic ∧ a.openness = b.openness ∧ a.isFinal = b.isFinal ∧
      a.isForeign = b.isForeign ∧ a.isPrivate = b.isPrivate := by
  cases a
  cases b
  simp only [Flags.mk.injEq] at h
  simp [Flags.openness, h]

namespace Graph

variable {g : Graph} {m : ScopeId} {name : String} {x : SymbolId}

/-- The graph without what the resolution of types fills in. -/
def outline (g : Graph) : Graph :=
  { scopes := g.scopes.map Scope.outline, symbols := g.symbols.map Symbol.outline }

section Readers

variable (g : Graph)

@[simp]
theorem size_scopes_outline : g.outline.scopes.size = g.scopes.size := Array.size_map

@[simp]
theorem size_symbols_outline : g.outline.symbols.size = g.symbols.size := Array.size_map

@[simp]
theorem scope_outline (q : ScopeId) : g.outline.scope q = (g.scope q).outline := by
  by_cases hq : q.index < g.scopes.size
  · simp [scope, outline, hq]
  · simp [scope, outline, hq]
    rfl

@[simp]
theorem symbol_outline (x : SymbolId) : g.outline.symbol x = (g.symbol x).outline := by
  by_cases hx : x.index < g.symbols.size
  · simp [symbol, outline, hx]
  · simp [symbol, outline, hx]
    rfl

@[simp]
theorem owner_outline : g.outline.owner = g.owner := by
  funext p
  simp [owner]

@[simp]
theorem enclosing_outline : g.outline.enclosing = g.enclosing := by
  have hwithin : ∀ fuel q, g.outline.enclosingWithin fuel q = g.enclosingWithin fuel q := by
    intro fuel
    induction fuel with
    | zero => intro q; rfl
    | succ fuel ih => intro q; simp [enclosingWithin, outward?, ih]
  funext p
  simp [enclosing, hwithin]

@[simp]
theorem memberFunctions_outline : g.outline.memberFunctions = g.memberFunctions := by
  funext x
  have hmembers : g.outline.membersOf? x = g.membersOf? x := by
    simp [membersOf?, Symbol.members?_outline]
  have hids : g.outline.memberIds x = g.memberIds x := by
    simp [memberIds, hmembers]
  have hslots : g.outline.slotIds x = g.slotIds x := by
    rw [slotIds, slotIds, hmembers]
    cases g.membersOf? x with
    | none => rfl
    | some m =>
      simp only [Option.bind_some, memberInfo?, scope_outline, Scope.outline_member,
        Option.map_map]
      rfl
  simp [memberFunctions, hids, hslots, Symbol.kind_outline]

@[simp]
theorem lookupHere?_outline : g.outline.lookupHere? = g.lookupHere? := by
  funext q name ns
  simp [lookupHere?]

@[simp]
theorem symbolPath_outline : g.outline.symbolPath = g.symbolPath := by
  have hmodules : g.outline.modulePath = g.modulePath := by
    funext q
    simp [modulePath, moduleNames]
  have hwithin : ∀ fuel x, g.outline.symbolPathWithin fuel x = g.symbolPathWithin fuel x := by
    intro fuel
    induction fuel with
    | zero => intro x; simp [symbolPathWithin, Symbol.outline]
    | succ fuel ih =>
      intro x
      have hscope : (g.symbol x).outline.scope = (g.symbol x).scope := rfl
      have hname : (g.symbol x).outline.name = (g.symbol x).name := rfl
      simp only [symbolPathWithin, symbol_outline, hscope, hname, owner_outline, hmodules]
      cases (g.symbol x).scope with
      | none => rfl
      | some place =>
        simp only [memberInfo?, scope_outline, Scope.outline_member]
        cases (g.scope (g.owner place)).member with
        | none => rfl
        | some info => simp only [Option.map_some, ih]
  funext x
  simp [symbolPath, hwithin]

end Readers

section Congr

variable {g g' : Graph} (h : g'.outline = g.outline)

include h

theorem outline_symbol_eq (x : SymbolId) : (g'.symbol x).outline = (g.symbol x).outline := by
  rw [← symbol_outline, h, symbol_outline]

theorem memberFunctions_congr : g'.memberFunctions = g.memberFunctions := by
  rw [← memberFunctions_outline, h, memberFunctions_outline]

theorem symbolPath_congr : g'.symbolPath = g.symbolPath := by
  rw [← symbolPath_outline, h, symbolPath_outline]

theorem lookupHere?_congr : g'.lookupHere? = g.lookupHere? := by
  rw [← lookupHere?_outline, h, lookupHere?_outline]

theorem size_symbols_of_outline : g'.symbols.size = g.symbols.size := by
  rw [← size_symbols_outline, h, size_symbols_outline]

theorem size_scopes_of_outline : g'.scopes.size = g.scopes.size := by
  rw [← size_scopes_outline, h, size_scopes_outline]

/-- Functions are the same symbols in both graphs. -/
theorem symbol_eq_of_kind {f : SymbolId} (hf : (g.symbol f).kind = .fn) :
    g'.symbol f = g.symbol f :=
  Symbol.eq_of_outline (outline_symbol_eq h f) hf

end Congr

/-! ### Agreement on some types -/

/-- Two graphs agree, up to their outline, on some types: on what is linked to them, on whether they
are abstract, and on the hints of their functions. With a type come those that it is linked to. -/
structure Concur (root : Option SymbolId) (types : Set SymbolId) (g g' : Graph) : Prop where
  outline : g'.outline = g.outline
  interfaces : ∀ t ∈ types, (g'.symbol t).interfaces = (g.symbol t).interfaces
  superclass : ∀ t ∈ types, g'.superclass? root t = g.superclass? root t
  isAbstract : ∀ t ∈ types, g'.isAbstract t = g.isAbstract t
  superScope : ∀ t ∈ types, ∀ m, (g.symbol t).members? = some m → g'.superScope? m = g.superScope? m
  param : ∀ t ∈ types, ∀ f ∈ g.memberFunctions t, ∀ p ∈ (g.symbol f).params,
    (g'.symbol p).var? = (g.symbol p).var?
  interface_mem : ∀ t ∈ types, ∀ i ∈ (g.symbol t).interfaces, i ∈ types
  superclass_mem : ∀ t ∈ types, ∀ b, g.superclass? root t = some b → b ∈ types
  chain : ∀ t ∈ types, ∀ m q, (g.symbol t).members? = some m → g.superScope? m = some q →
    ∃ u ∈ types, (g.symbol u).members? = some q

theorem superInterfaces_eq (g : Graph) (i : SymbolId) :
    g.superInterfaces i = if (g.symbol i).kind = .iface then (g.symbol i).interfaces else [] := by
  unfold superInterfaces Symbol.interfaces Symbol.kind
  cases (g.symbol i).data <;> rfl

/-- Folds of functions that agree on the elements of a list. -/
theorem foldl_congr_of_mem {α β : Type} {f f' : β → α → β} {items : List α}
    (h : ∀ a ∈ items, ∀ b, f' b a = f b a) (b : β) : items.foldl f' b = items.foldl f b := by
  induction items generalizing b with
  | nil => rfl
  | cons a rest ih =>
    rw [List.foldl_cons, List.foldl_cons, h a List.mem_cons_self]
    exact ih (fun a ha => h a (List.mem_cons_of_mem _ ha)) _

/-- Searches with functions that agree on the elements of a list. -/
theorem findSome?_congr_of_mem {α β : Type} {f f' : α → Option β} {items : List α}
    (h : ∀ a ∈ items, f' a = f a) : items.findSome? f' = items.findSome? f := by
  induction items with
  | nil => rfl
  | cons a rest ih =>
    rw [List.findSome?_cons, List.findSome?_cons, h a List.mem_cons_self,
      ih fun a ha => h a (List.mem_cons_of_mem _ ha)]

namespace Concur

variable {root : Option SymbolId} {types : Set SymbolId} {g g' : Graph} {c : SymbolId}
  (h : Concur root types g g') {f : SymbolId}

include h

theorem kind_eq (x : SymbolId) : (g'.symbol x).kind = (g.symbol x).kind :=
  Symbol.kind_of_outline (outline_symbol_eq h.outline x)

theorem members?_eq (x : SymbolId) : (g'.symbol x).members? = (g.symbol x).members? :=
  Symbol.members?_of_outline (outline_symbol_eq h.outline x)

theorem superInterfaces_eq {i : SymbolId} (hi : i ∈ types) :
    g'.superInterfaces i = g.superInterfaces i := by
  rw [Graph.superInterfaces_eq, Graph.superInterfaces_eq, h.kind_eq, h.interfaces i hi]

theorem addInterface_eq (fuel : Nat) : ∀ d, ∀ i ∈ types,
    g'.addInterface fuel d i = g.addInterface fuel d i := by
  induction fuel with
  | zero => exact fun _ _ _ => rfl
  | succ fuel ih =>
    intro d i hi
    rw [addInterface, addInterface, h.superInterfaces_eq hi, memberFunctions_congr h.outline]
    split
    · rfl
    · refine foldl_congr_of_mem (fun j hj d => ih d j ?_) _
      exact h.interface_mem i hi j (superInterfaces_subset i hj)

/-- A function of a type is abstract in both graphs or in none. -/
theorem isAbstract_function {t : SymbolId} (hf : f ∈ g.memberFunctions t) :
    g'.isAbstract f = g.isAbstract f := by
  rw [Graph.isAbstract, Graph.isAbstract,
    symbol_eq_of_kind h.outline (kind_of_mem_memberFunctions hf)]

theorem addClass_eq {first : Bool} {id : SymbolId} {data data' : ClassData} {d : Duties}
    (hid : id ∈ types) (hdata : (g.symbol id).class? = some data)
    (hdata' : (g'.symbol id).class? = some data') :
    g'.addClass first id data' d = g.addClass first id data d := by
  have hinterfaces : ∀ {s : Symbol} {data : ClassData}, s.class? = some data →
      data.interfaces.filterMap TypeRef.target = s.interfaces := by
    intro s data hs
    rw [Symbol.interfaces, class?_eq_some hs]
  have hown : (g.memberFunctions id).filter g'.isAbstract =
      (g.memberFunctions id).filter g.isAbstract :=
    List.filter_congr fun f hf => h.isAbstract_function hf
  rw [addClass, addClass, hinterfaces hdata, hinterfaces hdata', h.interfaces id hid,
    memberFunctions_congr h.outline, hown, size_symbols_of_outline h.outline]
  exact foldl_congr_of_mem
    (fun i hi d => h.addInterface_eq _ d i (h.interface_mem id hid i hi)) _

theorem addClasses_eq (fuel : Nat) : ∀ first d next, (∀ id, next = some id → id ∈ types) →
    g'.addClasses root fuel first d next = g.addClasses root fuel first d next := by
  induction fuel with
  | zero => exact fun _ _ _ _ => rfl
  | succ fuel ih =>
    intro first d next hnext
    cases next with
    | none => rfl
    | some id =>
      have hid := hnext id rfl
      by_cases hkind : (g.symbol id).kind = .cls
      · obtain ⟨data, hdata⟩ := class?_of_kind hkind
        obtain ⟨data', hdata'⟩ := class?_of_kind ((h.kind_eq id).trans hkind)
        simp only [addClasses, hdata, hdata', h.isAbstract id hid, h.superclass id hid,
          h.addClass_eq hid hdata hdata']
        split
        · rfl
        · exact ih _ _ _ fun b hb => h.superclass_mem id hid b hb
      · have hnone : ∀ {s : Symbol}, s.kind ≠ .cls → s.class? = none := by
          intro s hs
          cases hclass : s.class? with
          | none => rfl
          | some data => exact absurd (kind_of_class? hclass) hs
        have hkind' : (g'.symbol id).kind ≠ .cls := by rwa [h.kind_eq]
        simp only [addClasses, hnone hkind, hnone hkind']

/-- A class owes the same functions in both graphs. -/
theorem obligations_eq (hc : c ∈ types) : g'.obligations root c = g.obligations root c := by
  rw [obligations, obligations, size_symbols_of_outline h.outline,
    h.addClasses_eq _ _ _ _ fun id hid => Option.some.inj hid ▸ hc]

theorem addInterface_gathers (fuel : Nat) : ∀ d, ∀ i ∈ types,
    (∀ f ∈ d.functions, ∃ t ∈ types, f ∈ g.memberFunctions t) →
    ∀ f ∈ (g.addInterface fuel d i).functions, ∃ t ∈ types, f ∈ g.memberFunctions t := by
  induction fuel with
  | zero => exact fun _ _ _ hd => hd
  | succ fuel ih =>
    intro d i hi hd
    rw [addInterface]
    split
    · exact hd
    · refine List.foldlRecOn _ _ (fun f hf => ?_) fun d hd j hj => ih d j ?_ hd
      · rcases List.mem_append.mp hf with hf | hf
        · exact hd f hf
        · exact ⟨i, hi, hf⟩
      · exact h.interface_mem i hi j (superInterfaces_subset i hj)

/-- The functions that a class owes belong to the types. -/
theorem exists_of_mem_obligations (hc : c ∈ types) (hf : f ∈ g.obligations root c) :
    ∃ t ∈ types, f ∈ g.memberFunctions t := by
  have hclasses : ∀ fuel first d next, (∀ id, next = some id → id ∈ types) →
      (∀ f ∈ Duties.functions d, ∃ t ∈ types, f ∈ g.memberFunctions t) →
      ∀ f ∈ (g.addClasses root fuel first d next).functions,
        ∃ t ∈ types, f ∈ g.memberFunctions t := by
    intro fuel
    induction fuel with
    | zero => exact fun _ _ _ _ hd => hd
    | succ fuel ih =>
      intro first d next hnext hd
      cases next with
      | none => exact hd
      | some id =>
        have hid := hnext id rfl
        unfold addClasses
        split
        · exact hd
        next data hdata =>
          split
          · exact hd
          · refine ih _ _ _ (fun b hb => h.superclass_mem id hid b hb) ?_
            refine List.foldlRecOn _ _ (fun f hf => ?_) fun d hd i hi =>
              h.addInterface_gathers _ d i (h.interface_mem id hid i ?_) hd
            · rcases List.mem_append.mp hf with hf | hf
              · exact hd f hf
              · split at hf
                · cases hf
                · exact ⟨id, hid, (List.mem_filter.mp hf).1⟩
            · rwa [Symbol.interfaces, class?_eq_some hdata]
  refine hclasses _ _ _ _ (fun id hid => Option.some.inj hid ▸ hc) (fun f hf => ?_) f hf
  exact absurd hf List.not_mem_nil

/-! ### Implementations -/

/-- The same member is found, in a scope of one of the types. -/
theorem implementationFrom?_eq (name : String) (fuel : Nat) :
    ∀ m, (∃ t ∈ types, (g.symbol t).members? = some m) →
      g'.implementationFrom? name fuel (some m) = g.implementationFrom? name fuel (some m) ∧
        ∀ i, g.implementationFrom? name fuel (some m) = some i → ∃ t ∈ types, ∃ m,
          (g.symbol t).members? = some m ∧ g.lookupHere? m name (some .value) = some i := by
  induction fuel with
  | zero => exact fun _ _ => ⟨rfl, by rintro _ ⟨⟩⟩
  | succ fuel ih =>
    rintro m ⟨t, ht, hm⟩
    rw [implementationFrom?, implementationFrom?, lookupHere?_congr h.outline,
      h.superScope t ht m hm]
    cases hhere : g.lookupHere? m name (some .value) with
    | some i =>
      refine ⟨rfl, fun j hj => ?_⟩
      cases hj
      exact ⟨t, ht, m, hm, hhere⟩
    | none =>
      cases hsuper : g.superScope? m with
      | none => cases fuel <;> exact ⟨rfl, by rintro _ ⟨⟩⟩
      | some q => exact ih q (h.chain t ht m q hm hsuper)

theorem implementation?_eq (hc : c ∈ types) (name : String) :
    g'.implementation? c name = g.implementation? c name ∧
      ∀ i, g.implementation? c name = some i → ∃ t ∈ types, ∃ m,
        (g.symbol t).members? = some m ∧ g.lookupHere? m name (some .value) = some i := by
  have hmembers : g'.membersOf? c = g.membersOf? c := h.members?_eq c
  rw [implementation?, implementation?, hmembers, size_scopes_of_outline h.outline]
  cases hm : g.membersOf? c with
  | none => exact ⟨rfl, by rintro _ ⟨⟩⟩
  | some m => exact h.implementationFrom?_eq name _ m ⟨c, hc, hm⟩

end Concur

/-- The scope itself or its private partition. -/
def Part (g : Graph) (m q : ScopeId) : Prop := q = m ∨ (g.scope m).inner = some q

theorem exists_part_of_lookupHere? {ns : Namespace} (h : g.lookupHere? m name (some ns) = some x) :
    ∃ q, g.Part m q ∧ (g.scope q).table.get? ns name = some x := by
  unfold lookupHere? at h
  cases htable : (g.scope m).table.find? name (some ns) with
  | some y =>
    rw [htable] at h
    cases h
    exact ⟨m, .inl rfl, htable⟩
  | none =>
    rw [htable] at h
    obtain ⟨inner, hinner, hx⟩ := Option.bind_eq_some_iff.mp h
    exact ⟨inner, .inr hinner, hx⟩

theorem mem_memberIds_iff (hg : g.Coherent) {t : SymbolId} (hm : (g.symbol t).members? = some m) :
    x ∈ g.memberIds t ↔
      ∃ q ns name, g.Part m q ∧ (g.scope q).table.get? ns name = some x := by
  have hids : ∀ q, x ∈ (g.scope q).table.ids ↔
      ∃ ns name, (g.scope q).table.get? ns name = some x := fun q =>
    (hg.functional q).mem_ids_iff
  simp only [memberIds, membersOf?, hm, List.mem_append, hids]
  constructor
  · rintro (⟨ns, name, hx⟩ | hx)
    · exact ⟨m, ns, name, .inl rfl, hx⟩
    · split at hx
      next inner hinner =>
        obtain ⟨ns, name, hx⟩ := (hids inner).mp hx
        exact ⟨inner, ns, name, .inr hinner, hx⟩
      next => cases hx
  · rintro ⟨q, ns, name, rfl | hq, hx⟩
    · exact .inl ⟨ns, name, hx⟩
    · refine .inr ?_
      rw [hq]
      exact (hids q).mpr ⟨ns, name, hx⟩

/-- A member that is found in the scope of a type is one of its functions, if it is a function. -/
theorem mem_memberFunctions_of_lookupHere? (hg : g.Coherent) {t i : SymbolId}
    (hm : (g.symbol t).members? = some m) (hi : g.lookupHere? m name (some .value) = some i)
    (hkind : (g.symbol i).kind = .fn) : i ∈ g.memberFunctions t := by
  obtain ⟨q, hq, hi⟩ := exists_part_of_lookupHere? hi
  have hmem : i ∈ g.memberIds t := (mem_memberIds_iff hg hm).mpr ⟨q, .value, name, hq, hi⟩
  exact List.mem_filter.mpr ⟨List.mem_append_left _ hmem, beq_iff_eq.mpr hkind⟩

/-- What is found as a value cannot be marked. -/
theorem isMarkable_of_lookupHere? (hg : g.Coherent) {i : SymbolId}
    (hi : g.lookupHere? m name (some .value) = some i) : (g.symbol i).isMarkable = false := by
  obtain ⟨q, -, hi⟩ := exists_part_of_lookupHere? hi
  rw [Symbol.isMarkable, (hg.entry hi).2.1, Bool.and_eq_false_iff]
  exact .inr rfl

namespace Concur

variable {root : Option SymbolId} {types : Set SymbolId} {g g' : Graph} {c : SymbolId}
  (h : Concur root types g g') {f : SymbolId}

include h

/-- Functions of the types fit each other in both graphs or in none. -/
theorem mismatch?_eq {i : SymbolId} (hf : ∃ t ∈ types, f ∈ g.memberFunctions t)
    (hi : (g.symbol i).kind = .fn → ∃ t ∈ types, i ∈ g.memberFunctions t) :
    g'.mismatch? f i = g.mismatch? f i := by
  obtain ⟨t, ht, hf⟩ := hf
  obtain ⟨a, ha⟩ := fn?_of_kind (kind_of_mem_memberFunctions hf)
  have hsame : g'.symbol f = g.symbol f :=
    symbol_eq_of_kind h.outline (kind_of_mem_memberFunctions hf)
  by_cases hkind : (g.symbol i).kind = .fn
  · obtain ⟨u, hu, hi⟩ := hi hkind
    obtain ⟨b, hb⟩ := fn?_of_kind hkind
    have hsame' : g'.symbol i = g.symbol i := symbol_eq_of_kind h.outline hkind
    simp only [mismatch?, hsame, hsame', ha, hb]
    -- the parameters may differ in other types, but not in these
    have hparams : ∀ pq ∈ a.params.zip b.params,
        paramMismatch? (g'.symbol pq.1) (g'.symbol pq.2) =
          paramMismatch? (g.symbol pq.1) (g.symbol pq.2) := by
      rintro ⟨p, q⟩ hpq
      obtain ⟨hp, hq⟩ := List.of_mem_zip hpq
      have hpa : p ∈ (g.symbol f).params := by
        rw [Symbol.params, ha]
        exact hp
      have hqb : q ∈ (g.symbol i).params := by
        rw [Symbol.params, hb]
        exact hq
      have hname := Symbol.name_of_outline (outline_symbol_eq h.outline q)
      simp only [paramMismatch?, h.param t ht f hf p hpa, h.param u hu i hi q hqb, hname]
    have hfind := findSome?_congr_of_mem hparams
    split
    · rfl
    · split
      · rfl
      · split
        · rfl
        · exact hfind
  · have houtline := outline_symbol_eq h.outline i
    have hnone : ∀ {s : Symbol}, s.kind ≠ .fn → s.fn? = none := fun hs => fn?_eq_none hs
    have hkind' : (g'.symbol i).kind ≠ .fn := by rwa [h.kind_eq]
    simp only [mismatch?, hsame, ha, hnone hkind, hnone hkind', h.kind_eq,
      Symbol.name_of_outline houtline]

/-- A class stands the same with a function of the types in both graphs. That the tables are in
order need only be known of a graph with the same outline. -/
theorem standing_eq {g₁ : Graph} (hg : g₁.Coherent) (hsame : g.outline = g₁.outline)
    (hc : c ∈ types) (hf : ∃ t ∈ types, f ∈ g.memberFunctions t) :
    g'.standing c f = g.standing c f := by
  have hname := Symbol.name_of_outline (outline_symbol_eq h.outline f)
  obtain ⟨himpl, hfound⟩ := h.implementation?_eq hc (g.symbol f).name
  unfold standing
  rw [hname, himpl]
  cases hi : g.implementation? c (g.symbol f).name with
  | none => rfl
  | some i =>
    obtain ⟨t, ht, m, hm, hhere⟩ := hfound i hi
    rw [lookupHere?_congr hsame] at hhere
    have hmarkable : (g.symbol i).isMarkable = false := by
      rw [← Symbol.isMarkable_outline, outline_symbol_eq hsame, Symbol.isMarkable_outline]
      exact isMarkable_of_lookupHere? hg hhere
    have habstract : g'.isAbstract i = g.isAbstract i :=
      Symbol.isAbstract_of_outline (outline_symbol_eq h.outline i) hmarkable
    have hmismatch := h.mismatch?_eq hf fun hkind => by
      rw [Symbol.members?_of_outline (outline_symbol_eq hsame t)] at hm
      rw [Symbol.kind_of_outline (outline_symbol_eq hsame i)] at hkind
      refine ⟨t, ht, ?_⟩
      rw [memberFunctions_congr hsame]
      exact mem_memberFunctions_of_lookupHere? hg hm hhere hkind
    simp only [habstract, hmismatch]

end Concur

/-! ### Stages of the resolution -/

theorem outline_modifySymbol {f : Symbol → Symbol}
    (hf : (f (g.symbol x)).outline = (g.symbol x).outline) :
    (g.modifySymbol x f).outline = g.outline := by
  refine ext_of_view (by simp) (by simp) (fun p => by simp) fun y => ?_
  rw [symbol_outline, symbol_outline, symbol_modifySymbol]
  split
  next hy => rw [hy.1, hf]
  next => rfl

theorem outline_setResolution (s : Symbol) (resolution : Resolution) :
    Symbol.outline { s with data := s.data.setResolution resolution } = s.outline := by
  cases s
  cases ‹SymbolData› <;> rfl

/-- How far a type has been resolved makes no difference to its links. -/
theorem concur_setResolution (hg : g.Regular) (root : Option SymbolId) (x : SymbolId)
    (resolution : Resolution) :
    Concur root .univ g (g.modifyData x (·.setResolution resolution)) where
  outline := outline_modifySymbol (outline_setResolution _ _)
  interfaces t _ := by
    refine symbol_modifySymbol_congr Symbol.interfaces _ _ fun s => ?_
    cases s
    cases ‹SymbolData› <;> rfl
  superclass t _ := by
    rw [superclass?, superclass?, modifyData, symbol_modifySymbol]
    split
    next hx =>
      rw [hx.1]
      generalize g.symbol x = s
      cases s
      cases ‹SymbolData› <;> rfl
    next => rfl
  isAbstract t _ := symbol_modifySymbol_congr (fun s => s.flags.isAbstract) _ _ fun _ => rfl
  superScope _ _ _ _ := rfl
  param _ _ _ _ p _ := by
    refine symbol_modifySymbol_congr Symbol.var? _ _ fun s => ?_
    cases s
    cases ‹SymbolData› <;> rfl
  interface_mem _ _ _ _ := Set.mem_univ _
  superclass_mem _ _ _ _ := Set.mem_univ _
  chain _ _ _ _ _ hq := by
    obtain ⟨u, -, hu⟩ := hg.link hq
    exact ⟨u, Set.mem_univ u, hu⟩

end Graph

end Scoping
