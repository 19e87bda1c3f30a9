import Scoping.Proofs.Graph.Enrol

/-!
# What the second walk does to the graph

The second walk looks names up, resolves types and fills in what the declarations left open.
`Graph.Elaborates` lists these portions. Like those of the first walk, each is made of steps and of
edits, and it proceeds. Symbols get no subtrees but those that are held.
-/

namespace Scoping

namespace Hierarchy

variable {g : Graph} {id : SymbolId} {types : Set SymbolId} {index : Nat} {target : SymbolId}

/-! ### Links -/

/-- Setting a target adds this one and no other. -/
theorem mem_setTarget {refs : List TypeRef} {t : SymbolId}
    (h : t ∈ (setTarget refs index target).filterMap TypeRef.target) :
    t ∈ refs.filterMap TypeRef.target ∨ t = target := by
  obtain ⟨ref, href, ht⟩ := List.mem_filterMap.mp h
  rw [setTarget, List.mem_iff_getElem?] at href
  obtain ⟨i, hi⟩ := href
  rw [List.getElem?_modify] at hi
  obtain ⟨old, hold, rfl⟩ := Option.map_eq_some_iff.mp hi
  split at ht
  · exact .inr (Option.some.inj ht).symm
  · exact .inl (List.mem_filterMap.mpr ⟨old, List.mem_of_getElem? hold, ht⟩)

/-- An interface of a class, or one that an interface extends. -/
theorem linkInterface_edit (hkind : (g.symbol target).kind = .iface) :
    Graph.Edit types g (g.modifyData id (·.mapClass fun d =>
      { d with interfaces := setTarget d.interfaces index target })) ∧
    Graph.Edit types g (g.modifyData id (·.mapInterface fun d =>
      { d with interfaces := setTarget d.interfaces index target })) := by
  have hlink : ∀ {refs : List TypeRef} {t : SymbolId},
      t ∈ (setTarget refs index target).filterMap TypeRef.target →
      t ∈ refs.filterMap TypeRef.target ∨ (g.symbol t).kind = .iface := fun {_ t} ht =>
    (mem_setTarget ht).imp_right fun heq : t = target => heq ▸ hkind
  refine ⟨.amendSymbol ?_ ?_, .amendSymbol ?_ ?_⟩
  all_goals
    generalize g.symbol id = s
    cases s
    cases ‹SymbolData›
  case refine_1.mk.cls =>
    exact ⟨⟨rfl, .inl rfl, rfl⟩, .inr ⟨rfl, rfl⟩, fun _ => hlink, fun _ => .inl⟩
  case refine_3.mk.iface =>
    exact ⟨⟨rfl, .inl rfl, rfl⟩, .inr ⟨rfl, rfl⟩, fun _ => hlink, fun _ => .inl⟩
  all_goals first | rfl | exact .refl

theorem linkSuper_edits {members : ScopeId} {super : SymbolId}
    (hkind : (g.symbol super).kind = .cls) :
    Graph.Edits types g (linkSuper g id members super) := by
  have hmember : Graph.Edit types g (g.modifyMember members fun info =>
      { info with super := g.membersOf? super }) := .mapMember fun _ => .link hkind
  refine .tail (.single hmember) (.amendSymbol ?_ ?_)
  all_goals
    rw [Graph.modifyMember, Graph.symbol_modifyScope]
    generalize g.symbol id = s
    cases s
  · cases ‹SymbolData› with
    | cls data =>
      refine ⟨⟨rfl, .inl rfl, rfl⟩, .inr ⟨rfl, rfl⟩, fun t ht => .inl ht, fun t ht => .inr ?_⟩
      obtain ⟨_ | ref, interfaces, traits, m, r⟩ := data
      · cases ht
      · cases ht
        exact hkind
    | _ => exact .refl
  · cases ‹SymbolData› <;> rfl

theorem makeAbstract_edit (hid : id ∈ types)
    (hopen : (g.symbol id).data.resolution? ≠ some .resolved) :
    Graph.Edit types g (makeAbstract g id) :=
  .amendSymbol ⟨⟨rfl, .inl rfl, rfl⟩, .inl ⟨hid, hopen⟩, fun _ ht => .inl ht, fun _ ht => .inl ht⟩
    rfl

theorem setResolution_edit (hid : id ∈ types)
    (hopen : (g.symbol id).data.resolution? ≠ some .resolved) (resolution : Resolution) :
    Graph.Edit types g (g.modifyData id (·.setResolution resolution)) := by
  refine .amendSymbol (.setResolution hid hopen resolution) ?_
  generalize g.symbol id = s
  cases s
  cases ‹SymbolData› <;> rfl

end Hierarchy

namespace Graph

variable {closing : Prop} {g g' : Graph} {types types' : Set SymbolId} {held held' : NodeId → Prop}
  {n : Nat}

/-- What the second walk does to the graph, portion by portion, apart from declarations and copies
of trait members. Only the given types are resolved, made abstract or linked to as superclasses.
Classes are decided about only where they are `closing`. -/
inductive Elaborates (closing : Prop) (types : Set SymbolId) (held : NodeId → Prop) :
    Graph → Graph → Prop where
  | lookUp {g : Graph} (start : ScopeId) (path : QualName) (ns : Namespace) :
    Elaborates closing types held g (g.lookupPath start path ns).2
  | copyDefaults {g : Graph} (f : SymbolId) {params : List Param} :
    (∀ param ∈ params, ∀ id, param.default = some id → held id) →
    Elaborates closing types held g (Declaration.copyDefaults g f params)
  | fill {g : Graph} (x : SymbolId) {f : VariableData → VariableData} :
    (∀ v, (f v).init = v.init) → Elaborates closing types held g (g.modifyData x (·.mapVar f))
  | reach {g : Graph} (x : SymbolId) :
    Elaborates closing types held g (g.modifySymbol x fun s => { s with reachable := true })
  | linkImport {g : Graph} (x : SymbolId) (f : ImportData → ImportData) :
    Elaborates closing types held g (g.modifyData x (·.mapImport f))
  | makeAbstract {g : Graph} {x : SymbolId} : closing → x ∈ types →
    (g.symbol x).data.resolution? ≠ some .resolved →
    Elaborates closing types held g (Hierarchy.makeAbstract g x)
  | resolve {g : Graph} {x : SymbolId} {r : Resolution} : x ∈ types →
    (g.symbol x).data.resolution? ≠ some .resolved →
    (r = .resolved → (g.symbol x).kind = .cls → closing) →
    Elaborates closing types held g (g.modifyData x (·.setResolution r))
  | linkSuper {g : Graph} {x super : SymbolId} {members : ScopeId} : super ∈ types →
    (g.symbol x).members? = some members → (g.symbol x).data.resolution? ≠ some .resolved →
    (g.symbol super).data.resolution? = some .resolved → (g.symbol super).kind = .cls →
    Elaborates closing types held g (Hierarchy.linkSuper g x members super)
  | linkInterface {g : Graph} (x : SymbolId) (index : Nat) {target : SymbolId} :
    (g.symbol target).kind = .iface →
    Elaborates closing types held g (g.modifyData x (·.mapClass fun d =>
      { d with interfaces := Hierarchy.setTarget d.interfaces index target }))
  | linkExtended {g : Graph} (x : SymbolId) (index : Nat) {target : SymbolId} :
    (g.symbol target).kind = .iface →
    Elaborates closing types held g (g.modifyData x (·.mapInterface fun d =>
      { d with interfaces := Hierarchy.setTarget d.interfaces index target }))

theorem Elaborates.mono (htypes : types ⊆ types')
    (h : Elaborates closing types held g g') : Elaborates closing types' held g g' := by
  cases h with
  | lookUp start path ns => exact .lookUp start path ns
  | copyDefaults f h => exact .copyDefaults f h
  | fill x h => exact .fill x h
  | reach x => exact .reach x
  | linkImport x f => exact .linkImport x f
  | makeAbstract hclosing hx h => exact .makeAbstract hclosing (htypes hx) h
  | resolve hx h h' => exact .resolve (htypes hx) h h'
  | linkSuper hx h₁ h₂ h₃ h₄ => exact .linkSuper (htypes hx) h₁ h₂ h₃ h₄
  | linkInterface x index h => exact .linkInterface x index h
  | linkExtended x index h => exact .linkExtended x index h

/-! ### Steps -/

theorem mapVar_spec (g : Graph) (x : SymbolId) (f : VariableData → VariableData) :
    Step ∅ g (g.modifyData x (·.mapVar f)) ∧ g.Spares (g.modifyData x (·.mapVar f)) ∧
      ∀ y, (g.modifyData x (·.mapVar f)).paramsOf y = g.paramsOf y := by
  have hamend : AmendsSymbol ∅ x (g.symbol x)
      { g.symbol x with data := (g.symbol x).data.mapVar f } := .mapVar f
  refine ⟨.amendSymbol hamend, hamend.spares, symbol_modifySymbol_rel
    (fun s s' => (s'.fn?.map (·.params)).getD [] = (s.fn?.map (·.params)).getD [])
    (fun _ => rfl) ?_⟩
  cases hd : (g.symbol x).data <;> simp [Symbol.fn?, SymbolData.mapVar, hd]

theorem copyDefaults_spec (g : Graph) (f : SymbolId) (params : List Param) :
    Steps ∅ g (Declaration.copyDefaults g f params) ∧
      g.Spares (Declaration.copyDefaults g f params) ∧
      (Declaration.copyDefaults g f params).paramsOf f = g.paramsOf f := by
  refine copyDefaults_induction (P := fun g' => Steps ∅ g g' ∧ g.Spares g' ∧
    g'.paramsOf f = g.paramsOf f) ⟨.refl, .refl, rfl⟩ fun g' x _ param _ h => ?_
  obtain ⟨hsteps, hspares, hparams⟩ := h
  obtain ⟨hstep, hspares', hparams'⟩ := mapVar_spec g' x fun v => { v with init := param.default }
  exact ⟨hsteps.tail hstep, hspares.trans hspares', (hparams' f).trans hparams⟩

theorem Elaborates.steps (h : Elaborates closing types held g g') : Steps types g g' := by
  cases h with
  | lookUp start path ns => exact lookupPath_steps start path ns
  | copyDefaults f => exact (copyDefaults_spec g f _).1.mono (Set.empty_subset _)
  | fill x => exact .single (.amendSymbol (.mapVar _))
  | reach x | makeAbstract => exact .single (.amendSymbol ⟨⟨rfl, rfl, fun h => h⟩, rfl, .inr rfl⟩)
  | linkImport x f => exact .single (.amendSymbol (.mapImport _))
  | resolve hx hr => exact .single (.amendSymbol (.setResolution hx hr))
  | linkSuper hsuper hmembers hopen hresolved _ =>
    exact .tail (.single (.link hsuper hmembers hopen hresolved))
      (.amendSymbol (.mapClass (fun _ => rfl) fun _ => rfl))
  | linkInterface => exact .single (.amendSymbol (.mapClass (fun _ => rfl) fun _ => rfl))
  | linkExtended => exact .single (.amendSymbol (.mapInterface (fun _ => rfl) fun _ => rfl))

/-! ### Edits -/

/-- Resolving a name notes captures and nothing else. -/
theorem lookupPath_edits (start : ScopeId) (path : QualName) (ns : Namespace) :
    Edits types g (g.lookupPath start path ns).2 :=
  lookupPath_induction (P := Edits types g) start path ns .refl
    (fun _ _ h => h.tail (.amendScope ⟨rfl, rfl, rfl, .inl rfl, rfl, .inl rfl⟩))
    fun _ h => h.tail (.amendSymbol (.of_data_eq rfl rfl rfl) rfl)

theorem mapVar_edit {x : SymbolId} (f : VariableData → VariableData) :
    Edit types g (g.modifyData x (·.mapVar f)) := by
  refine .amendSymbol (.mapVar f) ?_
  generalize g.symbol x = s
  cases s
  cases ‹SymbolData› <;> rfl

theorem Elaborates.edits (h : Elaborates closing types held g g') : Edits types g g' := by
  cases h with
  | lookUp start path ns => exact lookupPath_edits start path ns
  | copyDefaults f =>
    exact copyDefaults_induction (P := Edits types g) .refl
      fun _ _ _ _ _ h => h.tail (mapVar_edit _)
  | fill x => exact .single (mapVar_edit _)
  | reach x => exact .single (.amendSymbol (.of_data_eq rfl rfl rfl) rfl)
  | linkImport x f =>
    refine .single (.amendSymbol (.mapImport f) ?_)
    generalize g.symbol x = s
    cases s
    cases ‹SymbolData› <;> rfl
  | makeAbstract _ hx h => exact .single (Hierarchy.makeAbstract_edit hx h)
  | resolve hx h => exact .single (Hierarchy.setResolution_edit hx h _)
  | linkSuper _ _ _ _ hkind => exact Hierarchy.linkSuper_edits hkind
  | linkInterface x index hkind => exact .single (Hierarchy.linkInterface_edit hkind).1
  | linkExtended x index hkind => exact .single (Hierarchy.linkInterface_edit hkind).2

/-! ### Subtrees -/

/-- The subtree of some symbol starts at the node. -/
def Cites (g : Graph) (id : NodeId) : Prop := ∃ x, (g.symbol x).subtree? = some id

/-- Symbols have the subtrees that they had, or ones that are held. -/
def Hands (held : NodeId → Prop) (g g' : Graph) : Prop :=
  ∀ x id, (g'.symbol x).subtree? = some id → g.Cites id ∨ held id

namespace Hands

variable {g'' : Graph}

theorem of_eq (h : ∀ x, (g'.symbol x).subtree? = (g.symbol x).subtree?) : Hands held g g' :=
  fun x _ hid => .inl ⟨x, (h x).symm.trans hid⟩

protected theorem refl : Hands held g g := of_eq fun _ => rfl

protected theorem trans (h : Hands held g g') (h' : Hands held g' g'') : Hands held g g'' := by
  intro x id hid
  rcases h' x id hid with ⟨y, hy⟩ | hid
  · exact h y id hy
  · exact .inr hid

theorem mono (hheld : ∀ id, held id → held' id) (h : Hands held g g') : Hands held' g g' :=
  fun x id hid => (h x id hid).imp_right (hheld id)

end Hands

theorem Enrol.hands (h : Enrol held g g') : Hands held g g' := by
  intro x id hid
  by_cases hx : x.index < g.symbols.size
  · exact .inl ⟨x, (h.collects.subtree?_eq hx).symm.trans hid⟩
  · exact .inr (h.collects.subtree (Nat.le_of_not_lt hx) id hid)

/-- Only parameters get other subtrees, namely default values that are held. -/
theorem Elaborates.subtree (h : Elaborates closing types held g g') (x : SymbolId) :
    (g'.symbol x).subtree? = (g.symbol x).subtree? ∨ (∃ f, x ∈ (g.symbol f).params) ∧
      ∀ id, (g'.symbol x).subtree? = some id → held id := by
  have hdata : ∀ {g₁ : Graph} (y : SymbolId) {f : SymbolData → SymbolData},
      (∀ (s : Symbol) data, Symbol.subtree? { s with data := f data } =
        Symbol.subtree? { s with data }) →
      ((g₁.modifyData y f).symbol x).subtree? = (g₁.symbol x).subtree? := fun y _ hf =>
    symbol_modifySymbol_congr Symbol.subtree? y x fun s => hf s s.data
  cases h with
  | lookUp start path ns =>
    refine .inl (lookupPath_induction (P := fun g' =>
      (g'.symbol x).subtree? = (g.symbol x).subtree?) start path ns rfl (fun _ _ h => h)
      fun y h => ?_)
    exact .trans (symbol_modifySymbol_congr Symbol.subtree? y x (by exact fun _ => rfl)) h
  | copyDefaults f hparams =>
    refine copyDefaults_induction (P := fun g' => (g'.symbol x).subtree? = (g.symbol x).subtree? ∨
      (∃ f, x ∈ (g.symbol f).params) ∧ ∀ id, (g'.symbol x).subtree? = some id → held id)
      (.inl rfl) fun g' y hy param hparam h => ?_
    rw [Graph.modifyData, symbol_modifySymbol]
    split
    next heq =>
      -- a parameter that is a variable gets the default, any other symbol nothing
      generalize g'.symbol x = s at h
      cases s
      cases ‹SymbolData› with
      | var data => exact .inr ⟨⟨f, heq.1 ▸ hy⟩, hparams param hparam⟩
      | _ => exact h
    next => exact h
  | fill y hf =>
    refine .inl (hdata y fun _ data => ?_)
    cases data with
    | var data => exact hf data
    | _ => rfl
  | reach y => exact .inl (symbol_modifySymbol_congr Symbol.subtree? y x fun _ => rfl)
  | makeAbstract => exact .inl (symbol_modifySymbol_congr Symbol.subtree? _ x fun _ => rfl)
  | _ => exact .inl (hdata _ fun _ data => by cases data <;> rfl)

theorem Elaborates.hands (h : Elaborates closing types held g g') :
    Hands held g g' := fun x id hid =>
  (h.subtree x).elim (fun heq => .inl ⟨x, heq.symm.trans hid⟩) fun hheld => .inr (hheld.2 id hid)

/-! ### Deeds proceed -/

/-- No symbols are added, and all scopes are as active as before. -/
theorem Elaborates.frame (h : Elaborates closing types held g g') :
    g'.symbols.size = g.symbols.size ∧ ∀ q, (g'.scope q).usage = (g.scope q).usage := by
  have hsymbol : ∀ {g₁ : Graph} (x : SymbolId) (f : Symbol → Symbol),
      (g₁.modifySymbol x f).symbols.size = g₁.symbols.size ∧
        ∀ q, ((g₁.modifySymbol x f).scope q).usage = (g₁.scope q).usage := fun x f =>
    ⟨size_symbols_modifySymbol _ x f, fun _ => rfl⟩
  cases h with
  | lookUp start path ns =>
    refine lookupPath_induction (P := fun g' => g'.symbols.size = g.symbols.size ∧
      ∀ q, (g'.scope q).usage = (g.scope q).usage) start path ns ⟨rfl, fun _ => rfl⟩
      (fun p _ h => ⟨h.1, fun q => ?_⟩) fun x h => ⟨(hsymbol x _).1.trans h.1, h.2⟩
    exact .trans (scope_modifyScope_congr Scope.usage p q (by exact fun _ => rfl)) (h.2 q)
  | copyDefaults f =>
    exact copyDefaults_induction (P := fun g' => g'.symbols.size = g.symbols.size ∧
      ∀ q, (g'.scope q).usage = (g.scope q).usage) ⟨rfl, fun _ => rfl⟩
      fun _ x _ _ _ h => ⟨(hsymbol x _).1.trans h.1, h.2⟩
  | linkSuper =>
    refine ⟨(hsymbol _ _).1, fun q => usage_modifyMember ?_ q⟩
    exact fun _ => rfl
  | _ => exact hsymbol _ _

theorem Elaborates.proceeds (hg : g.Regular) (h : Elaborates closing types held g g') :
    g.Proceeds n g' where
  toAdvances := .of_edits h.edits fun _ hs => (h.subtree _).resolve_right fun ⟨⟨f, hf⟩, _⟩ => by
    have hparam := (hg.param hf).2
    exact hs.elim (fun h => Bool.noConfusion (hparam.isParam.symm.trans h)) (absurd hparam.origin)
  toSteady := .of_usage h.frame.2
  declared hx := by
    rw [symbol_of_size_le (h.frame.1 ▸ hx)]
    exact .inr ⟨rfl, nofun⟩

end Graph

end Scoping
