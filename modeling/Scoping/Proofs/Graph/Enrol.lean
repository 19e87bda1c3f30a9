import Scoping.Proofs.Graph.Collect

/-!
# What the first walk does to the graph

The walks over a unit change the graph in portions that belong together: a symbol is taken into the
arena and declared, a function gets its parameters, a body its scope. `Graph.Enrol` lists those of
the first walk. Each portion is made of steps and of edits that collect, and it proceeds; these
three views of the same change are the theorems of this file, so that a walk is gone through once
and not three times.
-/

namespace Scoping

/-- A symbol as the declaration of a function, a variable or an import makes it. Its subtree is one
of the nodes that are `held`. -/
structure Symbol.Plain (held : NodeId → Prop) (s : Symbol) : Prop where
  scope : s.scope = none
  members? : s.members? = none
  params : s.params = []
  origin : s.origin = none
  ns : s.ns = s.kind.home
  managed : s.managed = false
  subtree : ∀ id, s.subtree? = some id → held id

/-- A symbol as the declaration of a type in the scope `p` makes it. -/
structure Symbol.Typed (p : ScopeId) (s : Symbol) : Prop extends s.Unresolved where
  scope : s.scope = none
  isType : s.kind.isType = true
  members? : s.members? = some p
  managed : s.managed = false
  subtree? : s.subtree? = none

/-- Types have no parameters. -/
theorem Symbol.Typed.params {p : ScopeId} {s : Symbol} (hs : s.Typed p) : s.params = [] := by
  refine Graph.params_of_kind fun h => ?_
  have htype := hs.isType
  rw [h] at htype
  cases htype

theorem Symbol.Typed.members?_setMembers {p m : ScopeId} {s : Symbol} (hs : s.Typed p) :
    Symbol.members? { s with data := s.data.setMembers m } = some m := by
  have hmembers := hs.members?
  cases hdata : s.data <;> simp_all [Symbol.members?, SymbolData.members?, SymbolData.setMembers]

namespace Symbol.Plain

variable {g : Graph} {held : NodeId → Prop} {s : Symbol} (hs : s.Plain held)

include hs

theorem admissible : g.Admissible s :=
  .of_members?_eq_none hs.scope hs.managed hs.members?

theorem unresolved : s.Unresolved :=
  .of_members?_eq_none hs.members? hs.origin hs.ns

end Symbol.Plain

namespace Graph

variable {g g' : Graph} {types : Set SymbolId} {held : NodeId → Prop} {n : Nat}

/-! ### Portions of the first walk -/

/-- Declares symbols one after the other. -/
def declareAll (g : Graph) (p : ScopeId) (symbols : List SymbolId) : Graph :=
  symbols.foldl (fun g x => (g.declare p x).2) g

/-- How a function is entered: not at all, in the table, or in the slot of its role. -/
inductive Entry where
  | nowhere
  | table
  | slot (role : Role)

def enterAs (g : Graph) (p : ScopeId) (x : SymbolId) : Entry → Graph
  | .nowhere => g
  | .table => (g.declare p x).2
  | .slot role => (g.declareSlot p role x).2

/-- A function gets parameters that have just been taken into the arena. -/
def giveParams (g : Graph) (f : SymbolId) (params : List Symbol) : Graph :=
  (g.allocAll params).2.modifyData f (·.mapFn fun data =>
    { data with params := (g.allocAll params).1 })

/-- A function is entered and gets its parameters. -/
def newFunction (g : Graph) (p : ScopeId) (s : Symbol) (entry : Entry) (params : List Symbol) :
    Graph :=
  ((g.alloc s).2.enterAs p ⟨g.symbols.size⟩ entry).giveParams ⟨g.symbols.size⟩ params

/-- The body of a function gets a scope. -/
def openBody (g : Graph) (f : SymbolId) (p : ScopeId) (delegate : Option ScopeId) : Graph :=
  ((g.newScope .function (some p)).2.modifyScope ⟨g.scopes.size⟩ fun s =>
    { s with delegate }).modifyData f (·.mapFn fun data =>
      { data with bodyScope := some ⟨g.scopes.size⟩ })

variable {p : ScopeId} {s : Symbol}

theorem enterAs_collects (held : NodeId → Prop) (p : ScopeId) (x : SymbolId) (entry : Entry) :
    Collects held g (g.enterAs p x entry) ∧
      ∀ y, ((g.enterAs p x entry).symbol y).data = (g.symbol y).data := by
  cases entry with
  | nowhere => exact ⟨.refl, fun _ => rfl⟩
  | table => exact ⟨.declare p x, symbol_declare_congr Symbol.data fun _ _ _ _ => rfl⟩
  | slot role => exact ⟨.declareSlot p role x, data_declareSlot⟩

/-- A new function has as many parameters as it was given, and the node that it came with. -/
theorem newFunction_spec (g : Graph) (p : ScopeId) (hs : s.kind = .fn) (entry : Entry)
    (params : List Symbol) :
    ((g.newFunction p s entry params).paramsOf ⟨g.symbols.size⟩).length = params.length ∧
      ((g.newFunction p s entry params).symbol ⟨g.symbols.size⟩).node = s.node := by
  have hlt : (⟨g.symbols.size⟩ : SymbolId).index < (g.alloc s).2.symbols.size := by
    rw [size_symbols_alloc]
    exact Nat.lt_succ_self _
  have henter : Edits ∅ (g.alloc s).2 ((g.alloc s).2.enterAs p ⟨g.symbols.size⟩ entry) :=
    (enterAs_collects (fun _ => True) p _ entry).1.edits
  have hlt' := Nat.lt_of_lt_of_le hlt henter.symbols_le
  have hnew : (g.alloc s).2.symbol ⟨g.symbols.size⟩ = s := by rw [symbol_alloc, if_pos rfl]
  refine ⟨?_, ?_⟩
  · rw [newFunction, giveParams, paramsOf_setParams_self, length_allocAll]
    · rw [size_symbols_allocAll]
      exact Nat.lt_of_lt_of_le hlt' (Nat.le_add_right _ _)
    · rw [symbol_allocAll_of_lt _ hlt', (henter.endures hlt).kind, hnew, hs]
  · rw [newFunction, giveParams, modifyData, symbol_modifySymbol_congr Symbol.node,
      symbol_allocAll_of_lt _ hlt']
    · exact (congrArg Core.node (henter.endures hlt).core).trans (congrArg Symbol.node hnew)
    · exact fun _ => rfl

/-- What the first walk does to the graph, portion by portion. -/
inductive Enrol (held : NodeId → Prop) : Graph → Graph → Prop where
  | newUnit {g : Graph} (file : String) : Enrol held g
    ((g.newScope .unit (some global)).2.modifyScope ⟨g.scopes.size⟩ fun s =>
      { s with name := some file })
  | newBlock {g : Graph} {p : ScopeId} : g.Site p → Enrol held g (g.newScope .block (some p)).2
  | openModule {g : Graph} {p : ScopeId} (name : Option QualName) : g.Inside p →
    Enrol held g (g.openModule p name).2
  | newSymbols {g : Graph} {p : ScopeId} {l : List Symbol} : g.Site p →
    (∀ s ∈ l, s.Plain held ∧ s.kind ≠ .fn) →
    Enrol held g ((g.allocAll l).2.declareAll p (g.allocAll l).1)
  | newType {g : Graph} {p : ScopeId} {s : Symbol} : g.Site p → s.Typed p →
    Enrol held g ((g.allocType p s).2.declare p ⟨g.symbols.size⟩).2
  | newFunction {g : Graph} {p : ScopeId} {s : Symbol} {entry : Entry} {params : List Symbol} :
    g.Site p → s.Plain held →
    (∀ s ∈ params, s.Plain held ∧ s.kind = .var ∧ s.flags.isParam = true) →
    Enrol held g (g.newFunction p s entry params)
  | openBody {g : Graph} {p : ScopeId} (f : SymbolId) {delegate : Option ScopeId} : g.Place p →
    (g.Site p ∨ delegate ≠ none) → (∀ d, delegate = some d → g.MemberScope d) →
    Enrol held g (g.openBody f p delegate)
  | declareParams {g : Graph} {p : ScopeId} {f : SymbolId} : g.Site p →
    g.Pending (g.paramsOf f) → Enrol held g (g.declareAll p (g.paramsOf f))

/-! ### Steps of the first walk -/

/-- Symbols that wait are declared one after the other. -/
theorem declareAll_steps : ∀ {symbols : List SymbolId} {g : Graph}, g.Coherent →
    g.Site p → g.Pending symbols → Steps ∅ g (g.declareAll p symbols)
  | [], g, _, _, _ => .refl
  | x :: rest, g, hg, hsite, hpending => by
    have hstep : Step ∅ g (g.declare p x).2 :=
      .declare hsite.toPlace (hpending.fresh x List.mem_cons_self)
        (hpending.latest x List.mem_cons_self) (hsite.free.imp_right .inl)
    exact .head hstep (declareAll_steps (hg.step hstep) (hsite.steps hg (.single hstep))
      (hpending.declare hg hsite.toPlace))

theorem enterAs_steps {x : SymbolId} (hsite : g.Site p) (hfresh : g.Fresh x) (hlatest : g.Latest x)
    (entry : Entry) : Steps ∅ g (g.enterAs p x entry) := by
  cases entry with
  | nowhere => exact .refl
  | table => exact .single (.declare hsite.toPlace hfresh hlatest (hsite.free.imp_right .inl))
  | slot role => exact .single (.declareSlot hsite.toPlace hfresh)

/-- The symbol of a function is taken into the arena and entered. -/
theorem newSymbol_steps (hg : g.Coherent) (hsite : g.Site p) (hs : g.Admissible s) (entry : Entry) :
    Steps ∅ g ((g.alloc s).2.enterAs p ⟨g.symbols.size⟩ entry) := by
  have hstep : Step ∅ g (g.alloc s).2 := .alloc hs
  have hspares := spares_alloc (g := g) hs.detached
  exact .head hstep (enterAs_steps (hsite.steps hg (.single hstep))
    (hg.fresh_alloc hs)
    (hspares.latest hg hstep.grows (hg.latest_of_le (Nat.le_refl _))) entry)

/-- The payload of a function may change without harm. -/
theorem mapFn_spec (g : Graph) (x : SymbolId) (f : FunctionData → FunctionData) :
    Step ∅ g (g.modifyData x (·.mapFn f)) ∧ g.Spares (g.modifyData x (·.mapFn f)) ∧
      ((∀ d, (f d).params = d.params) →
        ∀ y, (g.modifyData x (·.mapFn f)).paramsOf y = g.paramsOf y) := by
  have hamend : AmendsSymbol ∅ x (g.symbol x)
      { g.symbol x with data := (g.symbol x).data.mapFn f } := .mapFn f
  refine ⟨.amendSymbol hamend, hamend.spares, fun hf y => ?_⟩
  refine symbol_modifySymbol_rel (fun s s' => ((s'.fn?.map (·.params)).getD [] =
    (s.fn?.map (·.params)).getD [])) (fun _ => rfl) ?_ y
  cases hd : (g.symbol x).data <;> simp [Symbol.fn?, SymbolData.mapFn, hd, hf]

/-- The parameters of a function are those that it was given, unless it is no function. -/
theorem paramsOf_setParams (g : Graph) (x : SymbolId) (params : List SymbolId) :
    (g.modifyData x (·.mapFn fun f => { f with params })).paramsOf x = params ∨
      (g.modifyData x (·.mapFn fun f => { f with params })).paramsOf x = [] := by
  rw [paramsOf, modifyData, symbol_modifySymbol]
  split
  · cases hd : (g.symbol x).data with
    | fn d => exact .inl (by simp [Symbol.fn?, SymbolData.mapFn])
    | _ => exact .inr (by simp [Symbol.fn?, SymbolData.mapFn])
  next hx =>
    rw [symbol_of_size_le (Nat.le_of_not_lt fun hlt => hx ⟨rfl, hlt⟩)]
    exact .inr rfl

/-- The parameters of a function wait for their declaration. -/
theorem giveParams_steps {f : SymbolId} {params : List Symbol} (hg : g.Coherent)
    (hparams : ∀ s ∈ params, g.Admissible s) :
    Steps ∅ g (g.giveParams f params) ∧
      (g.giveParams f params).Pending ((g.giveParams f params).paramsOf f) := by
  obtain ⟨hsteps, -, -⟩ := allocAll_spec ∅ params hg hparams
  obtain ⟨hstep, hspares, -⟩ := mapFn_spec (g.allocAll params).2 f
    fun f => { f with params := (g.allocAll params).1 }
  refine ⟨.tail hsteps hstep, ?_⟩
  unfold giveParams
  rcases paramsOf_setParams (g.allocAll params).2 f (g.allocAll params).1 with h | h
  · rw [h]
    exact (pending_allocAll hg hparams).spares (hg.steps hsteps) hspares hstep.grows
  · rw [h]
    exact .nil

theorem newFunction_steps {params : List Symbol} (hg : g.Coherent) (hsite : g.Site p)
    (hs : g.Admissible s) (hparams : ∀ s ∈ params, s.Plain held)
    (entry : Entry) : Steps ∅ g (g.newFunction p s entry params) ∧
      (g.newFunction p s entry params).Pending
        ((g.newFunction p s entry params).paramsOf ⟨g.symbols.size⟩) := by
  have hfirst := newSymbol_steps hg hsite hs entry
  obtain ⟨hsecond, hpending⟩ := giveParams_steps (f := ⟨g.symbols.size⟩) (hg.steps hfirst)
    fun s hs => (hparams s hs).admissible
  exact ⟨hfirst.trans hsecond, hpending⟩

/-- Opening the scope of a function lists nothing and leaves the parameters alone. -/
theorem openBody_spec (f : SymbolId) {delegate : Option ScopeId} (hg : g.Coherent) (hp : g.Place p)
    (hfree : g.Site p ∨ delegate ≠ none) (hmembers : ∀ d, delegate = some d → g.MemberScope d) :
    Steps ∅ g (g.openBody f p delegate) ∧ g.Spares (g.openBody f p delegate) ∧
      (g.openBody f p delegate).Site ⟨g.scopes.size⟩ ∧
      ∀ x, (g.openBody f p delegate).paramsOf x = g.paramsOf x := by
  have hnew : g.newScope .function (some p) =
      (⟨g.scopes.size⟩, (g.newScope .function (some p)).2) :=
    Prod.ext (newScope_fst g _ _) rfl
  obtain ⟨hsteps, hspares, hscope⟩ := Site.openFunction hg hp hfree hmembers hnew
  obtain ⟨hdata, hspares', hparams⟩ := mapFn_spec _ f fun data =>
    { data with bodyScope := some ⟨g.scopes.size⟩ }
  refine ⟨.tail hsteps hdata, hspares.trans hspares', ?_, fun x => ?_⟩
  · exact hscope.steps (hg.steps hsteps) (.single hdata)
  · refine (hparams (fun _ => rfl) x).trans ?_
    rw [paramsOf, symbol_modifyScope, symbol_newScope]
    rfl

theorem newType_steps (hg : g.Coherent) (hsite : g.Site p) (hs : s.scope = none)
    (hmanaged : s.managed = false) : Steps ∅ g ((g.allocType p s).2.declare p ⟨g.symbols.size⟩).2 ∧
      ((g.allocType p s).2.declare p ⟨g.symbols.size⟩).2.Site ⟨g.scopes.size⟩ := by
  obtain ⟨halloc, hmembers⟩ := hsite.allocType hg hs hmanaged
  have hg₁ := hg.step halloc
  have hsite₁ := hsite.steps hg (.single halloc)
  have hspares : g.Spares (g.allocType p s).2 := spares_allocType hs
  have hid : (g.allocType p s).1.2 = ⟨g.scopes.size⟩ := by simp [allocType, newMemberScope]
  have hstep : Step ∅ (g.allocType p s).2
      ((g.allocType p s).2.declare p ⟨g.symbols.size⟩).2 := by
    refine .declare hsite₁.toPlace (hspares.fresh_of_le hg (Nat.le_refl _) ?_ ?_)
      (hspares.latest hg halloc.grows (hg.latest_of_le (Nat.le_refl _)))
      (hsite₁.free.imp_right .inl)
    · rw [size_symbols_allocType]
      exact Nat.lt_succ_self _
    · rw [symbol_allocType, if_pos rfl]
      exact hmanaged
  exact ⟨.head halloc (.single hstep), hid ▸ hmembers.steps hg₁ (.single hstep)⟩

/-- The scope of a new unit. -/
theorem newUnit_steps (hg : g.Coherent) (file : String) :
    let g' := (g.newScope .unit (some global)).2.modifyScope ⟨g.scopes.size⟩ fun s =>
      { s with name := some file }
    Steps ∅ g g' ∧ g'.Site ⟨g.scopes.size⟩ ∧ (g'.scope ⟨g.scopes.size⟩).kind = .unit := by
  intro g'
  obtain ⟨hopen, hunit⟩ := Site.newUnit hg
  rw [newScope_fst] at hunit
  have hmark : Step ∅ (g.newScope .unit (some global)).2 g' := .amendScope (.marks _ _ _ _)
  refine ⟨.tail (.single hopen) hmark, hunit.steps (hg.step hopen) (.single hmark), ?_⟩
  rw [hmark.grows.kind hunit.inside.lt_size]
  exact congrArg Scope.kind (g.scope_newScope_self .unit (some global))

theorem Enrol.steps (hg : g.Coherent) (h : Enrol held g g') : Steps ∅ g g' := by
  cases h with
  | newUnit file => exact (newUnit_steps hg file).1
  | newBlock hsite => exact .single (hsite.newScope hg .block rfl).1
  | openModule name hinside => exact (openModule_spec ∅ hg hinside name).1
  | newSymbols hsite hlist =>
    have hadmissible : ∀ s ∈ _, g.Admissible s := fun s hs => (hlist s hs).1.admissible
    obtain ⟨hfirst, -, -⟩ := allocAll_spec ∅ _ hg hadmissible
    exact hfirst.trans (declareAll_steps (hg.steps hfirst) (hsite.steps hg hfirst)
      (pending_allocAll hg hadmissible))
  | newType hsite hs => exact (newType_steps hg hsite hs.scope hs.managed).1
  | newFunction hsite hs hparams =>
    exact (newFunction_steps hg hsite hs.admissible (fun s hs => (hparams s hs).1) _).1
  | openBody f hp hfree hmembers => exact (openBody_spec f hg hp hfree hmembers).1
  | declareParams hsite hpending => exact declareAll_steps hg hsite hpending

/-! ### The first walk collects -/

theorem declareAll_collects (p : ScopeId) (symbols : List SymbolId) :
    Collects held g (g.declareAll p symbols) := by
  induction symbols generalizing g with
  | nil => exact .refl
  | cons x rest ih => exact (Collects.declare p x).trans ih

theorem allocAll_collects {list : List Symbol} (hlist : ∀ s ∈ list, s.Plain held) :
    Collects held g (g.allocAll list).2 := by
  induction list generalizing g with
  | nil => exact .refl
  | cons s rest ih =>
    have hs := hlist s List.mem_cons_self
    exact (Collects.alloc hs.unresolved hs.params hs.members? hs.subtree).trans
      (ih fun s' hs' => hlist s' (List.mem_cons_of_mem _ hs'))

/-- Each portion of the first walk collects new symbols and ties them to their nodes. -/
theorem Enrol.collects (h : Enrol held g g') : Collects held g g' := by
  cases h with
  | newUnit file =>
    refine .trans (.newScope (.inr ⟨rfl, rfl⟩))
      (.amendScope ⟨rfl, rfl, rfl, .inl rfl, rfl, .inr ?_⟩)
    rw [← newScope_fst g .unit (some _), scope_newScope_self]
    exact nofun
  | newBlock => exact .newScope (.inl rfl)
  | openModule name =>
    exact openModule_induction (P := Collects held g) _ name .refl
      fun _ _ _ h => h.trans (.subModule _ _)
  | newSymbols _ hlist =>
    exact (allocAll_collects fun s hs => (hlist s hs).1).trans (declareAll_collects _ _)
  | newType _ hs =>
    exact .trans (.allocType hs.toUnresolved hs.params hs.isType hs.subtree? _) (.declare _ _)
  | @newFunction p s entry params _ hs hparams =>
    obtain ⟨henter, hdata⟩ :=
      enterAs_collects (g := (g.alloc s).2) held p ⟨g.symbols.size⟩ entry
    refine .trans (.trans (.alloc hs.unresolved hs.params hs.members? hs.subtree) henter)
      (.giveParams ?_ fun s hs => ?_)
    · rw [Symbol.params_congr (hdata _), symbol_alloc, if_pos rfl, hs.params]
    · obtain ⟨hplain, hkind, hparam⟩ := hparams s hs
      exact ⟨hplain.unresolved, hkind, hparam, hplain.subtree⟩
  | openBody f =>
    refine .trans (.trans (.newScope (.inl rfl))
      (.amendScope ⟨rfl, rfl, rfl, .inr ?_, rfl, .inl rfl⟩))
      (.mapFn ?_ ?_ f)
    · rw [← newScope_fst g .function (some _), scope_newScope_self]
    all_goals exact fun _ => rfl
  | declareParams => exact declareAll_collects _ _

/-! ### The first walk proceeds -/

theorem usage_declareAll (p : ScopeId) (symbols : List SymbolId) (q : ScopeId) :
    ((g.declareAll p symbols).scope q).usage = (g.scope q).usage := by
  induction symbols generalizing g with
  | nil => rfl
  | cons x rest ih => exact ih.trans (usage_declare q)

/-- The first walk notes no use of anything. -/
theorem Enrol.usage (h : Enrol held g g') (q : ScopeId) :
    (g'.scope q).usage = (g.scope q).usage := by
  have hallocAll : ∀ {g : Graph} (list : List Symbol),
      ((g.allocAll list).2.scope q).usage = (g.scope q).usage := by
    intro g list
    rw [scope, scope, scopes_allocAll]
  have hmark : ∀ {g : Graph} {p : ScopeId} {f : Scope → Scope}, (∀ s, (f s).usage = s.usage) →
      ((g.modifyScope p f).scope q).usage = (g.scope q).usage :=
    fun hf => scope_modifyScope_congr Scope.usage _ q hf
  cases h with
  | newUnit file =>
    refine .trans (hmark ?_) (usage_newScope _ _ q)
    exact fun _ => rfl
  | newBlock => exact usage_newScope _ _ q
  | openModule name =>
    exact openModule_induction (P := fun g' => (g'.scope q).usage = (g.scope q).usage) _ name rfl
      fun _ _ name h => (usage_subModule name q).trans h
  | newSymbols => exact (usage_declareAll _ _ q).trans (hallocAll _)
  | newType => exact (usage_declare q).trans (usage_allocType _ q)
  | @newFunction p s entry =>
    refine .trans (hallocAll _) ?_
    cases entry with
    | nowhere => rfl
    | table => exact usage_declare q
    | slot => exact usage_declareSlot q
  | openBody =>
    refine .trans (hmark ?_) (usage_newScope _ _ q)
    exact fun _ => rfl
  | declareParams => exact usage_declareAll _ _ q

theorem Enrol.proceeds (hheld : ∀ id, held id → id.index < n) (h : Enrol held g g') :
    g.Proceeds n g' where
  toAdvances := .of_edits h.collects.edits fun hx _ => h.collects.subtree?_eq hx
  toSteady := .of_usage h.usage
  declared hx := .inr ⟨(h.collects.unresolved hx).origin, fun id hid =>
    hheld id (h.collects.subtree hx id hid)⟩

end Graph

end Scoping
