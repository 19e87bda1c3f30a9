import Scoping.Proofs.Graph.Activity

/-!
# Edits of a session

`Graph.Edit` lists the edits of a session once more, this time with what they do to the payloads of
symbols and to the modules of scopes rather than with the situation in which they happen. Of the
types only those in a given set go on in their resolution or become abstract.
`Graph.Edit.retouches` says what one edit does to a symbol that is there; in particular what the
symbol was created with is never undone (`Symbol.Endures`).
-/

namespace Scoping

namespace Symbol

variable {s s' s'' : Symbol}

/-- The parameters of a function; nothing else has any. -/
def params (s : Symbol) : List SymbolId := (s.fn?.map (·.params)).getD []

/-- The node whose subtree belongs to a symbol: the declaration of a function, the initializer of a
variable. -/
def subtree? (s : Symbol) : Option NodeId :=
  match s.data with
  | .fn _ => s.node
  | .var data => data.init
  | _ => none

/-- A symbol as a parameter of a function. -/
structure Param (s : Symbol) : Prop where
  kind : s.kind = .var
  ns : s.ns = .value
  isParam : s.flags.isParam = true
  origin : s.origin = none

/-- What a symbol keeps. A function is given its parameters once. -/
structure Endures (s s' : Symbol) : Prop where
  core : Graph.core s' = Graph.core s
  params : s'.params = s.params ∨ s.params = []
  isExpr : s'.fn?.map (·.isExpr) = s.fn?.map (·.isExpr)

namespace Endures

protected theorem refl : s.Endures s := ⟨rfl, .inl rfl, rfl⟩

protected theorem trans (h : s.Endures s') (h' : s'.Endures s'') : s.Endures s'' where
  core := h'.core.trans h.core
  params := by
    rcases h.params with heq | hnil
    · exact h'.params.imp (·.trans heq) heq.symm.trans
    · exact .inr hnil
  isExpr := h'.isExpr.trans h.isExpr

variable (h : s.Endures s')

include h

theorem kind : s'.kind = s.kind := congrArg Graph.Core.kind h.core

theorem members? : s'.members? = s.members? := congrArg Graph.Core.members? h.core

theorem origin : s'.origin = s.origin := congrArg Graph.Core.origin h.core

theorem isParam : s'.flags.isParam = s.flags.isParam := congrArg Graph.Core.isParam h.core

end Endures

/-- The interfaces that a type is linked to. -/
def interfaces (s : Symbol) : List SymbolId :=
  match s.data with
  | .cls data => data.interfaces.filterMap TypeRef.target
  | .iface data => data.interfaces.filterMap TypeRef.target
  | _ => []

/-- The superclass that the reference of a class is linked to. -/
def super? (s : Symbol) : Option SymbolId := (s.class?.bind (·.super)).bind TypeRef.target

theorem interfaces_congr (h : s'.data = s.data) : s'.interfaces = s.interfaces := by
  rw [interfaces, interfaces, h]

theorem super?_congr (h : s'.data = s.data) : s'.super? = s.super? := by
  rw [super?, super?, class?, class?, h]

theorem params_congr (h : s'.data = s.data) : s'.params = s.params := by
  rw [params, params, fn?, fn?, h]

/-- A symbol as its declaration makes it: nothing is linked, and a function has no parameters. -/
structure Bare (s : Symbol) : Prop where
  interfaces : s.interfaces = []
  super? : s.super? = none
  params : s.params = []
  ns : s.ns = s.kind.home

end Symbol

namespace Graph

variable {g g' : Graph} {types : Set SymbolId} {role : Role} {scope : ScopeId} {symbol x : SymbolId}

/-! ### Edits -/

/-- A symbol that may be taken into the arena: a declared one, or a copy, which has the links and
the members of the original. -/
structure Novel (g : Graph) (s : Symbol) : Prop where
  interfaces : ∀ t ∈ s.interfaces, ∃ x, t ∈ (g.symbol x).interfaces
  super? : ∀ t, s.super? = some t → ∃ x, (g.symbol x).super? = some t
  params : s.params = []
  members : ∀ m, s.members? = some m →
    s.origin ≠ none ∧ ∃ x, (g.symbol x).members? = some m ∧ (g.symbol x).kind = s.kind
  ns : s.origin = none → s.ns = s.kind.home

theorem Novel.of_bare {s : Symbol} (h : s.Bare) (hmembers : s.members? = none) : g.Novel s where
  interfaces t ht := by
    rw [h.interfaces] at ht
    cases ht
  super? t ht := by
    rw [h.super?] at ht
    cases ht
  params := h.params
  members m hm := by
    rw [hmembers] at hm
    cases hm
  ns _ := h.ns

/-- An update of the symbol `x`. Only `types` are resolved or become abstract, and those that have
been resolved are no more decided about. What is linked is of the right kind. -/
structure Retouches (g : Graph) (types : Set SymbolId) (x : SymbolId) (s s' : Symbol) : Prop
    extends s.Endures s' where
  decided : x ∈ types ∧ s.data.resolution? ≠ some .resolved ∨
    s'.flags.isAbstract = s.flags.isAbstract ∧ s'.data.resolution? = s.data.resolution?
  interfaces : ∀ t ∈ s'.interfaces, t ∈ s.interfaces ∨ (g.symbol t).kind = .iface
  super? : ∀ t, s'.super? = some t → s.super? = some t ∨ (g.symbol t).kind = .cls

/-- What may become of the part that a member scope has beyond its table: a class is linked as the
superclass, the members are withheld or given back, or a slot is filled. -/
inductive Rewires (g : Graph) (info : MemberInfo) : MemberInfo → Prop where
  | link {super : SymbolId} : (g.symbol super).kind = .cls →
    Rewires g info { info with super := g.membersOf? super }
  | restrict (restricted : Bool) : Rewires g info { info with restricted }
  | fill (role : Role) (name : String) (symbol : SymbolId) :
    Rewires g info (info.putSlot role name symbol)

/-- An update of a scope that spares its place, its modules and its type. Only functions have a
delegate, and no module is renamed. -/
structure Redresses (s s' : Scope) : Prop where
  kind : s'.kind = s.kind
  modules : s'.modules = s.modules
  member : s'.member = s.member
  delegate : s'.delegate = s.delegate ∨ s.kind = .function
  parent : s'.parent = s.parent
  name : s'.name = s.name ∨ s.kind ≠ .module

/-- The edits of a session. -/
inductive Edit (types : Set SymbolId) : Graph → Graph → Prop where
  | newScope {g : Graph} {kind : ScopeKind} {parent : ScopeId} :
    kind.isRoot = false ∨ kind = .unit ∧ parent = global →
    Edit types g (g.newScope kind (some parent)).2
  | subModule {g : Graph} {parent : ScopeId} {name : String} :
    Edit types g (g.subModule parent name).2
  | alloc {g : Graph} {s : Symbol} : g.Novel s → Edit types g (g.alloc s).2
  | allocType {g : Graph} {parent : ScopeId} {s : Symbol} : s.Bare → s.kind.isType = true →
    Edit types g (g.allocType parent s).2
  /-- A function is given parameters, which are new. -/
  | giveParams {g : Graph} {f : SymbolId} {list : List Symbol} : (g.symbol f).params = [] →
    (∀ s ∈ list, s.Param) →
    Edit types g ((g.allocAll list).2.modifyData f (·.mapFn fun data =>
      { data with params := (g.allocAll list).1 }))
  /-- A function is copied together with its parameters. -/
  | copyFunction {g : Graph} {f : SymbolId} {data : FunctionData} {s : Symbol} :
    (g.symbol f).fn? = some data → s.origin ≠ none →
    s.data = .fn { data with
      params := (g.allocAll (data.params.map fun p => (g.symbol p).detached)).1
      bodyScope := none } →
    Edit types g ((g.allocAll (data.params.map fun p => (g.symbol p).detached)).2.alloc s).2
  | amendScope {g : Graph} {p : ScopeId} {f : Scope → Scope} :
    Redresses (g.scope p) (f (g.scope p)) → Edit types g (g.modifyScope p f)
  | mapMember {g : Graph} {p : ScopeId} {f : MemberInfo → MemberInfo} :
    (∀ info, g.Rewires info (f info)) → Edit types g (g.modifyMember p f)
  | amendSymbol {g : Graph} {x : SymbolId} {f : Symbol → Symbol} :
    g.Retouches types x (g.symbol x) (f (g.symbol x)) →
    (f (g.symbol x)).params = (g.symbol x).params → Edit types g (g.modifySymbol x f)
  | declare {g : Graph} {target : ScopeId} {symbol : SymbolId} :
    Edit types g (g.declare target symbol).2
  | declareSlot {g : Graph} {scope : ScopeId} {role : Role} {symbol : SymbolId} :
    Edit types g (g.declareSlot scope role symbol).2
  | putSlot {g : Graph} {scope : ScopeId} {role : Role} {symbol : SymbolId} :
    Edit types g (g.putSlot scope role symbol)

/-- Sequences of edits. -/
def Edits (types : Set SymbolId) : Graph → Graph → Prop := Relation.ReflTransGen (Edit types)

/-! ### What one edit does -/

theorem Redresses.modifyScope {p : ScopeId} {f : Scope → Scope}
    (h : Redresses (g.scope p) (f (g.scope p))) (q : ScopeId) :
    Redresses (g.scope q) ((g.modifyScope p f).scope q) :=
  scope_modifyScope_rel Redresses (fun _ => ⟨rfl, rfl, rfl, .inl rfl, rfl, .inl rfl⟩) h q

namespace Retouches

variable {x : SymbolId} {s s' : Symbol}

/-- Updates that spare the payload. -/
theorem of_data_eq (hcore : Graph.core s' = Graph.core s) (hdata : s'.data = s.data)
    (habstract : s'.flags.isAbstract = s.flags.isAbstract) : g.Retouches types x s s' where
  core := hcore
  params := .inl (Symbol.params_congr hdata)
  isExpr := by rw [Symbol.fn?, Symbol.fn?, hdata]
  decided := .inr ⟨habstract, by rw [hdata]⟩
  interfaces t ht := .inl (by rwa [← Symbol.interfaces_congr hdata])
  super? t ht := .inl (by rwa [← Symbol.super?_congr hdata])

protected theorem refl : g.Retouches types x s s := .of_data_eq rfl rfl rfl

/-- Updates of a payload that spare its links. -/
theorem of_data {data : SymbolData} (hendures : s.Endures { s with data })
    (hresolution : x ∈ types ∧ s.data.resolution? ≠ some .resolved ∨
      data.resolution? = s.data.resolution?)
    (hinterfaces : Symbol.interfaces { s with data } = s.interfaces)
    (hsuper : Symbol.super? { s with data } = s.super?) :
    g.Retouches types x s { s with data } where
  toEndures := hendures
  decided := hresolution.imp_right fun heq => ⟨rfl, heq⟩
  interfaces _ ht := .inl (hinterfaces ▸ ht)
  super? _ ht := .inl (hsuper ▸ ht)

theorem mapFn {f : FunctionData → FunctionData}
    (hparams : ∀ data, (f data).params = data.params ∨ s.params = [])
    (hexpr : ∀ data, (f data).isExpr = data.isExpr) :
    g.Retouches types x s { s with data := s.data.mapFn f } := by
  cases s
  cases ‹SymbolData› with
  | fn data =>
    exact .of_data ⟨rfl, hparams data, congrArg some (hexpr data)⟩ (.inr rfl) rfl rfl
  | _ => exact .refl

theorem mapVar (f : VariableData → VariableData) :
    g.Retouches types x s { s with data := s.data.mapVar f } := by
  cases s
  cases ‹SymbolData› <;> exact .of_data ⟨rfl, .inl rfl, rfl⟩ (.inr rfl) rfl rfl

theorem mapImport (f : ImportData → ImportData) :
    g.Retouches types x s { s with data := s.data.mapImport f } := by
  cases s
  cases ‹SymbolData› <;> exact .of_data ⟨rfl, .inl rfl, rfl⟩ (.inr rfl) rfl rfl

theorem setResolution (hx : x ∈ types) (hopen : s.data.resolution? ≠ some .resolved)
    (resolution : Resolution) :
    g.Retouches types x s { s with data := s.data.setResolution resolution } := by
  cases s
  cases ‹SymbolData› <;> exact .of_data ⟨rfl, .inl rfl, rfl⟩ (.inl ⟨hx, hopen⟩) rfl rfl

end Retouches

/-- Settling the visibility of a symbol makes nothing abstract. -/
theorem isAbstract_settle (p : ScopeId) {f : Symbol → Symbol} (x : SymbolId)
    (hf : (f (g.symbol symbol)).flags = g.effectiveFlags p (g.symbol symbol).flags) :
    ((g.modifySymbol symbol f).symbol x).flags.isAbstract = (g.symbol x).flags.isAbstract := by
  refine symbol_modifySymbol_rel (fun s s' => s'.flags.isAbstract = s.flags.isAbstract)
    (fun _ => rfl) ?_ x
  obtain ⟨isProtected, isPrivate, hflags⟩ := effectiveFlags_spec g p (g.symbol symbol).flags
  rw [hf, hflags]

theorem isAbstract_declare {target : ScopeId} (x : SymbolId) :
    ((g.declare target symbol).2.symbol x).flags.isAbstract = (g.symbol x).flags.isAbstract := by
  rw [symbol_declare_stamp Symbol.flags fun _ _ _ => rfl]
  exact isAbstract_settle _ x rfl

theorem isAbstract_declareSlot (x : SymbolId) :
    ((g.declareSlot scope role symbol).2.symbol x).flags.isAbstract =
      (g.symbol x).flags.isAbstract := by
  rw [symbol_declareSlot_stamp Symbol.flags fun _ _ _ => rfl]
  exact isAbstract_settle _ x rfl

theorem size_symbols_allocAll (list : List Symbol) (g : Graph) :
    (g.allocAll list).2.symbols.size = g.symbols.size + list.length := by
  induction list generalizing g with
  | nil => rfl
  | cons s rest ih =>
    rw [List.length_cons, ← Nat.add_assoc, Nat.add_right_comm]
    exact (ih (g.alloc s).2).trans (by rw [size_symbols_alloc])

theorem scopes_allocAll (list : List Symbol) (g : Graph) :
    (g.allocAll list).2.scopes = g.scopes := by
  induction list generalizing g with
  | nil => rfl
  | cons s rest ih => exact ih (g.alloc s).2

/-- The ids of a list that is taken into the arena are new. -/
theorem le_of_mem_allocAll {list : List Symbol} (hx : x ∈ (g.allocAll list).1) :
    g.symbols.size ≤ x.index ∧
      x.index < (g.allocAll list).2.symbols.size := by
  rw [size_symbols_allocAll]
  induction list generalizing g with
  | nil => cases hx
  | cons s rest ih =>
    rw [List.length_cons]
    rcases List.mem_cons.mp hx with rfl | hx
    · exact ⟨Nat.le_refl _, Nat.lt_add_of_pos_right (Nat.succ_pos _)⟩
    · have hsize := size_symbols_alloc g s
      obtain ⟨hle, hlt⟩ := ih (g := (g.alloc s).2) hx
      omega

/-- What is found at a new id is a symbol of the list. -/
theorem symbol_allocAll_of_le (list : List Symbol) (hle : g.symbols.size ≤ x.index) :
    (g.allocAll list).2.symbol x ∈ list ∨ (g.allocAll list).2.symbol x = .blank := by
  induction list generalizing g with
  | nil => exact .inr (symbol_of_size_le hle)
  | cons s rest ih =>
    rw [List.mem_cons]
    change (((g.alloc s).2.allocAll rest).2.symbol x = s ∨ _) ∨
      ((g.alloc s).2.allocAll rest).2.symbol x = _
    by_cases hx : x.index = g.symbols.size
    · have hlt : x.index < (g.alloc s).2.symbols.size := by
        rw [size_symbols_alloc]
        omega
      rw [symbol_allocAll_of_lt rest hlt, symbol_alloc, if_pos hx]
      exact .inl (.inl rfl)
    · have hle' : (g.alloc s).2.symbols.size ≤ x.index := by
        rw [size_symbols_alloc]
        omega
      exact (ih hle').imp_left .inr

/-- What an edit does to the member part of a scope. -/
def RewiresAt (g g' : Graph) (q : ScopeId) : Prop :=
  (g'.scope q).member = (g.scope q).member ∨ ∃ info info', (g.scope q).member = some info ∧
    (g'.scope q).member = some info' ∧ g.Rewires info info'

/-- Filling a slot of one scope, perhaps after a change of symbols. -/
theorem rewires_putSlot (g₁ : Graph) {q : ScopeId}
    (hmember : (g₁.scope q).member = (g.scope q).member) :
    g.RewiresAt (g₁.putSlot scope role symbol) q := by
  rw [RewiresAt, member_putSlot, hmember]
  split
  · cases (g.scope q).member with
    | none => exact .inl rfl
    | some info => exact .inr ⟨info, _, rfl, rfl, .fill role _ symbol⟩
  · exact .inl rfl

theorem rewires_declareSlot (q : ScopeId) : g.RewiresAt (g.declareSlot scope role symbol).2 q := by
  obtain ⟨f, -, h | h | ⟨name, old, -, -, h⟩⟩ := declareSlot_cases g scope role symbol
  · rw [h]
    exact .inl rfl
  · rw [h]
    exact rewires_putSlot _ rfl
  · rw [h, RewiresAt, Graph.drop, scope_modifyScope_congr Scope.member]
    · exact rewires_putSlot (g.modifySymbol symbol f) rfl
    · exact fun _ => rfl

theorem member_modifyMember (p q : ScopeId) (f : MemberInfo → MemberInfo) :
    ((g.modifyMember p f).scope q).member =
      if q = p then (g.scope q).member.map f else (g.scope q).member := by
  rw [modifyMember, scope_modifyScope]
  by_cases hq : q = p
  · subst hq
    by_cases hlt : q.index < g.scopes.size
    · rw [if_pos ⟨rfl, hlt⟩, if_pos rfl, Scope.mapMember]
    · rw [if_neg fun h => hlt h.2, if_pos rfl, scope_of_size_le (Nat.le_of_not_lt hlt)]
      rfl
  · rw [if_neg fun h => hq h.1, if_neg hq]

theorem size_symbols_subModule (parent : ScopeId) (name : String) :
    (g.subModule parent name).2.symbols.size = g.symbols.size := by
  simp only [subModule]
  split
  · rfl
  · rw [size_symbols_modifyScope, size_symbols_modifyScope, symbols_newScope]

namespace Edit

variable {x : SymbolId}

variable (h : Edit types g g')

include h

theorem symbols_le : g.symbols.size ≤ g'.symbols.size := by
  cases h with
  | newScope => exact Nat.le_of_eq (by rw [symbols_newScope])
  | subModule => exact Nat.le_of_eq (by rw [size_symbols_subModule])
  | alloc => exact (grows_alloc _).symbols_le
  | allocType => exact (grows_allocType _ _).symbols_le
  | giveParams =>
    rw [modifyData, size_symbols_modifySymbol, size_symbols_allocAll]
    exact Nat.le_add_right _ _
  | copyFunction =>
    rw [size_symbols_alloc, size_symbols_allocAll]
    exact Nat.le_succ_of_le (Nat.le_add_right _ _)
  | amendScope | mapMember => exact Nat.le_refl _
  | amendSymbol => exact Nat.le_of_eq (by rw [size_symbols_modifySymbol])
  | declare => exact grows_declare.symbols_le
  | declareSlot => exact grows_declareSlot.symbols_le
  | putSlot => exact grows_putSlot.symbols_le

/-- What an edit does to a symbol that is there. -/
theorem retouches (hx : x.index < g.symbols.size) :
    g.Retouches types x (g.symbol x) (g'.symbol x) := by
  cases h with
  | newScope =>
    rw [symbol_newScope]
    exact .refl
  | subModule =>
    rw [symbols_subModule]
    exact .refl
  | alloc =>
    rw [symbol_alloc, if_neg (Nat.ne_of_lt hx)]
    exact .refl
  | allocType =>
    rw [symbol_allocType, if_neg (Nat.ne_of_lt hx)]
    exact .refl
  | @giveParams f list hparams =>
    have hold := symbol_allocAll_of_lt list hx
    rw [modifyData, symbol_modifySymbol]
    split
    next hf =>
      rw [hold]
      exact .mapFn (fun _ => .inr (hf.1 ▸ hparams)) fun _ => rfl
    next =>
      rw [hold]
      exact .refl
  | @copyFunction f data =>
    have hlt : x.index <
        (g.allocAll (data.params.map fun p => (g.symbol p).detached)).2.symbols.size := by
      rw [size_symbols_allocAll]
      omega
    rw [symbol_alloc, if_neg (Nat.ne_of_lt hlt), symbol_allocAll_of_lt _ hx]
    exact .refl
  | amendScope | mapMember => exact .refl
  | @amendSymbol y f hf =>
    by_cases hy : x = y
    · subst hy
      rw [symbol_modifySymbol_self hx]
      exact hf
    · rw [symbol_modifySymbol_of_ne hy]
      exact .refl
  | declare =>
    exact .of_data_eq (core_declare x) (symbol_declare_congr Symbol.data (fun _ _ _ _ => rfl) x)
      (isAbstract_declare x)
  | declareSlot =>
    exact .of_data_eq (grows_declareSlot.core hx) (data_declareSlot x)
      (isAbstract_declareSlot x)
  | putSlot =>
    exact .of_data_eq (grows_putSlot.core hx)
      (symbol_modifySymbol_congr Symbol.data _ _ fun _ => rfl)
      (symbol_modifySymbol_congr (·.flags.isAbstract) _ _ fun _ => rfl)

theorem core_eq (hx : x.index < g.symbols.size) :
    core (g'.symbol x) = core (g.symbol x) := (h.retouches hx).core

/-- Types of a kind stay what they are. -/
theorem kind_eq {kind : SymbolKind} (hx : (g.symbol x).kind = kind)
    (hkind : kind ≠ .var) : (g'.symbol x).kind = kind := by
  have hlt := lt_size_of (P := (·.kind = kind)) hx hkind.symm
  rw [show (g'.symbol x).kind = (g.symbol x).kind from congrArg Core.kind (h.core_eq hlt), hx]

/-- What an edit does to the member part of a scope. A new member scope has nothing but its type. -/
theorem rewires (q : ScopeId) : g.RewiresAt g' q ∨
    g.scopes.size ≤ q.index ∧ ∃ host, (g'.scope q).member = some { host } := by
  cases h with
  | newScope =>
    exact .inl (.inl (scope_newScope_congr g Scope.member (fun _ _ _ _ _ => rfl) _ _ q))
  | subModule =>
    exact .inl (.inl (scope_subModule_congr Scope.member (fun _ _ _ _ _ => rfl)
      (fun _ _ _ => rfl) _ _ q))
  | alloc | amendSymbol => exact .inl (.inl rfl)
  | allocType =>
    rw [RewiresAt, scope_allocType, member_newMemberScope]
    split
    next hq => exact .inr ⟨Nat.le_of_eq hq.symm, _, rfl⟩
    next => exact .inl (.inl rfl)
  | @giveParams f list =>
    refine .inl (.inl ?_)
    rw [modifyData, scope_modifySymbol, scope, scopes_allocAll]
    rfl
  | @copyFunction f data =>
    refine .inl (.inl ?_)
    rw [scope_alloc, scope, scopes_allocAll]
    rfl
  | amendScope hf => exact .inl (.inl (hf.modifyScope q).member)
  | @mapMember p f hf =>
    refine .inl ?_
    rw [RewiresAt, member_modifyMember]
    split
    · cases hm : (g.scope q).member with
      | none => exact .inl rfl
      | some info => exact .inr ⟨info, _, rfl, rfl, hf info⟩
    · exact .inl rfl
  | declare => exact .inl (.inl (scope_declare_congr Scope.member (fun _ _ _ _ => rfl) q))
  | declareSlot => exact .inl (rewires_declareSlot q)
  | putSlot => exact .inl (rewires_putSlot _ rfl)

/-- Scopes keep their types. -/
theorem host_eq {q : ScopeId} (hq : q.index < g.scopes.size) :
    (g'.scope q).member.map (·.host) = (g.scope q).member.map (·.host) := by
  rcases h.rewires q with (heq | ⟨info, info', hinfo, hinfo', hrewires⟩) | ⟨hle, -⟩
  · rw [heq]
  · rw [hinfo, hinfo', Option.map_some, Option.map_some]
    cases hrewires with
    | fill role => cases role <;> rfl
    | _ => rfl
  · exact absurd hq (Nat.not_lt_of_le hle)

omit h

end Edit

/-! ### Publishing -/

namespace Publishes

/-- Publishing makes edits. -/
theorem edits (h : Publishes g g') : Edits types g g' :=
  Relation.ReflTransGen.mono (fun g g' h => by
    cases h with
    | openModule => exact .subModule
    | enter => exact .amendScope ⟨rfl, rfl, rfl, .inl rfl, rfl, .inl rfl⟩) g g' h

end Publishes

end Graph

end Scoping
