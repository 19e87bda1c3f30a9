import Scoping.Proofs.Graph.Edit

/-!
# What edits keep up

From the effect of one edit follows what holds after any number of them. References of types lead to
types of the right kind, parameters belong to one function, and a member scope knows its type and
leads to the one of a class (`Graph.Regular`). The modules of one scope have different names and are
different scopes (`Graph.Branching`), and only new scopes become modules (`Graph.Sprouts`).
-/

namespace Scoping

namespace Graph

variable {g g' : Graph} {types : Set SymbolId} {data : FunctionData} {list : List Symbol}
  {parent : ScopeId} {name : String} {s : Symbol} {x : SymbolId}

/-! ### Types, functions and their scopes -/

/-- What is known about the payloads of symbols. -/
structure Regular (g : Graph) : Prop where
  interfaces : ∀ {x t}, t ∈ (g.symbol x).interfaces → (g.symbol t).kind = .iface
  super? : ∀ {x t}, (g.symbol x).super? = some t → (g.symbol t).kind = .cls
  param : ∀ {f p}, p ∈ (g.symbol f).params → p.index < g.symbols.size ∧ (g.symbol p).Param
  param_unique : ∀ {f f' p}, p ∈ (g.symbol f).params → p ∈ (g.symbol f').params → f = f'
  /-- A member scope knows its type; a copy of the type shares the scope. -/
  host : ∀ {x m}, (g.symbol x).members? = some m → ∃ host,
    (g.scope m).member.map (·.host) = some host ∧ (g.symbol host).kind = (g.symbol x).kind ∧
      ((g.symbol x).origin = none → host = x)
  /-- The superclass of a member scope is one of a class. -/
  link : ∀ {q p}, g.superScope? q = some p → ∃ x, (g.symbol x).kind = .cls ∧
    (g.symbol x).members? = some p
  /-- A member scope has one accessor for a name. -/
  slots : ∀ {q info}, (g.scope q).member = some info →
    info.getters.keys.Nodup ∧ info.setters.keys.Nodup

/-- A symbol that an edit has taken into the arena. -/
structure Created (g g' : Graph) (x : SymbolId) (s : Symbol) : Prop where
  interfaces : ∀ t ∈ s.interfaces, ∃ y, t ∈ (g.symbol y).interfaces
  super? : ∀ t, s.super? = some t → ∃ y, (g.symbol y).super? = some t
  members : ∀ m, s.members? = some m →
    (s.origin ≠ none ∧ ∃ y, (g.symbol y).members? = some m ∧ (g.symbol y).kind = s.kind) ∨
      (g'.scope m).member.map (·.host) = some x

theorem Novel.created (h : g.Novel s) (g' : Graph) (x : SymbolId) : g.Created g' x s where
  interfaces := h.interfaces
  super? := h.super?
  members m hm := .inl (h.members m hm)

theorem novel_blank : g.Novel .blank :=
  .of_bare ⟨rfl, rfl, rfl, rfl⟩ rfl

/-- A type that gets its member scope is as bare as before. -/
theorem bare_setMembers (h : s.Bare) (m : ScopeId) :
    Symbol.Bare { s with data := s.data.setMembers m } := by
  cases s
  cases ‹SymbolData› <;> exact ⟨h.interfaces, h.super?, h.params, h.ns⟩

/-- A variable has no links, no members and no parameters. -/
theorem novel_of_kind_var (hkind : s.kind = .var) (hns : s.ns = .value) : g.Novel s := by
  refine .of_bare ⟨?_, ?_, ?_, by rw [hns, hkind]; rfl⟩ ?_
  all_goals
    cases s
    cases ‹SymbolData› with
    | var => rfl
    | _ => cases hkind

theorem mapFn_of_kind_var (hkind : s.kind = .var) (f : FunctionData → FunctionData) :
    { s with data := s.data.mapFn f } = s := by
  cases s
  cases ‹SymbolData› with
  | var => rfl
  | _ => cases hkind

/-- Functions have neither links nor members. -/
theorem created_fn (hdata : s.data = .fn data) (g' : Graph) (x : SymbolId) :
    g.Created g' x s := by
  refine ⟨fun t ht => ?_, fun t ht => ?_, fun m hm => ?_⟩
  · rw [Symbol.interfaces, hdata] at ht
    cases ht
  · rw [Symbol.super?, Symbol.class?, hdata] at ht
    cases ht
  · rw [Symbol.members?, hdata] at hm
    cases hm

/-- Parameters that are given to a function, or blanks beyond them. -/
theorem kind_allocAll_of_le (hlist : ∀ s ∈ list, s.Param) (hx : g.symbols.size ≤ x.index) :
    ((g.allocAll list).2.symbol x).kind = .var ∧ ((g.allocAll list).2.symbol x).ns = .value := by
  rcases symbol_allocAll_of_le list hx with hmem | hblank
  · exact ⟨(hlist _ hmem).kind, (hlist _ hmem).ns⟩
  · rw [hblank]
    exact ⟨rfl, rfl⟩

/-- The copies of parameters are parameters again. -/
theorem Regular.param_detached (hg : g.Regular) {f : SymbolId} (hf : (g.symbol f).fn? = some data) :
    ∀ s ∈ data.params.map fun p => (g.symbol p).detached, s.Param := by
  intro s hs
  obtain ⟨p, hp, rfl⟩ := List.mem_map.mp hs
  have hparam : p ∈ (g.symbol f).params := by
    rw [Symbol.params, hf]
    exact hp
  have h := (hg.param hparam).2
  exact ⟨h.kind, h.ns, h.isParam, h.origin⟩

/-- What is found at a new id after an edit. -/
theorem Edit.created (hg : g.Regular) (h : Edit types g g') (hx : g.symbols.size ≤ x.index) :
    g.Created g' x (g'.symbol x) := by
  -- most edits take no symbol into the arena
  have hsame : ∀ {g₁ : Graph}, g₁.symbols.size = g.symbols.size →
      g.Created g₁ x (g₁.symbol x) := by
    intro g₁ hsize
    rw [symbol_of_size_le (by omega : g₁.symbols.size ≤ x.index)]
    exact novel_blank.created g₁ x
  cases h with
  | newScope => exact hsame (by rw [symbols_newScope])
  | subModule => exact hsame (size_symbols_subModule _ _)
  | alloc hs =>
    rw [symbol_alloc]
    split
    · exact hs.created _ x
    · rw [symbol_of_size_le hx]
      exact novel_blank.created _ x
  | @allocType parent s hs htype =>
    rw [symbol_allocType]
    split
    next heq =>
      have hbare := bare_setMembers hs ⟨g.scopes.size⟩
      refine ⟨fun t ht => ?_, fun t ht => ?_, fun m hm => .inr ?_⟩
      · rw [hbare.interfaces] at ht
        cases ht
      · rw [hbare.super?] at ht
        cases ht
      · have hm' : m = ⟨g.scopes.size⟩ := by
          cases s
          cases ‹SymbolData› <;> first | exact (Option.some.inj hm).symm | cases hm
        rw [hm', scope_allocType, member_newMemberScope, if_pos rfl, Option.map_some, ← heq]
    next =>
      rw [symbol_of_size_le hx]
      exact novel_blank.created _ x
  | @giveParams f list _ hlist =>
    obtain ⟨hkind, hns⟩ := kind_allocAll_of_le (g := g) hlist hx
    rw [modifyData, symbol_modifySymbol, mapFn_of_kind_var hkind, ite_self]
    exact (novel_of_kind_var hkind hns).created _ x
  | @copyFunction f data s hf horigin hs =>
    rw [symbol_alloc]
    split
    · exact created_fn hs _ x
    · obtain ⟨hkind, hns⟩ := kind_allocAll_of_le (g := g) (hg.param_detached hf) hx
      exact (novel_of_kind_var hkind hns).created _ x
  | amendScope | mapMember => exact hsame rfl
  | amendSymbol => exact hsame (size_symbols_modifySymbol _ _ _)
  | declare => exact hsame size_symbols_declare
  | declareSlot => exact hsame size_symbols_declareSlot
  | putSlot => exact hsame (by simp [Graph.putSlot, modifyMember])

theorem members?_of_kind_var (hkind : s.kind = .var) : s.members? = none := by
  cases s
  cases ‹SymbolData› with
  | var => rfl
  | _ => cases hkind

theorem params_of_kind (h : s.kind ≠ .fn) : s.params = [] := by
  cases s
  cases ‹SymbolData› with
  | fn => exact absurd rfl h
  | _ => rfl

/-- Variables that are taken into the arena have no parameters. -/
theorem params_allocAll (hlist : ∀ s ∈ list, s.Param) (x : SymbolId) :
    ((g.allocAll list).2.symbol x).params = (g.symbol x).params := by
  by_cases hx : x.index < g.symbols.size
  · rw [symbol_allocAll_of_lt list hx]
  · have hle := Nat.le_of_not_lt hx
    rw [params_of_kind (by rw [(kind_allocAll_of_le hlist hle).1]; decide), symbol_of_size_le hle]
    rfl

/-- The parameters of a function whose parameters are set are those that it is given. -/
theorem mem_params_mapFn {params : List SymbolId} {p : SymbolId}
    (hp : p ∈ Symbol.params { s with data := s.data.mapFn fun data => { data with params } }) :
    p ∈ params := by
  cases s
  cases ‹SymbolData› with
  | fn => exact hp
  | _ => cases hp

/-- An edit gives parameters to one function at most, and they are new. -/
theorem Edit.params_cases (hg : g.Regular) (h : Edit types g g') :
    (∀ x, (g'.symbol x).params = (g.symbol x).params) ∨
      ∃ f, (∀ x, x ≠ f → (g'.symbol x).params = (g.symbol x).params) ∧
        ∀ p ∈ (g'.symbol f).params,
          g.symbols.size ≤ p.index ∧ p.index < g'.symbols.size ∧ (g'.symbol p).Param := by
  have hparams : ∀ {g₁ : Graph}, (∀ x, (g₁.symbol x).data = (g.symbol x).data) →
      ∀ x, (g₁.symbol x).params = (g.symbol x).params :=
    fun hdata x => Symbol.params_congr (hdata x)
  have hnew : ∀ {s : Symbol} {x : SymbolId}, s.params = [] → x.index = g.symbols.size →
      s.params = (g.symbol x).params := by
    intro s x hs hx
    rw [hs, symbol_of_size_le (Nat.le_of_eq hx.symm)]
    rfl
  cases h with
  | newScope => exact .inl (hparams fun x => by rw [symbol_newScope])
  | subModule => exact .inl (hparams fun x => by rw [symbols_subModule])
  | alloc hs =>
    refine .inl fun x => ?_
    rw [symbol_alloc]
    split
    next hx => exact hnew hs.params hx
    next => rfl
  | @allocType parent s hs =>
    refine .inl fun x => ?_
    rw [symbol_allocType]
    split
    next hx => exact hnew (bare_setMembers hs _).params hx
    next => rfl
  | @giveParams f list _ hlist =>
    refine .inr ⟨f, fun x hx => ?_, fun p hp => ?_⟩
    · rw [modifyData, symbol_modifySymbol_of_ne hx, params_allocAll hlist]
    · have hmem : p ∈ (g.allocAll list).1 := by
        rw [modifyData, symbol_modifySymbol] at hp
        split at hp
        · exact mem_params_mapFn hp
        next hout =>
          have hle : (g.allocAll list).2.symbols.size ≤ f.index :=
            Nat.le_of_not_lt fun hlt => hout ⟨rfl, hlt⟩
          rw [symbol_of_size_le hle] at hp
          cases hp
      obtain ⟨hle, hlt⟩ := le_of_mem_allocAll hmem
      have hparam := symbol_allocAll_of_mem hlist hmem
      refine ⟨hle, by rwa [modifyData, size_symbols_modifySymbol], ?_⟩
      rw [modifyData, symbol_modifySymbol, mapFn_of_kind_var hparam.kind, ite_self]
      exact hparam
  | @copyFunction f data s hf horigin hs =>
    have hlist : ∀ s ∈ data.params.map fun p => (g.symbol p).detached, s.Param :=
      hg.param_detached hf
    refine .inr ⟨⟨(g.allocAll (data.params.map fun p => (g.symbol p).detached)).2.symbols.size⟩,
      fun x hx => ?_, fun p hp => ?_⟩
    · rw [symbol_alloc, if_neg fun heq => hx (by rw [← heq]), params_allocAll hlist]
    · rw [symbol_alloc, if_pos rfl, Symbol.params, Symbol.fn?, hs] at hp
      obtain ⟨hle, hlt⟩ := le_of_mem_allocAll hp
      refine ⟨hle, by rw [size_symbols_alloc]; exact Nat.lt_succ_of_lt hlt, ?_⟩
      rw [symbol_alloc, if_neg (Nat.ne_of_lt hlt)]
      exact symbol_allocAll_of_mem hlist hp
  | amendScope | mapMember => exact .inl fun _ => rfl
  | amendSymbol _ hf =>
    exact .inl (symbol_modifySymbol_rel (fun s s' => s'.params = s.params) (fun _ => rfl) hf)
  | declare => exact .inl (hparams (symbol_declare_congr Symbol.data fun _ _ _ _ => rfl))
  | declareSlot => exact .inl (hparams data_declareSlot)
  | putSlot =>
    exact .inl (hparams fun x => symbol_modifySymbol_congr Symbol.data _ _ fun _ => rfl)

/-- An edit keeps the graph regular. -/
theorem Edit.regular (hg : g.Regular) (h : Edit types g g') : g'.Regular where
  interfaces {x t} ht := by
    have hkind : (g.symbol t).kind = .iface := by
      by_cases hx : x.index < g.symbols.size
      · exact ((h.retouches hx).interfaces t ht).elim hg.interfaces id
      · obtain ⟨y, hy⟩ := (h.created hg (Nat.le_of_not_lt hx)).interfaces t ht
        exact hg.interfaces hy
    exact h.kind_eq hkind (by decide)
  super? {x t} ht := by
    have hkind : (g.symbol t).kind = .cls := by
      by_cases hx : x.index < g.symbols.size
      · exact ((h.retouches hx).super? t ht).elim hg.super? id
      · obtain ⟨y, hy⟩ := (h.created hg (Nat.le_of_not_lt hx)).super? t ht
        exact hg.super? hy
    exact h.kind_eq hkind (by decide)
  param {f p} hp := by
    have hold : p ∈ (g.symbol f).params → p.index < g'.symbols.size ∧ (g'.symbol p).Param := by
      intro hp
      obtain ⟨hlt, hparam⟩ := hg.param hp
      have hendures := (h.retouches hlt).toEndures
      exact ⟨Nat.lt_of_lt_of_le hlt h.symbols_le, hendures.kind.trans hparam.kind,
        (congrArg Core.ns hendures.core).trans hparam.ns, hendures.isParam.trans hparam.isParam,
        hendures.origin.trans hparam.origin⟩
    rcases h.params_cases hg with hsame | ⟨f', hsame, hnew⟩
    · rw [hsame] at hp
      exact hold hp
    · by_cases hf : f = f'
      · subst hf
        exact (hnew p hp).2
      · rw [hsame f hf] at hp
        exact hold hp
  param_unique {f f' p} hp hp' := by
    rcases h.params_cases hg with hsame | ⟨f₀, hsame, hnew⟩
    · rw [hsame] at hp hp'
      exact hg.param_unique hp hp'
    · -- parameters that are given to `f₀` are new, those of all others are not
      have hold : ∀ {x}, x ≠ f₀ → p ∈ (g'.symbol x).params → p ∈ (g.symbol x).params ∧
          p.index < g.symbols.size := by
        intro x hx hmem
        rw [hsame x hx] at hmem
        exact ⟨hmem, (hg.param hmem).1⟩
      by_cases hf : f = f₀
      · by_cases hf' : f' = f₀
        · rw [hf, hf']
        · exact absurd (hold hf' hp').2 (Nat.not_lt_of_le (hnew p (hf ▸ hp)).1)
      · by_cases hf' : f' = f₀
        · exact absurd (hold hf hp).2 (Nat.not_lt_of_le (hnew p (hf' ▸ hp')).1)
        · exact hg.param_unique (hold hf hp).1 (hold hf' hp').1
  host {x m} hm := by
    -- what is known of a type that was there stays true
    have hold : ∀ y, (g.symbol y).members? = some m → (g.symbol y).kind = (g'.symbol x).kind →
        ((g'.symbol x).origin = none → y = x ∧ (g.symbol y).origin = none) →
        ∃ host, (g'.scope m).member.map (·.host) = some host ∧
          (g'.symbol host).kind = (g'.symbol x).kind ∧
          ((g'.symbol x).origin = none → host = x) := by
      intro y hy hkind horigin
      obtain ⟨host, hhost, hhostKind, hself⟩ := hg.host hy
      have hlt : m.index < g.scopes.size := scope_lt_size fun hblank => by
        rw [hblank] at hhost
        cases hhost
      have htype : (g.symbol y).kind ≠ .var := by
        intro hvar
        rw [members?_of_kind_var hvar] at hy
        cases hy
      refine ⟨host, by rw [h.host_eq hlt, hhost], ?_, fun hnone => ?_⟩
      · rw [h.kind_eq hhostKind htype, hkind]
      · obtain ⟨rfl, hnone'⟩ := horigin hnone
        exact hself hnone'
    by_cases hx : x.index < g.symbols.size
    · have hcore := h.core_eq hx
      have horigin : (g'.symbol x).origin = (g.symbol x).origin := congrArg Core.origin hcore
      refine hold x ((congrArg Core.members? hcore).symm.trans hm)
        (congrArg Core.kind hcore).symm fun hnone => ⟨rfl, horigin.symm.trans hnone⟩
    · rcases (h.created hg (Nat.le_of_not_lt hx)).members m hm with ⟨horigin, y, hy, hkind⟩ | hhost
      · exact hold y hy hkind fun hnone => absurd hnone horigin
      · exact ⟨x, hhost, rfl, fun _ => rfl⟩
  link {q p} hp := by
    have hkeep : ∀ {x}, (g.symbol x).kind = .cls ∧ (g.symbol x).members? = some p →
        ∃ x, (g'.symbol x).kind = .cls ∧ (g'.symbol x).members? = some p := by
      rintro x ⟨hkind, hmembers⟩
      have hcore := h.core_eq (lt_size_of_members? hmembers)
      exact ⟨x, (congrArg Core.kind hcore).trans hkind,
        (congrArg Core.members? hcore).trans hmembers⟩
    have hold : ∀ {info}, (g.scope q).member = some info → info.super = some p →
        ∃ x, (g'.symbol x).kind = .cls ∧ (g'.symbol x).members? = some p := by
      intro info hinfo hsuper
      have hscope : g.superScope? q = some p := by
        rw [superScope?, memberInfo?, hinfo, Option.bind_some, hsuper]
      obtain ⟨x, hx⟩ := hg.link hscope
      exact hkeep hx
    obtain ⟨info', hinfo', hsuper⟩ := Option.bind_eq_some_iff.mp hp
    rcases h.rewires q with (heq | ⟨info, _, hinfo, heq, hrewires⟩) | ⟨-, host, heq⟩
    · exact hold (heq.symm.trans hinfo') hsuper
    · cases heq.symm.trans hinfo'
      cases hrewires with
      | link hkind => exact hkeep ⟨hkind, hsuper⟩
      | restrict => exact hold hinfo hsuper
      | fill role => cases role <;> exact hold hinfo hsuper
    · cases heq.symm.trans hinfo'
      cases hsuper
  slots {q info'} hinfo' := by
    rcases h.rewires q with (heq | ⟨info, _, hinfo, heq, hrewires⟩) | ⟨-, host, heq⟩
    · exact hg.slots (heq.symm.trans hinfo')
    · cases heq.symm.trans hinfo'
      obtain ⟨hgetters, hsetters⟩ := hg.slots hinfo
      cases hrewires with
      | link | restrict => exact ⟨hgetters, hsetters⟩
      | fill role name symbol =>
        cases role with
        | getter => exact ⟨NameMap.keys_nodup_set _ _ _ hgetters, hsetters⟩
        | setter => exact ⟨hgetters, NameMap.keys_nodup_set _ _ _ hsetters⟩
        | _ => exact ⟨hgetters, hsetters⟩
    · cases heq.symm.trans hinfo'
      exact ⟨List.nodup_nil, List.nodup_nil⟩

theorem Edits.regular (hg : g.Regular) (h : Edits types g g') : g'.Regular := by
  induction h with
  | refl => exact hg
  | tail _ hedit ih => exact hedit.regular ih

/-! ### Modules -/

/-- The modules of a scope have different names and are different scopes. -/
structure Branching (g : Graph) : Prop where
  nodup : ∀ q, (g.scope q).modules.keys.Nodup
  lt_size : ∀ {q name m}, (g.scope q).modules.find? name = some m → m.index < g.scopes.size
  inj : ∀ {q name name' m}, (g.scope q).modules.find? name = some m →
    (g.scope q).modules.find? name' = some m → name = name'

/-- No root but a unit below the global scope. -/
def Standalone (s : Scope) : Prop :=
  s.links.1.isRoot = false ∨ s.links.1 = .unit ∧ s.links.2.1 = some global

/-- What edits other than opening a module do to scopes: none gets a module, only the scopes of
functions get a delegate, and no module is renamed. -/
structure Tends (g g' : Graph) : Prop where
  size_le : g.scopes.size ≤ g'.scopes.size
  kind : ∀ {q}, q.index < g.scopes.size → (g'.scope q).kind = (g.scope q).kind
  parent : ∀ {q}, q.index < g.scopes.size → (g'.scope q).parent = (g.scope q).parent
  modules : ∀ q, (g'.scope q).modules = (g.scope q).modules
  delegate : ∀ q, (g'.scope q).delegate = (g.scope q).delegate ∨ (g.scope q).kind = .function
  name : ∀ q, (g'.scope q).name = (g.scope q).name ∨ (g.scope q).kind ≠ .module
  fresh : ∀ {q}, g.scopes.size ≤ q.index → Standalone (g'.scope q)

variable {q : ScopeId}

theorem standalone_of_size_le (h : g.scopes.size ≤ q.index) : Standalone (g.scope q) := by
  rw [scope_of_size_le h]
  exact .inl rfl

theorem standalone_newScope {kind : ScopeKind}
    (hkind : kind.isRoot = false ∨ kind = .unit ∧ parent = global) (h : g.scopes.size ≤ q.index) :
    Standalone ((g.newScope kind (some parent)).2.scope q) := by
  rw [scope_newScope]
  split
  · exact hkind.imp id fun hunit => ⟨hunit.1, congrArg some hunit.2⟩
  · split
    · exact .inl rfl
    · exact standalone_of_size_le h

/-- As far as the module tree goes, an edit either keeps all scopes or opens one module. -/
theorem Edit.scopes_cases (h : Edit types g g') :
    g.Tends g' ∨ ∃ parent name, g' = (g.subModule parent name).2 := by
  let view (s : Scope) := (s.modules, s.delegate, s.name)
  have hview : ∀ {g₁ : Graph}, g.Extends g₁ → (∀ q, view (g₁.scope q) = view (g.scope q)) →
      (∀ {q}, g.scopes.size ≤ q.index → Standalone (g₁.scope q)) → g.Tends g₁ :=
    fun hext heq hfresh => ⟨hext.size_le, hext.kind, hext.parent,
      fun q => congrArg Prod.fst (heq q),
      fun q => .inl (congrArg (·.2.1) (heq q)), fun q => .inl (congrArg (·.2.2) (heq q)), hfresh⟩
  have hblank : ∀ {g₁ : Graph}, g₁.scopes.size = g.scopes.size → ∀ {q : ScopeId},
      g.scopes.size ≤ q.index → Standalone (g₁.scope q) :=
    fun hsize q hq => standalone_of_size_le (hsize ▸ hq)
  have hsame : ∀ {g₁ : Graph}, g₁.scopes = g.scopes → g.Tends g₁ := fun heq =>
    hview (.of_eq (by rw [heq]) fun q => by rw [scope, scope, heq])
      (fun q => by rw [scope, scope, heq]) (hblank (by rw [heq]))
  cases h with
  | newScope hkind =>
    exact .inl (hview (.newScope _ _) (scope_newScope_congr g view (fun _ _ _ _ _ => rfl) _ _)
      (standalone_newScope hkind))
  | subModule => exact .inr ⟨_, _, rfl⟩
  | alloc | amendSymbol => exact .inl (hsame rfl)
  | @allocType parent s =>
    refine .inl (hview (grows_allocType _ _).toExtends
      (scope_newMemberScope_congr g view (fun _ _ _ _ _ => rfl) (fun _ _ => rfl) _ _)
      fun {q} hq => ?_)
    have hlinks : ((g.allocType parent s).2.scope q).links =
        ((g.newScope .member (some parent)).2.scope q).links :=
      scope_modifyScope_congr Scope.links _ _ fun _ => rfl
    rw [Standalone, hlinks]
    exact standalone_newScope (.inl rfl) hq
  | giveParams | copyFunction => exact .inl (hsame (scopes_allocAll _ g))
  | amendScope hf =>
    exact .inl ⟨Nat.le_of_eq (size_scopes_modifyScope _ _ _).symm,
      fun {q} _ => (hf.modifyScope q).kind, fun {q} _ => (hf.modifyScope q).parent,
      fun q => (hf.modifyScope q).modules, fun q => (hf.modifyScope q).delegate,
      fun q => (hf.modifyScope q).name, hblank (size_scopes_modifyScope _ _ _)⟩
  | mapMember =>
    exact .inl (hview (grows_modifyMember _ _).toExtends
      (fun q => scope_modifyMember_congr view (fun _ _ => rfl) _ _ _)
      (hblank (size_scopes_modifyScope _ _ _)))
  | declare =>
    exact .inl (hview grows_declare.toExtends (scope_declare_congr view fun _ _ _ _ => rfl)
      (hblank size_scopes_declare))
  | declareSlot =>
    exact .inl (hview grows_declareSlot.toExtends (scope_declareSlot_congr view fun _ _ _ => rfl)
      (hblank size_scopes_declareSlot))
  | putSlot =>
    exact .inl (hview grows_putSlot.toExtends
      (fun q => scope_modifyMember_congr view (fun _ _ => rfl) _ _ _)
      (hblank (size_scopes_modifyScope _ _ _)))

/-- What holds after an edit that opens no module and after one that does holds after any. -/
theorem Edits.keeps {P : Graph → Prop} (h : Edits types g g')
    (htends : ∀ {g g' : Graph}, g.Tends g' → P g → P g')
    (hsubModule : ∀ {g : Graph}, P g → ∀ parent name, P (g.subModule parent name).2)
    (hg : P g) : P g' := by
  induction h with
  | refl => exact hg
  | tail _ hedit ih =>
    rcases hedit.scopes_cases with h | ⟨parent, name, rfl⟩
    · exact htends h ih
    · exact hsubModule ih parent name

variable (hfree : (g.scope parent).modules.find? name = none)

include hfree

/-- What opening a module that is not there does to the modules of a scope. -/
theorem modules_subModule (q : ScopeId) :
    ((g.subModule parent name).2.scope q).modules = (g.scope q).modules ∨
      q = parent ∧ ((g.subModule parent name).2.scope q).modules =
        (g.scope q).modules.set name ⟨g.scopes.size⟩ := by
  have hold : (((g.newScope .module (some parent)).2.modifyScope ⟨g.scopes.size⟩ fun s =>
      { s with name := some name }).scope q).modules = (g.scope q).modules := by
    rw [scope_modifyScope_congr Scope.modules]
    · exact scope_newScope_congr g Scope.modules (fun _ _ _ _ _ => rfl) _ _ q
    · exact fun _ => rfl
  simp only [subModule, hfree, newScope_fst]
  rw [scope_modifyScope]
  split
  next hq => exact .inr ⟨hq.1, by rw [hold]⟩
  next => exact .inl hold

/-- A module that is not there becomes one more module of its parent, and no other scope changes. -/
theorem scope_subModule (hq : q.index < g.scopes.size) : (g.subModule parent name).2.scope q =
      if q = parent then { g.scope q with modules := (g.scope q).modules.set name ⟨g.scopes.size⟩ }
      else g.scope q := by
  have hold : ((g.newScope .module (some parent)).2.modifyScope ⟨g.scopes.size⟩ fun s =>
      { s with name := some name }).scope q = g.scope q := by
    rw [scope_modifyScope_of_ne, scope_newScope_of_lt g _ _ hq]
    rintro rfl
    exact Nat.lt_irrefl _ hq
  simp only [subModule, hfree, newScope_fst]
  rw [scope_modifyScope, hold]
  refine if_congr (and_iff_left_of_imp ?_) rfl rfl
  rintro rfl
  rw [size_scopes_modifyScope, size_scopes_newScope]
  omega

theorem lt_size_subModule : g.scopes.size < (g.subModule parent name).2.scopes.size := by
  simp only [Graph.subModule, hfree, size_scopes_modifyScope, size_scopes_newScope]
  exact Nat.lt_add_of_pos_right (by decide)

omit hfree

/-- A module is opened under a name that its parent has not given yet, or else is the one there. -/
theorem Branching.subModule (hg : g.Branching) (parent : ScopeId) (name : String) :
    (g.subModule parent name).2.Branching := by
  cases hfind : (g.scope parent).modules.find? name with
  | some m => rwa [subModule_of_find? hfind]
  | none =>
    have hcases := modules_subModule hfind
    have hsize := lt_size_subModule hfind
    refine ⟨fun q => ?_, fun {q name' m} hm => ?_, fun {q n n' m} hn hn' => ?_⟩
    · rcases hcases q with heq | ⟨-, heq⟩
      · rw [heq]
        exact hg.nodup q
      · rw [heq]
        exact NameMap.keys_nodup_set _ _ _ (hg.nodup q)
    · rcases hcases q with heq | ⟨-, heq⟩
      · rw [heq] at hm
        exact Nat.lt_trans (hg.lt_size hm) hsize
      · rw [heq, NameMap.find?_set] at hm
        split at hm
        · cases hm
          exact hsize
        · exact Nat.lt_trans (hg.lt_size hm) hsize
    · rcases hcases q with heq | ⟨-, heq⟩
      · rw [heq] at hn hn'
        exact hg.inj hn hn'
      · -- the new module is none of those that were there
        have hne : ∀ {k}, (g.scope q).modules.find? k ≠ some ⟨g.scopes.size⟩ :=
          fun hk => Nat.lt_irrefl _ (hg.lt_size hk)
        rw [heq, NameMap.find?_set] at hn hn'
        split at hn
        next hname =>
          cases hn
          split at hn'
          next hname' => rw [hname, hname']
          next => exact absurd hn' hne
        next =>
          split at hn'
          · cases hn'
            exact absurd hn hne
          · exact hg.inj hn hn'

theorem Branching.congr (hg : g.Branching) (hsize : g.scopes.size ≤ g'.scopes.size)
    (hsame : ∀ q, (g'.scope q).modules = (g.scope q).modules) : g'.Branching := by
  refine ⟨fun q => ?_, fun {q name m} hm => ?_, fun {q n n' m} hn hn' => ?_⟩
  · rw [hsame]
    exact hg.nodup q
  · rw [hsame] at hm
    exact Nat.lt_of_lt_of_le (hg.lt_size hm) hsize
  · rw [hsame] at hn hn'
    exact hg.inj hn hn'

theorem Edits.branching (hg : g.Branching) (h : Edits types g g') : g'.Branching :=
  h.keeps (fun htends hg => hg.congr htends.size_le htends.modules) Branching.subModule hg

/-- Modules are added, and only new scopes are added as modules. -/
structure Sprouts (g g' : Graph) : Prop where
  size_le : g.scopes.size ≤ g'.scopes.size
  keeps : ∀ {q name m}, (g.scope q).modules.find? name = some m →
    (g'.scope q).modules.find? name = some m
  sprout : ∀ {q name m}, (g'.scope q).modules.find? name = some m →
    (g.scope q).modules.find? name = some m ∨ g.scopes.size ≤ m.index

theorem sprouts_subModule (g : Graph) (parent : ScopeId) (name : String) :
    g.Sprouts (g.subModule parent name).2 := by
  cases hfind : (g.scope parent).modules.find? name with
  | some m =>
    rw [subModule_of_find? hfind]
    exact ⟨Nat.le_refl _, id, .inl⟩
  | none =>
    have hcases := modules_subModule hfind
    refine ⟨Nat.le_of_lt (lt_size_subModule hfind), fun {q n m} hm => ?_, fun {q n m} hm => ?_⟩
    · rcases hcases q with heq | ⟨rfl, heq⟩
      · rwa [heq]
      · rw [heq, NameMap.find?_set, if_neg, hm]
        rintro rfl
        rw [hfind] at hm
        cases hm
    · rcases hcases q with heq | ⟨-, heq⟩
      · rw [heq] at hm
        exact .inl hm
      · rw [heq, NameMap.find?_set] at hm
        split at hm
        · cases hm
          exact .inr (Nat.le_refl _)
        · exact .inl hm

theorem Edits.sprouts (h : Edits types g g') : g.Sprouts g' := by
  induction h with
  | refl => exact ⟨Nat.le_refl _, id, .inl⟩
  | @tail g₁ g₂ _ hedit ih =>
    have hstep : g₁.Sprouts g₂ := by
      rcases hedit.scopes_cases with ⟨hsize, -, -, hsame, -, -, -⟩ | ⟨parent, name, rfl⟩
      · exact ⟨hsize, fun hm => by rwa [hsame], fun hm => .inl (by rwa [hsame] at hm)⟩
      · exact sprouts_subModule g₁ parent name
    refine ⟨Nat.le_trans ih.size_le hstep.size_le, fun hm => hstep.keeps (ih.keeps hm),
      fun hm => ?_⟩
    rcases hstep.sprout hm with hm | hle
    · exact ih.sprout hm
    · exact .inr (Nat.le_trans ih.size_le hle)

/-! ### Delegates -/

/-- Only the scopes of functions have a delegate. -/
def Hinged (g : Graph) : Prop := ∀ q, (g.scope q).delegate ≠ none → (g.scope q).kind = .function

theorem lt_size_of_kind_function (h : (g.scope q).kind = .function) : q.index < g.scopes.size :=
  lt_size_of_kind fun hblock => by cases h.symm.trans hblock

theorem Tends.hinged (h : g.Tends g') (hg : g.Hinged) : g'.Hinged := by
  intro q hq
  have hfunction : (g.scope q).kind = .function := by
    rcases h.delegate q with heq | hfunction
    · exact hg q (heq ▸ hq)
    · exact hfunction
  rw [h.kind (lt_size_of_kind_function hfunction), hfunction]

theorem Hinged.subModule (hg : g.Hinged) (parent : ScopeId) (name : String) :
    (g.subModule parent name).2.Hinged := by
  cases hfind : (g.scope parent).modules.find? name with
  | some m => rwa [subModule_of_find? hfind]
  | none =>
    intro q hq
    rw [scope_subModule_congr Scope.delegate (fun _ _ _ _ _ => rfl) (fun _ _ _ => rfl)] at hq
    rw [scope_subModule hfind (lt_size_of_kind_function (hg q hq))]
    split <;> exact hg q hq

theorem Edits.hinged (hg : g.Hinged) (h : Edits types g g') : g'.Hinged :=
  h.keeps Tends.hinged Hinged.subModule hg

/-! ### Roots -/

/-- Where a root is: a unit is below the global scope, and a module is where its name says. -/
inductive Seat (g : Graph) (q : ScopeId) : Prop where
  | global : q = Graph.global → Seat g q
  | unit : (g.scope q).kind = .unit → (g.scope q).parent = some Graph.global → Seat g q
  | module {p : ScopeId} {name : String} : (g.scope q).kind = .module →
    (g.scope q).parent = some p → (g.scope q).name = some name →
    (p.index < q.index → (g.scope p).modules.find? name = some q) → Seat g q

/-- Every root is in its place. -/
def Charted (g : Graph) : Prop := ∀ q, (g.scope q).kind.isRoot = true → g.Seat q

theorem Seat.congr (h : g.Seat q) (hkind : (g'.scope q).kind = (g.scope q).kind)
    (hparent : (g'.scope q).parent = (g.scope q).parent)
    (hname : (g'.scope q).name = (g.scope q).name ∨ (g.scope q).kind ≠ .module)
    (hkeeps : ∀ {p name m}, (g.scope p).modules.find? name = some m →
      (g'.scope p).modules.find? name = some m) : g'.Seat q := by
  cases h with
  | global heq => exact .global heq
  | unit hunit hglobal => exact .unit (hkind.trans hunit) (hparent.trans hglobal)
  | module hmodule hp hn hfind =>
    exact .module (hkind.trans hmodule) (hparent.trans hp)
      ((hname.resolve_right (not_not_intro hmodule)).trans hn) fun hlt => hkeeps (hfind hlt)

theorem Tends.charted (h : g.Tends g') (hg : g.Charted) : g'.Charted := by
  intro q hroot
  rcases Nat.lt_or_ge q.index g.scopes.size with hq | hq
  · exact (hg q (h.kind hq ▸ hroot)).congr (h.kind hq) (h.parent hq) (h.name q)
      fun hm => by rwa [h.modules]
  · rcases h.fresh hq with hnot | ⟨hunit, hglobal⟩
    · cases hroot.symm.trans hnot
    · exact .unit hunit hglobal

/-- A module that is opened has its seat: its parent finds it under its name. -/
theorem Charted.subModule (hg : g.Charted) (parent : ScopeId) (name : String) :
    (g.subModule parent name).2.Charted := by
  cases hfind : (g.scope parent).modules.find? name with
  | some m => rwa [subModule_of_find? hfind]
  | none =>
    let view (s : Scope) := (s.kind, s.parent, s.name)
    have hview : ∀ q, view ((g.subModule parent name).2.scope q) =
        if q = ⟨g.scopes.size⟩ then (.module, some parent, some name)
        else view ((g.newScope .module (some parent)).2.scope q) := by
      intro q
      simp only [Graph.subModule, hfind, newScope_fst]
      rw [scope_modifyScope_congr view _ _ (by exact fun _ => rfl), scope_modifyScope]
      have hlt : g.scopes.size < (g.newScope .module (some parent)).2.scopes.size := by
        rw [size_scopes_newScope]
        exact Nat.lt_add_of_pos_right (by decide)
      by_cases hq : q = ⟨g.scopes.size⟩
      · rw [if_pos ⟨hq, hlt⟩, if_pos hq, hq, scope_newScope, if_pos rfl]
      · rw [if_neg fun h => hq h.1, if_neg hq]
    intro q hroot
    have hq := hview q
    split at hq
    next hnew =>
      refine .module (congrArg (·.1) hq) (congrArg (·.2.1) hq) (congrArg (·.2.2) hq) fun hlt => ?_
      subst hnew
      rw [scope_subModule hfind hlt, if_pos rfl, NameMap.find?_set, if_pos rfl]
    next hnew =>
      rw [scope_newScope, if_neg fun h => hnew (congrArg ScopeId.mk h)] at hq
      split at hq
      · cases (congrArg (·.1.isRoot) hq).symm.trans hroot
      · have hkind : ((g.subModule parent name).2.scope q).kind = (g.scope q).kind :=
          congrArg (·.1) hq
        exact (hg q (hkind ▸ hroot)).congr hkind (congrArg (·.2.1) hq)
          (.inl (congrArg (·.2.2) hq)) (sprouts_subModule g parent name).keeps

theorem Edits.charted (hg : g.Charted) (h : Edits types g g') : g'.Charted :=
  h.keeps Tends.charted Charted.subModule hg

/-! ### What edits leave alone -/

theorem Edit.mono {types' : Set SymbolId} (htypes : types ⊆ types') (h : Edit types g g') :
    Edit types' g g' := by
  cases h with
  | newScope hkind => exact .newScope hkind
  | subModule => exact .subModule
  | alloc hs => exact .alloc hs
  | allocType hs htype => exact .allocType hs htype
  | giveParams hparams hlist => exact .giveParams hparams hlist
  | copyFunction hf horigin hs => exact .copyFunction hf horigin hs
  | amendScope hf => exact .amendScope hf
  | mapMember hf => exact .mapMember hf
  | amendSymbol hf hparams =>
    exact .amendSymbol { hf with
      decided := hf.decided.imp_left fun hx => ⟨htypes hx.1, hx.2⟩ } hparams
  | declare => exact .declare
  | declareSlot => exact .declareSlot
  | putSlot => exact .putSlot

namespace Edits

theorem mono {types' : Set SymbolId} (htypes : types ⊆ types') (h : Edits types g g') :
    Edits types' g g' :=
  Relation.ReflTransGen.mono (fun _ _ => Edit.mono htypes) g g' h

theorem symbols_le (h : Edits types g g') : g.symbols.size ≤ g'.symbols.size := by
  induction h with
  | refl => exact Nat.le_refl _
  | tail _ hedit ih => exact Nat.le_trans ih hedit.symbols_le

theorem kind_eq (h : Edits types g g') {kind : SymbolKind} (hx : (g.symbol x).kind = kind)
    (hkind : kind ≠ .var) : (g'.symbol x).kind = kind := by
  induction h with
  | refl => exact hx
  | tail _ hedit ih => exact hedit.kind_eq ih hkind

variable {x : SymbolId} (h : Edits types g g') (hlt : x.index < g.symbols.size)

include h hlt

/-- Of a type that is not one of `types` or has been resolved, neither the resolution nor the
abstract mark changes. -/
theorem apart (hx : x ∈ types → (g.symbol x).data.resolution? = some .resolved) :
    (g'.symbol x).data.resolution? = (g.symbol x).data.resolution? ∧
      g'.isAbstract x = g.isAbstract x := by
  induction h with
  | refl => exact ⟨rfl, rfl⟩
  | tail hfirst hedit ih =>
    have hretouch := hedit.retouches (Nat.lt_of_lt_of_le hlt (symbols_le hfirst))
    obtain ⟨habstract, hresolution⟩ := hretouch.decided.resolve_left fun ⟨htypes, hopen⟩ =>
      hopen (ih.1.trans (hx htypes))
    exact ⟨hresolution.trans ih.1, habstract.trans ih.2⟩

theorem endures : (g.symbol x).Endures (g'.symbol x) := by
  induction h with
  | refl => exact .refl
  | tail hfirst hedit ih =>
    exact ih.trans (hedit.retouches (Nat.lt_of_lt_of_le hlt (symbols_le hfirst))).toEndures

theorem isForeign_eq : (g'.symbol x).flags.isForeign = (g.symbol x).flags.isForeign :=
  congrArg Core.isForeign (endures h hlt).core

end Edits

/-! ### What has been decided -/

/-- The types that are being resolved. -/
def stalled (g : Graph) : Set SymbolId := { x | (g.symbol x).data.resolution? = some .resolving }

/-- What has been decided about types stays: a type that has been resolved, or is being resolved,
remains so, and its abstract mark does not change. -/
def Settles (g g' : Graph) : Prop :=
  ∀ x r, (g.symbol x).data.resolution? = some r → r ≠ .unresolved →
    (g'.symbol x).data.resolution? = some r ∧ g'.isAbstract x = g.isAbstract x

namespace Settles

variable {g'' : Graph}

protected theorem refl : g.Settles g := fun _ _ hr _ => ⟨hr, rfl⟩

protected theorem trans (h : g.Settles g') (h' : g'.Settles g'') : g.Settles g'' := by
  intro x r hr hne
  obtain ⟨hr', heq⟩ := h x r hr hne
  obtain ⟨hr'', heq'⟩ := h' x r hr' hne
  exact ⟨hr'', heq'.trans heq⟩

end Settles

theorem Edits.settles (h : Edits types g g') (htypes : ∀ x ∈ types, x ∉ g.stalled) :
    g.Settles g' := by
  intro x r hr hne
  rw [← hr]
  refine h.apart (lt_size_of_resolution? hr) fun hx => ?_
  cases r with
  | unresolved => exact absurd rfl hne
  | resolving => exact absurd hr (htypes x hx)
  | resolved => exact hr

end Graph

end Scoping
