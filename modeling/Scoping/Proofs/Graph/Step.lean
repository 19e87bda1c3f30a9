import Mathlib.Data.Set.Basic
import Scoping.Declaration.Symbols
import Scoping.Proofs.Graph.Decision
import Scoping.Proofs.Graph.Nesting

/-!
# Steps of an analysis

Whatever an analysis does to the graph, short of publishing a unit, is a sequence of a few kinds of
edits: new scopes and symbols, declarations of fresh symbols, slots that are filled, superclasses
that are linked, and amendments that spare tables, owners and names. `Graph.Step` lists them, each
with what is known when it happens, and `Graph.Grows` says what none of them takes away.
-/

namespace Scoping

/-- Who may see a symbol. -/
def Flags.access (flags : Flags) : Bool × Bool × Bool :=
  (flags.isPublic, flags.isProtected, flags.isPrivate)

namespace Graph

/-! ### Where symbols are -/

/-- Some table lists the symbol. -/
def Listed (g : Graph) (x : SymbolId) : Prop :=
  ∃ q ns name, (g.scope q).table.get? ns name = some x

/-- The symbol in a slot of a member scope. -/
def slot? (g : Graph) (p : ScopeId) (role : Role) (name : String) : Option SymbolId :=
  (g.memberInfo? p).bind (·.slot? role name)

/-- A symbol that a unit has taken into the arena and that has not been declared. -/
structure Fresh (g : Graph) (x : SymbolId) : Prop where
  lt_size : x.index < g.symbols.size
  managed : (g.symbol x).managed = false
  detached : (g.symbol x).scope = none
  not_listed : ¬ g.Listed x
  slot_ne : ∀ p role name, g.slot? p role name ≠ some x
  not_dropped : ∀ p, x ∉ (g.scope p).dropped

namespace Fresh

variable {g : Graph} {symbol x : SymbolId} (h : g.Fresh symbol)

include h

theorem ne_of_listed (hx : g.Listed x) : x ≠ symbol := by
  rintro rfl
  exact h.not_listed hx

theorem ne_of_get? {q : ScopeId} {ns : Namespace} {name : String}
    (hx : (g.scope q).table.get? ns name = some x) : x ≠ symbol :=
  h.ne_of_listed ⟨q, ns, name, hx⟩

variable {p : ScopeId}

theorem ne_of_slot? {role : Role} {name : String}
    (hx : g.slot? p role name = some x) : x ≠ symbol := by
  rintro rfl
  exact h.slot_ne _ _ _ hx

theorem ne_of_dropped (hx : x ∈ (g.scope p).dropped) : x ≠ symbol := by
  rintro rfl
  exact h.not_dropped p hx

theorem ne_of_scope (hx : (g.symbol x).scope = some p) : x ≠ symbol := by
  rintro rfl
  rw [h.detached] at hx
  cases hx

end Fresh

/-- All listed symbols are older, copies of trait members aside. -/
def Latest (g : Graph) (x : SymbolId) : Prop :=
  ∀ y, g.Listed y → y.index < x.index ∨ (g.symbol y).origin ≠ none

/-- No superclass is linked to the scope or to one around it. -/
def Unlinked (g : Graph) (p : ScopeId) : Prop := ∀ q, g.Outward p q → g.superScope? q = none

/-- The scope is in the body of a function that was copied from a trait. -/
def Delegated (g : Graph) (p : ScopeId) : Prop :=
  ∃ q, g.Outward p q ∧ (g.scope q).delegate ≠ none

/-! ### Amendments -/

/-- The member scope of some type. -/
def MemberScope (g : Graph) (m : ScopeId) : Prop := ∃ x, (g.symbol x).members? = some m

/-- An update of the scope `p` that spares its links, its table and its slots. A scope without a
delegate may be given the member scope of a type for one. -/
structure AmendsScope (g : Graph) (p : ScopeId) (s s' : Scope) : Prop where
  links : s'.links = s.links
  table : s'.table = s.table
  dropped : s'.dropped = s.dropped
  member : s'.member ≠ none → s.member ≠ none
  slot : ∀ role name,
    (s'.member.bind fun info => info.slot? role name) =
      s.member.bind fun info => info.slot? role name
  super : (s'.member.bind fun info => info.super) = s.member.bind fun info => info.super
  delegate : s'.delegate = s.delegate ∨
    s.delegate = none ∧ ∀ d, s'.delegate = some d → g.MemberScope d
  module : ∀ name m, (name, m) ∈ s'.modules.entries → (name, m) ∈ s.modules.entries ∨
    (g.scope m).parent = some p ∧ (g.scope m).kind = .module

variable {p : ScopeId} {s : Symbol} {x : SymbolId}

/-- Labels, captures and marks of a walk. -/
theorem AmendsScope.marks {g : Graph} (s : Scope) (name : Option String) (captured : List SymbolId)
    (active : Nat) : AmendsScope g p s { s with name, captured, active } :=
  ⟨rfl, rfl, rfl, id, fun _ _ => rfl, rfl, .inl rfl, fun _ _ h => .inl h⟩

/-- Extras of a member scope other than its slots and its superclass. -/
theorem AmendsScope.mapMember {g : Graph} (s : Scope) {f : MemberInfo → MemberInfo}
    (hslot : ∀ info role name, (f info).slot? role name = info.slot? role name)
    (hsuper : ∀ info, (f info).super = info.super) : AmendsScope g p s (s.mapMember f) := by
  refine ⟨rfl, rfl, rfl, ?_, fun role name => ?_, ?_, .inl rfl, fun _ _ h => .inl h⟩
  · simp [Scope.mapMember]
  · cases hm : s.member <;> simp [Scope.mapMember, hm, hslot]
  · cases hm : s.member <;> simp [Scope.mapMember, hm, hsuper]

/-- What stays the same about a symbol from the moment it is created. -/
structure Core where
  name : String
  ns : Namespace
  origin : Option SymbolId
  node : Option NodeId
  managed : Bool
  kind : SymbolKind
  members? : Option ScopeId
  isFinal : Bool
  isIncomplete : Bool
  isParam : Bool
  isStatic : Bool
  isForeign : Bool

def core (s : Symbol) : Core :=
  { name := s.name
    ns := s.ns
    origin := s.origin
    node := s.node
    managed := s.managed
    kind := s.kind
    members? := s.members?
    isFinal := s.flags.isFinal
    isIncomplete := s.flags.isIncomplete
    isParam := s.flags.isParam
    isStatic := s.flags.isStatic
    isForeign := s.flags.isForeign }

/-- Of the payload, kind and member scope are in the core. -/
theorem core_data {data : SymbolData} (hkind : data.kind = s.data.kind)
    (hmembers : data.members? = s.data.members?) : core { s with data } = core s := by
  simp only [core, Symbol.kind, Symbol.members?, hkind, hmembers]

/-- An update of a symbol that spares its owner and its core. -/
structure SparesSymbol (s s' : Symbol) : Prop where
  core : core s' = core s
  scope : s'.scope = s.scope
  resolution : s.data.resolution? = some .resolved → s'.data.resolution? = some .resolved

/-- An update of the symbol `x` that spares its visibility as well. Only `types` may be resolved. -/
structure AmendsSymbol (types : Set SymbolId) (x : SymbolId) (s s' : Symbol) : Prop
    extends SparesSymbol s s' where
  access : s'.flags.access = s.flags.access
  resolution_eq : x ∈ types ∨ s'.data.resolution? = s.data.resolution?

namespace AmendsSymbol

variable {types : Set SymbolId} {x : SymbolId} {s : Symbol}

theorem of_data {data : SymbolData} (h : (data.kind, data.members?, data.resolution?) =
    (s.data.kind, s.data.members?, s.data.resolution?)) :
    AmendsSymbol types x s { s with data } where
  core := core_data (congrArg (·.1) h) (congrArg (·.2.1) h)
  scope := rfl
  resolution hresolved := (congrArg (·.2.2) h).trans hresolved
  access := rfl
  resolution_eq := .inr (congrArg (·.2.2) h)

theorem mapFn (f : FunctionData → FunctionData) :
    AmendsSymbol types x s { s with data := s.data.mapFn f } :=
  .of_data (by cases s.data <;> rfl)

theorem mapVar (f : VariableData → VariableData) :
    AmendsSymbol types x s { s with data := s.data.mapVar f } :=
  .of_data (by cases s.data <;> rfl)

theorem mapImport (f : ImportData → ImportData) :
    AmendsSymbol types x s { s with data := s.data.mapImport f } :=
  .of_data (by cases s.data <;> rfl)

theorem mapClass {f : ClassData → ClassData} (hmembers : ∀ d, (f d).members = d.members)
    (hresolution : ∀ d, (f d).resolution = d.resolution) :
    AmendsSymbol types x s { s with data := s.data.mapClass f } :=
  .of_data (by
    cases s.data <;> simp [SymbolData.mapClass, SymbolData.kind, SymbolData.members?,
      SymbolData.resolution?, hmembers, hresolution])

theorem mapInterface {f : InterfaceData → InterfaceData}
    (hmembers : ∀ d, (f d).members = d.members)
    (hresolution : ∀ d, (f d).resolution = d.resolution) :
    AmendsSymbol types x s { s with data := s.data.mapInterface f } :=
  .of_data (by
    cases s.data <;> simp [SymbolData.mapInterface, SymbolData.kind, SymbolData.members?,
      SymbolData.resolution?, hmembers, hresolution])

/-- A type may become resolved, but never the other way round. -/
theorem setResolution {resolution : Resolution} (hx : x ∈ types)
    (h : s.data.resolution? ≠ some .resolved) :
    AmendsSymbol types x s { s with data := s.data.setResolution resolution } where
  core := core_data (by cases s.data <;> rfl) (by cases s.data <;> rfl)
  scope := rfl
  resolution hresolved := absurd hresolved h
  access := rfl
  resolution_eq := .inl hx

end AmendsSymbol

/-- A symbol that may be taken into the arena. -/
structure Admissible (g : Graph) (s : Symbol) : Prop where
  detached : s.scope = none
  managed : s.managed = false
  members : ∀ m, s.members? = some m → g.MemberScope m
  typed : ∀ m, s.members? = some m → g.Place m ∨ s.data.resolution? = some .resolved

/-- Symbols that are no types. -/
theorem Admissible.of_members?_eq_none {g : Graph} (hs : s.scope = none)
    (hmanaged : s.managed = false) (hnone : s.members? = none) : g.Admissible s := by
  refine ⟨hs, hmanaged, fun m hm => ?_, fun m hm => ?_⟩ <;> rw [hnone] at hm <;> cases hm

/-! ### Steps -/

/-- The edits of an analysis. Only `types` are resolved and become superclasses. -/
inductive Step (types : Set SymbolId) : Graph → Graph → Prop where
  | newScope {g : Graph} {kind : ScopeKind} {parent : ScopeId} :
    parent.index < g.scopes.size → (g.scope parent).outer = none →
    (kind.isRoot = true → (g.scope parent).kind.isRoot = true) →
    Step types g (g.newScope kind (some parent)).2
  | alloc {g : Graph} {s : Symbol} : g.Admissible s → Step types g (g.alloc s).2
  | allocType {g : Graph} {parent : ScopeId} {s : Symbol} : s.scope = none → s.managed = false →
    g.Place parent → Step types g (g.allocType parent s).2
  | amendScope {g : Graph} {p : ScopeId} {f : Scope → Scope} :
    AmendsScope g p (g.scope p) (f (g.scope p)) → Step types g (g.modifyScope p f)
  | amendSymbol {g : Graph} {x : SymbolId} {f : Symbol → Symbol} :
    AmendsSymbol types x (g.symbol x) (f (g.symbol x)) → Step types g (g.modifySymbol x f)
  | link {g : Graph} {c super : SymbolId} {members : ScopeId} :
    super ∈ types → (g.symbol c).members? = some members →
    (g.symbol c).data.resolution? ≠ some .resolved →
    (g.symbol super).data.resolution? = some .resolved →
    Step types g (g.modifyMember members fun info => { info with super := g.membersOf? super })
  | declare {g : Graph} {target : ScopeId} {symbol : SymbolId} :
    g.Place target → g.Fresh symbol → g.Latest symbol →
    (g.Unlinked target ∨ g.Delegated target ∨ (g.symbol symbol).origin ≠ none) →
    Step types g (g.declare target symbol).2
  | declareSlot {g : Graph} {scope : ScopeId} {role : Role} {symbol : SymbolId} :
    g.Place scope → g.Fresh symbol → Step types g (g.declareSlot scope role symbol).2
  | putSlot {g : Graph} {scope : ScopeId} {role : Role} {symbol : SymbolId} :
    g.Place scope → g.Fresh symbol → Step types g (g.putSlot scope role symbol)

/-- Sequences of edits. -/
def Steps (types : Set SymbolId) : Graph → Graph → Prop := Relation.ReflTransGen (Step types)

/-! ### Growth of graphs -/

/-- Nothing is taken away, and cores stay the same. -/
structure Grows (g g' : Graph) : Prop extends Extends g g' where
  symbols_le : g.symbols.size ≤ g'.symbols.size
  core : ∀ {x}, x.index < g.symbols.size → core (g'.symbol x) = core (g.symbol x)
  delegate : ∀ {q}, (g.scope q).delegate ≠ none → (g'.scope q).delegate ≠ none
  dropped : ∀ {q x}, x ∈ (g.scope q).dropped → x ∈ (g'.scope q).dropped

namespace Grows

variable {g g' g'' : Graph}

protected theorem refl : g.Grows g :=
  ⟨.refl, Nat.le_refl _, fun _ => rfl, fun h => h, fun h => h⟩

protected theorem trans (h : g.Grows g') (h' : g'.Grows g'') : g.Grows g'' where
  toExtends := h.toExtends.trans h'.toExtends
  symbols_le := Nat.le_trans h.symbols_le h'.symbols_le
  core hx := (h'.core (Nat.lt_of_lt_of_le hx h.symbols_le)).trans (h.core hx)
  delegate hq := h'.delegate (h.delegate hq)
  dropped hx := h'.dropped (h.dropped hx)

variable (h : g.Grows g') {x : SymbolId} (hx : x.index < g.symbols.size)

include h hx

theorem name : (g'.symbol x).name = (g.symbol x).name := congrArg Core.name (h.core hx)

theorem ns : (g'.symbol x).ns = (g.symbol x).ns := congrArg Core.ns (h.core hx)

theorem origin : (g'.symbol x).origin = (g.symbol x).origin := congrArg Core.origin (h.core hx)

theorem managed : (g'.symbol x).managed = (g.symbol x).managed :=
  congrArg Core.managed (h.core hx)

theorem members? : (g'.symbol x).members? = (g.symbol x).members? :=
  congrArg Core.members? (h.core hx)

theorem isFinal : (g'.symbol x).flags.isFinal = (g.symbol x).flags.isFinal :=
  congrArg Core.isFinal (h.core hx)

theorem isIncomplete : (g'.symbol x).flags.isIncomplete = (g.symbol x).flags.isIncomplete :=
  congrArg Core.isIncomplete (h.core hx)

end Grows

variable {g : Graph}

theorem lt_size_of_members? {m : ScopeId} (h : (g.symbol x).members? = some m) :
    x.index < g.symbols.size :=
  lt_size_of (P := (·.members? = some m)) h nofun

/-- Types keep their member scopes. -/
theorem Grows.memberScope {g' : Graph} (h : g.Grows g') {m : ScopeId} (hm : g.MemberScope m) :
    g'.MemberScope m := by
  obtain ⟨x, hx⟩ := hm
  exact ⟨x, by rw [h.members? (lt_size_of_members? hx), hx]⟩

theorem Admissible.grows {g' : Graph} (hg : g.Nested) (hgrows : g.Grows g')
    (h : g.Admissible s) : g'.Admissible s :=
  ⟨h.detached, h.managed, fun m hm => hgrows.memberScope (h.members m hm),
    fun m hm => (h.typed m hm).imp_left (hgrows.place hg)⟩

theorem grows_newScope (kind : ScopeKind) (parent : Option ScopeId) :
    g.Grows (g.newScope kind parent).2 where
  toExtends := .newScope kind parent
  symbols_le := Nat.le_of_eq (by rw [symbols_newScope])
  core _ := by rw [symbol_newScope]
  delegate h := by rwa [scope_newScope_congr g Scope.delegate fun _ _ _ _ _ => rfl]
  dropped h := by rwa [scope_newScope_congr g Scope.dropped fun _ _ _ _ _ => rfl]

theorem grows_newMemberScope (host : SymbolId) (parent : ScopeId) :
    g.Grows (g.newMemberScope host parent).2 where
  toExtends := (Extends.newScope .member (some parent)).trans
    (.of_eq (by simp [newMemberScope])
      fun _ => scope_modifyScope_congr Scope.links _ _ fun _ => rfl)
  symbols_le := Nat.le_of_eq (by simp [newMemberScope])
  core _ := by rw [symbol_newMemberScope]
  delegate h := by
    rwa [scope_newMemberScope_congr g Scope.delegate (fun _ _ _ _ _ => rfl) fun _ _ => rfl]
  dropped h := by
    rwa [scope_newMemberScope_congr g Scope.dropped (fun _ _ _ _ _ => rfl) fun _ _ => rfl]

theorem scope_allocType (parent : ScopeId) (s : Symbol) (q : ScopeId) :
    (g.allocType parent s).2.scope q =
      (g.newMemberScope ⟨g.symbols.size⟩ parent).2.scope q := rfl

theorem symbol_allocType (parent : ScopeId) (s : Symbol) (x : SymbolId) :
    (g.allocType parent s).2.symbol x =
      if x.index = g.symbols.size then { s with data := s.data.setMembers ⟨g.scopes.size⟩ }
      else g.symbol x := by
  simp only [allocType, modifyData, symbol_modifySymbol, symbol_newMemberScope, symbol_alloc,
    alloc_fst]
  by_cases hx : x.index = g.symbols.size
  · have hid : x = ⟨g.symbols.size⟩ := by cases x; simp_all
    have hlt : g.symbols.size <
        ((g.alloc s).2.newMemberScope ⟨g.symbols.size⟩ parent).2.symbols.size := by
      simp [newMemberScope]
    have hmembers : ((g.alloc s).2.newMemberScope ⟨g.symbols.size⟩ parent).1 = ⟨g.scopes.size⟩ := by
      simp [newMemberScope]
    simp [hid, hlt, hmembers]
  · have hid : x ≠ ⟨g.symbols.size⟩ := fun h => hx (by rw [h])
    simp [hx, hid]

theorem size_symbols_allocType (parent : ScopeId) (s : Symbol) :
    (g.allocType parent s).2.symbols.size = g.symbols.size + 1 := by
  simp [allocType, modifyData, newMemberScope]

theorem grows_allocType (parent : ScopeId) (s : Symbol) : g.Grows (g.allocType parent s).2 where
  toExtends := (grows_newMemberScope ⟨g.symbols.size⟩ parent).toExtends.trans
    (.of_eq rfl fun _ => rfl)
  symbols_le := by rw [size_symbols_allocType]; omega
  core hx := by rw [symbol_allocType, if_neg (by omega)]
  delegate h := (grows_newMemberScope ⟨g.symbols.size⟩ parent).delegate h
  dropped h := (grows_newMemberScope ⟨g.symbols.size⟩ parent).dropped h

theorem grows_alloc (s : Symbol) : g.Grows (g.alloc s).2 where
  toExtends := .of_eq rfl fun _ => rfl
  symbols_le := by simp
  core hx := by rw [symbol_alloc, if_neg (by omega)]
  delegate h := h
  dropped h := h

/-- Updates of a scope that spare its links. -/
theorem grows_modifyScope {f : Scope → Scope} (hlinks : (f (g.scope p)).links = (g.scope p).links)
    (hdelegate : (g.scope p).delegate ≠ none → (f (g.scope p)).delegate ≠ none)
    (hdropped : ∀ x ∈ (g.scope p).dropped, x ∈ (f (g.scope p)).dropped) :
    g.Grows (g.modifyScope p f) where
  toExtends := .of_eq (by simp)
    (scope_modifyScope_rel (fun s s' => s'.links = s.links) (fun _ => rfl) hlinks)
  symbols_le := by simp
  core _ := rfl
  delegate := scope_modifyScope_rel (fun s s' => s.delegate ≠ none → s'.delegate ≠ none)
    (fun _ h => h) hdelegate _
  dropped {_ x} := scope_modifyScope_rel (fun s s' => x ∈ s.dropped → x ∈ s'.dropped)
    (fun _ h => h) (hdropped x) _

theorem AmendsScope.grows {f : Scope → Scope}
    (h : AmendsScope g p (g.scope p) (f (g.scope p))) : g.Grows (g.modifyScope p f) := by
  refine grows_modifyScope h.links (fun hne => ?_) fun x hx => by
    rwa [h.dropped]
  rcases h.delegate with heq | ⟨hnone, -⟩
  · rwa [heq]
  · exact absurd hnone hne

/-- Updates of the extras of a member scope. -/
theorem grows_modifyMember (p : ScopeId) (f : MemberInfo → MemberInfo) :
    g.Grows (g.modifyMember p f) :=
  grows_modifyScope rfl id fun _ h => h

theorem grows_modifySymbol {f : Symbol → Symbol}
    (h : Graph.core (f (g.symbol x)) = Graph.core (g.symbol x)) : g.Grows (g.modifySymbol x f) where
  toExtends := .of_eq rfl fun _ => rfl
  symbols_le := by simp
  core _ := symbol_modifySymbol_rel (fun s s' => Graph.core s' = Graph.core s) (fun _ => rfl) h _
  delegate h := h
  dropped h := h

/-! ### Edits that spare tables, owners and slots -/

/-- Tables, owners, dropped symbols and slots are as before. -/
structure Spares (g g' : Graph) : Prop where
  table : ∀ q, (g'.scope q).table = (g.scope q).table
  scope : ∀ x, (g'.symbol x).scope = (g.symbol x).scope
  dropped : ∀ q, (g'.scope q).dropped = (g.scope q).dropped
  slot? : ∀ p role name, g'.slot? p role name = g.slot? p role name

namespace Spares

variable {g' g'' : Graph}

protected theorem refl : g.Spares g :=
  ⟨fun _ => rfl, fun _ => rfl, fun _ => rfl, fun _ _ _ => rfl⟩

protected theorem trans (h : g.Spares g') (h' : g'.Spares g'') : g.Spares g'' where
  table q := (h'.table q).trans (h.table q)
  scope x := (h'.scope x).trans (h.scope x)
  dropped q := (h'.dropped q).trans (h.dropped q)
  slot? p role name := (h'.slot? p role name).trans (h.slot? p role name)

variable (h : g.Spares g')

include h

theorem listed_iff (x : SymbolId) : g'.Listed x ↔ g.Listed x := by simp only [Listed, h.table]

theorem fresh (hgrows : g.Grows g') {x : SymbolId} (hx : g.Fresh x) : g'.Fresh x where
  lt_size := Nat.lt_of_lt_of_le hx.lt_size hgrows.symbols_le
  managed := (hgrows.managed hx.lt_size).trans hx.managed
  detached := by rw [h.scope, hx.detached]
  not_listed := by rw [h.listed_iff]; exact hx.not_listed
  slot_ne p role name := by rw [h.slot?]; exact hx.slot_ne p role name
  not_dropped p := by rw [h.dropped]; exact hx.not_dropped p

end Spares

theorem spares_newScope {kind : ScopeKind} {parent : Option ScopeId} :
    g.Spares (g.newScope kind parent).2 where
  table := scope_newScope_congr g Scope.table (fun _ _ _ _ _ => rfl) _ _
  scope _ := by rw [symbol_newScope]
  dropped := scope_newScope_congr g Scope.dropped (fun _ _ _ _ _ => rfl) _ _
  slot? p role name := by
    rw [slot?, slot?, memberInfo?, memberInfo?,
      scope_newScope_congr g Scope.member fun _ _ _ _ _ => rfl]

theorem spares_alloc (hs : s.scope = none) : g.Spares (g.alloc s).2 where
  table _ := rfl
  scope x := by
    rw [symbol_alloc]
    split
    next hx => rw [hs, symbol_of_size_le (Nat.le_of_eq hx.symm)]; rfl
    next => rfl
  dropped _ := rfl
  slot? _ _ _ := rfl

theorem spares_allocType {parent : ScopeId} (hs : s.scope = none) :
    g.Spares (g.allocType parent s).2 where
  table := scope_newMemberScope_congr g Scope.table (fun _ _ _ _ _ => rfl) (fun _ _ => rfl) _ _
  scope x := by
    rw [symbol_allocType]
    split
    next hx => rw [symbol_of_size_le (Nat.le_of_eq hx.symm)]; exact hs
    next => rfl
  dropped := scope_newMemberScope_congr g Scope.dropped (fun _ _ _ _ _ => rfl) (fun _ _ => rfl) _ _
  slot? p role name := by
    -- the new member scope has no slots filled
    rw [slot?, slot?, memberInfo?, memberInfo?, scope_allocType, member_newMemberScope]
    split
    next hp =>
      rw [scope_of_size_le (Nat.le_of_eq hp.symm)]
      cases role <;> rfl
    next => rfl

theorem AmendsScope.spares {f : Scope → Scope}
    (h : AmendsScope g p (g.scope p) (f (g.scope p))) : g.Spares (g.modifyScope p f) where
  table := scope_modifyScope_rel (fun s s' => s'.table = s.table) (fun _ => rfl) h.table
  scope _ := rfl
  dropped := scope_modifyScope_rel (fun s s' => s'.dropped = s.dropped) (fun _ => rfl) h.dropped
  slot? q role name := scope_modifyScope_rel (fun s s' =>
    (s'.member.bind fun info => info.slot? role name) =
      s.member.bind fun info => info.slot? role name) (fun _ => rfl) (h.slot role name) q

/-- A superclass link is no slot. -/
theorem spares_linkSuper (p : ScopeId) (super : Option ScopeId) :
    g.Spares (g.modifyMember p fun info => { info with super }) where
  table _ := scope_modifyScope_congr Scope.table _ _ fun _ => rfl
  scope _ := rfl
  dropped _ := scope_modifyScope_congr Scope.dropped _ _ fun _ => rfl
  slot? q role name := by
    refine scope_modifyScope_congr
      (fun s : Scope => s.member.bind fun info => info.slot? role name) _ _ fun s => ?_
    cases hm : s.member with
    | none => simp [Scope.mapMember, hm]
    | some info => cases role <;> simp [Scope.mapMember, hm, MemberInfo.slot?]

theorem SparesSymbol.spares {f : Symbol → Symbol}
    (h : SparesSymbol (g.symbol x) (f (g.symbol x))) : g.Spares (g.modifySymbol x f) where
  table _ := rfl
  scope := symbol_modifySymbol_rel (fun s s' => s'.scope = s.scope) (fun _ => rfl) h.scope
  dropped _ := rfl
  slot? _ _ _ := rfl

end Graph

end Scoping
