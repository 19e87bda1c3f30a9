import Scoping.Session
import Scoping.Proofs.Graph.Agreement
import Scoping.Proofs.Graph.Final
import Scoping.Proofs.Graph.Shelter

/-!
# The graph in which a session starts

The root object and the intrinsic functions are declared in the global scope before there is any
unit. While that is done, tables and owners agree everywhere, every owned symbol belongs to the
session and no declaration is a forward declaration, so that nothing is ever dropped. Nothing is
private, and no superclass is linked. Hence a session starts with a coherent and discreet graph
(`Session.founding_start`, `Graph.Founding.coherent`, `Graph.Founding.discreet`).
-/

namespace Scoping

namespace Graph

/-- A symbol that is no forward declaration, not private and, if it is a type, already resolved. -/
structure Settled (s : Symbol) : Prop where
  complete : s.flags.isIncomplete = false
  visible : s.flags.isPrivate = false
  typed : ∀ {m}, s.members? = some m → s.data.resolution? = some .resolved

/-- A graph that holds nothing but what a session supplies. -/
structure Founding (g : Graph) : Prop where
  nested : g.Nested
  agreement : g.Agreement
  size_pos : global.index < g.scopes.size
  inner_global : (g.scope global).inner = none
  owner : ∀ {x p}, (g.symbol x).scope = some p → p = global ∧ (g.symbol x).managed = true
  settled : ∀ x, Settled (g.symbol x)
  dropped : ∀ p, (g.scope p).dropped = []
  slot? : ∀ p role name, g.slot? p role name = none
  linked : g.Linked
  unlinked : ∀ q, g.superScope? q = none

theorem linked_initial : initial.Linked := by
  have hscope : ∀ q, (initial.scope q).parent = none ∧ (initial.scope q).delegate = none ∧
      (initial.scope q).member = none := by
    intro q
    obtain ⟨kind, active, hq⟩ := scope_initial q
    rw [hq]
    exact ⟨rfl, rfl, rfl⟩
  have hkind : ∀ q, (initial.scope q).kind.isPartitioned = false := by
    intro q
    by_cases hq : q.index < 1
    · obtain rfl : q = global := by
        cases q
        simp_all [global]
      rfl
    · rw [scope_of_size_le (Nat.le_of_not_lt hq)]
      rfl
  refine ⟨fun {q} h => ?_, fun {q p} h => ?_, fun {q d} h => ?_, fun {q p} h => ?_, ?_⟩
  · rw [hkind] at h
    cases h
  · rw [(hscope q).1] at h
    cases h
  · rw [(hscope q).2.1] at h
    cases h
  · rw [superScope?, memberInfo?, (hscope q).2.2] at h
    cases h
  · rintro m ⟨x, hx⟩
    exact absurd (lt_size_of_members? hx) (Nat.not_lt_zero _)

theorem founding_initial : initial.Founding where
  nested := nested_initial
  agreement := agreement_initial
  size_pos := Nat.zero_lt_one
  inner_global := rfl
  owner h := absurd (symbol_lt_size h) (by simp [initial])
  settled x := by
    rw [symbol_of_size_le (Nat.zero_le _)]
    exact ⟨rfl, rfl, by rintro _ ⟨⟩⟩
  dropped p := by
    obtain ⟨kind, active, hp⟩ := scope_initial p
    rw [hp]
  slot? p role name := by
    obtain ⟨kind, active, hp⟩ := scope_initial p
    rw [Graph.slot?, memberInfo?, hp]
    rfl
  linked := linked_initial
  unlinked q := by
    obtain ⟨kind, active, hq⟩ := scope_initial q
    rw [superScope?, memberInfo?, hq]
    rfl

namespace Founding

variable {g g' : Graph} (hg : g.Founding)

include hg

theorem coherent : g.Coherent where
  nested := hg.nested
  functional := hg.agreement.functional
  entry h := by
    obtain ⟨hscope, hkey⟩ := hg.agreement.entry h
    exact ⟨symbol_lt_size hscope, hkey⟩
  home _ h := (hg.agreement.entry h).1
  owned _ h := hg.agreement.owned h
  managed h := .inr (hg.owner h).2
  dropped h := by
    rw [hg.dropped] at h
    cases h
  stale := by
    rintro x ⟨q, ns, name, hx⟩ hscope
    rw [(hg.agreement.entry hx).1] at hscope
    cases hscope
  slot h := by
    rw [hg.slot?] at h
    cases h
  slot_unique h := by
    rw [hg.slot?] at h
    cases h
  typed h := .inr ((hg.settled _).typed h)

/-- Nothing is private, and all entries are in the global scope. -/
theorem discreet : g.Discreet where
  linked := hg.linked
  sheltered.entry {q ns name x} _ hprivate _ := by
    rw [(hg.settled x).visible] at hprivate
    cases hprivate
  sheltered.partition {q ns name x} hx houter := by
    have hq := (hg.owner (hg.agreement.entry hx).1).1
    rw [hq] at houter
    exact absurd hg.nested.outer_global houter

/-- All entries are in the global scope, and nothing has been dropped. -/
theorem succession : g.Succession where
  sole _ _ hx hy := by
    rw [(hg.owner (hg.agreement.entry hx).1).1, (hg.owner (hg.agreement.entry hy).1).1]
  completed h := by
    rw [hg.dropped] at h
    cases h

/-- No scope of the session's own symbols encloses another. -/
theorem guarded : g.Guarded := by
  intro x f p q hr hbeneath
  rw [(hg.owner hr.home.scope).1, (hg.owner hr.home_final.scope).1] at hbeneath
  exact absurd (hg.nested.beneath_lt hbeneath) (Nat.lt_irrefl _)

theorem of_spares (hgrows : g.Grows g') (hnested : g'.Nested) (hspares : g.Spares g')
    (hsettled : ∀ x, Settled (g'.symbol x)) (hlinked : g'.Linked)
    (hunlinked : ∀ q, g'.superScope? q = g.superScope? q) : g'.Founding where
  nested := hnested
  agreement := hg.agreement.congr hspares.table hspares.scope fun x p hx =>
    ⟨hgrows.ns (symbol_lt_size hx), hgrows.name (symbol_lt_size hx)⟩
  size_pos := Nat.lt_of_lt_of_le hg.size_pos hgrows.size_le
  inner_global := by rw [hgrows.inner hg.size_pos, hg.inner_global]
  owner h := by
    rw [hspares.scope] at h
    rw [hgrows.managed (symbol_lt_size h)]
    exact hg.owner h
  settled := hsettled
  dropped p := by rw [hspares.dropped, hg.dropped]
  slot? p role name := by rw [hspares.slot?, hg.slot?]
  linked := hlinked
  unlinked q := by rw [hunlinked, hg.unlinked]

theorem alloc {s : Symbol} (hs : s.scope = none) (hmembers : s.members? = none)
    (hsettled : Settled s) : (g.alloc s).2.Founding := by
  refine hg.of_spares (grows_alloc s) (hg.nested.of_scope_eq fun _ => rfl) (spares_alloc hs)
    (fun x => ?_) (hg.linked.alloc hg.nested fun m hm => ?_) fun _ => rfl
  · rw [symbol_alloc]
    split
    · exact hsettled
    · exact hg.settled x
  · rw [hmembers] at hm
    cases hm

theorem allocType {parent : ScopeId} {s : Symbol} (hparent : parent.index < g.scopes.size)
    (houter : (g.scope parent).outer = none) (hs : s.scope = none)
    (hsettled : Settled { s with data := s.data.setMembers ⟨g.scopes.size⟩ }) :
    (g.allocType parent s).2.Founding := by
  refine hg.of_spares (grows_allocType parent s) ?_ (spares_allocType hs) (fun x => ?_)
    (hg.linked.allocType hg.nested s hparent houter) (superScope?_allocType parent s)
  · exact (hg.nested.newMemberScope ⟨g.symbols.size⟩ hparent).of_scope_eq fun q =>
      scope_allocType parent s q
  · rw [symbol_allocType]
    split
    · exact hsettled
    · exact hg.settled x

/-- A scope may be given a name. -/
theorem nameScope (p : ScopeId) (name : Option String) :
    (g.modifyScope p fun s => { s with name }).Founding := by
  have hstep : Step ∅ g (g.modifyScope p fun s => { s with name }) :=
    .amendScope (.marks _ _ _ _)
  refine hg.of_spares hstep.grows
    (hg.nested.modifyScope rfl id fun _ _ h => .inl h)
    (AmendsScope.marks _ _ _ _ : AmendsScope g p _ _).spares hg.settled
    (hstep.linked hg.coherent hg.linked) fun q => ?_
  have hmember : ((g.modifyScope p fun s => { s with name }).scope q).member =
      (g.scope q).member := scope_modifyScope_congr Scope.member _ _ fun _ => rfl
  rw [superScope?, superScope?, memberInfo?, memberInfo?, hmember]

/-! ### Declarations of the session -/

/-- Without forward declarations there is nothing to complete. -/
theorem verdict_ne_replace {target : ScopeId} {symbol : SymbolId} (old : SymbolId) :
    g.verdict target symbol ≠ .replace old := by
  intro hv
  have hincomplete := (met?_of_verdict_eq_replace hg.nested.partitioned hv).2.2.1
  rw [(hg.settled old).complete] at hincomplete
  cases hincomplete

/-- The symbols of the session stay in the global scope. -/
theorem landing_global (symbol : SymbolId) : g.landing global symbol = global := by
  have howner : g.owner global = global :=
    owner_of_outer_eq_none (hg.nested.outer_of_kind (by rw [hg.nested.kind_global]; decide))
  rw [landing, howner, placeFor, hg.inner_global]

section Declare

variable {symbol : SymbolId} (ns : Namespace) (hsymbol : symbol.index < g.symbols.size)
  (hdetached : (g.symbol symbol).scope = none)

include hsymbol hdetached

/-- The symbol is marked as one of the session before it is declared. -/
theorem manage : (g.manage symbol ns).Founding ∧
    ((g.manage symbol ns).symbol symbol).managed = true := by
  have hlinked : (g.manage symbol ns).Linked :=
    hg.linked.congr hg.nested (.of_eq rfl fun _ => rfl) rfl (fun _ _ => .inl) (fun _ _ => .inl)
      fun x => symbol_modifySymbol_congr Symbol.members? _ _ fun _ => rfl
  refine ⟨⟨hg.nested.of_scope_eq fun _ => rfl, hg.agreement.manage hdetached ns, hg.size_pos,
    hg.inner_global, fun {x p} h => ?_, fun x => ?_, hg.dropped, hg.slot?, hlinked,
    hg.unlinked⟩, ?_⟩
  · rw [scope_manage_symbol] at h
    have hne : x ≠ symbol := by
      rintro rfl
      rw [h] at hdetached
      cases hdetached
    rw [Graph.manage, symbol_modifySymbol_of_ne hne]
    exact hg.owner h
  · by_cases hx : x = symbol
    · subst hx
      rw [Graph.manage, symbol_modifySymbol_self hsymbol]
      refine ⟨?_, ?_, (hg.settled x).typed⟩
      · dsimp only
        split
        all_goals exact (hg.settled x).complete
      · dsimp only
        split
        all_goals exact (hg.settled x).visible
    · rw [Graph.manage, symbol_modifySymbol_of_ne hx]
      exact hg.settled x
  · rw [Graph.manage, symbol_modifySymbol_self hsymbol]

/-- Declaring a public name of the engine in the global scope adds to what the session supplies. -/
theorem declare (hmanaged : (g.symbol symbol).managed = true)
    (hpublic : (g.symbol symbol).flags.isPublic = true) :
    (g.declare global symbol).2.Founding := by
  have hdata : ∀ x, ((g.declare global symbol).2.symbol x).data = (g.symbol x).data :=
    symbol_declare_congr Symbol.data fun _ _ _ _ => rfl
  have hsettled : ∀ x, Settled ((g.declare global symbol).2.symbol x) := by
    refine fun x => ⟨?_, ?_, fun {m} h => ?_⟩
    · rw [← (hg.settled x).complete]
      exact congrArg Core.isIncomplete (core_declare x)
    · by_cases hx : x = symbol
      · subst hx
        rw [flags_declare hsymbol, isPrivate_effectiveFlags_of_isPublic _ _ hpublic,
          (hg.settled x).visible]
      · rw [symbol_declare_stamp Symbol.flags fun _ _ _ => rfl, symbol_stamp_of_ne hx,
          (hg.settled x).visible]
    · rw [Symbol.members?, hdata] at h
      rw [hdata]
      exact (hg.settled x).typed h
  have hlinked : (g.declare global symbol).2.Linked := by
    refine hg.linked.congr hg.nested grows_declare.toExtends size_scopes_declare
      (fun q d h => .inl ?_) (fun q p h => .inl (superScope?_declare q ▸ h)) fun x => ?_
    · rwa [scope_declare_congr Scope.delegate fun _ _ _ _ => rfl] at h
    · rw [Symbol.members?, Symbol.members?, hdata]
  cases hv : g.verdict global symbol with
  | reject | keep =>
    exact hg.of_spares grows_declare hg.nested.declare
      (spares_declare_of_not_isLive (by rw [hv]; rfl)) hsettled hlinked superScope?_declare
  | replace old => exact absurd hv (hg.verdict_ne_replace old)
  | add shadows =>
    refine ⟨hg.nested.declare,
      hg.agreement.declare hg.nested.partitioned hg.size_pos hsymbol hdetached,
      by rw [size_scopes_declare]; exact hg.size_pos,
      by rw [grows_declare.inner hg.size_pos, hg.inner_global], fun {x p} h => ?_, hsettled,
      fun p => ?_, fun p role name => ?_, hlinked, fun q => ?_⟩
    · rw [show ((g.declare global symbol).2.symbol x).managed = (g.symbol x).managed from
        congrArg Core.managed (core_declare x)]
      rw [scope_declare_add hv hsymbol] at h
      split at h
      next hx =>
        cases h
        exact ⟨hg.landing_global symbol, hx ▸ hmanaged⟩
      next => exact hg.owner h
    · rw [dropped_declare_add hv, hg.dropped]
    · rw [slot?_declare, hg.slot?]
    · rw [superScope?_declare, hg.unlinked]

theorem declareManaged (hpublic : (g.symbol symbol).flags.isPublic = true) :
    (g.declareManaged global symbol ns).2.Founding := by
  obtain ⟨hfounding, hmanaged⟩ := hg.manage ns hsymbol hdetached
  rw [declareManaged_eq]
  refine hfounding.declare ?_ ?_ hmanaged ?_
  · simpa [Graph.manage] using hsymbol
  · rw [scope_manage_symbol, hdetached]
  · rw [Graph.manage, symbol_modifySymbol_self hsymbol]
    simp [Flags.hasVisibility, hpublic]

end Declare

end Founding

end Graph

namespace Session

open Scoping.Graph

/-- A session starts with the initial graph, to which the root object and the intrinsic functions
are added. -/
theorem start_induction {P : Graph → Prop} (config : Config)
    (hinitial : config.rootObject = none → P initial)
    (hroot : ∀ {name}, config.rootObject = some name → P (addRootObject initial name).2)
    (hintrinsic : ∀ {g} name, P g → P (addIntrinsic g name)) : P (start config).graph := by
  have hfold : ∀ (names : List String) {g : Graph}, P g → P (names.foldl addIntrinsic g) := by
    intro names
    induction names with
    | nil => exact fun hg => hg
    | cons name rest ih => exact fun hg => ih (hintrinsic name hg)
  cases hname : config.rootObject with
  | none =>
    simp only [start, hname]
    exact hfold _ (hinitial hname)
  | some name =>
    simp only [start, hname]
    exact hfold _ (hroot hname)

variable {g : Graph}

theorem founding_addIntrinsic (hg : g.Founding) (name : String) :
    (addIntrinsic g name).Founding := by
  refine (hg.alloc rfl rfl ⟨rfl, rfl, by rintro _ ⟨⟩⟩).declareManaged _ ?_ ?_ ?_
  · simp
  all_goals
    rw [symbol_alloc, if_pos rfl]
    rfl

/-- The root object before it is declared. -/
def rootSymbol (name : String) : Symbol :=
  Symbol.mkDetached name {} { isPublic := true }
    (.cls { members := Graph.global, resolution := .resolved })

theorem addRootObject_snd (g : Graph) (name : String) :
    (addRootObject g name).2 =
      (((g.allocType global (rootSymbol name)).2.modifyScope ⟨g.scopes.size⟩
        fun s => { s with name := some name }).declareManaged global ⟨g.symbols.size⟩ .type).2 :=
  rfl

theorem founding_addRootObject (hg : g.Founding) (name : String) :
    (addRootObject g name).2.Founding := by
  have htype : (g.allocType global (rootSymbol name)).2.Founding :=
    hg.allocType hg.size_pos hg.nested.outer_global rfl ⟨rfl, rfl, fun _ => rfl⟩
  rw [addRootObject_snd]
  refine (htype.nameScope _ _).declareManaged _ ?_ ?_ ?_
  · simp [size_symbols_allocType]
  all_goals
    rw [symbol_modifyScope, symbol_allocType, if_pos rfl]
    rfl

theorem data_declareManaged {p : ScopeId} {symbol : SymbolId} {ns : Namespace}
    (x : SymbolId) : ((g.declareManaged p symbol ns).2.symbol x).data = (g.symbol x).data := by
  rw [declareManaged_eq, symbol_declare_congr Symbol.data fun _ _ _ _ => rfl, Graph.manage]
  exact symbol_modifySymbol_congr Symbol.data _ _ fun _ => rfl

/-- What is known about a symbol stays so. -/
theorem data_addIntrinsic (name : String) {x : SymbolId} (hx : x.index < g.symbols.size) :
    ((addIntrinsic g name).symbol x).data = (g.symbol x).data := by
  rw [addIntrinsic, data_declareManaged, symbol_alloc, if_neg (Nat.ne_of_lt hx)]

/-- The root object is a class, and there is nothing to resolve about it. -/
theorem data_rootObject {config : Config} {root : SymbolId}
    (h : (start config).rootObject = some root) :
    ((start config).graph.symbol root).data.resolution? = some .resolved ∧
      ((start config).graph.symbol root).kind = .cls := by
  refine start_induction config (P := fun g => (g.symbol root).data.resolution? = some .resolved ∧
    (g.symbol root).kind = .cls) (fun hroot => ?_) (fun hroot => ?_) fun name hg => ?_
  · simp only [start, hroot] at h
    cases h
  · have hid : root = ⟨initial.symbols.size⟩ := by
      simp only [start, hroot, addRootObject] at h
      split at h
      · exact (Option.some.inj h).symm
      · cases h
    rw [Symbol.kind, addRootObject_snd, data_declareManaged, symbol_modifyScope, symbol_allocType,
      hid, if_pos rfl]
    exact ⟨rfl, rfl⟩
  · rwa [Symbol.kind, data_addIntrinsic name (lt_size_of_resolution? hg.1)]

theorem founding_start (config : Config) : (start config).graph.Founding :=
  start_induction config (fun _ => founding_initial)
    (fun _ => founding_addRootObject founding_initial _)
    fun name hg => founding_addIntrinsic hg name

end Session

end Scoping
