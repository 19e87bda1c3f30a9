import Scoping.Proofs.Graph.Entry

/-!
# What steps do

Steps keep a graph coherent, and nothing that is there is taken away. `Graph.Step.cases` says what a
step does to the tables: nothing, unless it is a declaration that enters its symbol. The second half
follows symbols that were taken into the arena until they are declared.
-/

namespace Scoping

namespace Graph

variable {g : Graph} {scope target : ScopeId} {role : Role} {symbol : SymbolId} {x : SymbolId}

/-! ### Steps keep coherence -/

variable {types : Set SymbolId} {g' : Graph}

theorem grows_declareSlot : g.Grows (g.declareSlot scope role symbol).2 := by
  obtain ⟨f, hf, hcases⟩ := declareSlot_cases g scope role symbol
  have hflags := grows_modifySymbol (hf (g.symbol symbol)).core
  rcases hcases with h | h | ⟨name, old, -, -, h⟩
  · rwa [h]
  · rw [h]
    exact hflags.trans grows_putSlot
  · rw [h]
    exact (hflags.trans grows_putSlot).trans grows_drop

theorem Step.grows (h : Step types g g') : g.Grows g' := by
  cases h with
  | newScope => exact grows_newScope _ _
  | alloc => exact grows_alloc _
  | allocType => exact grows_allocType _ _
  | amendScope h => exact h.grows
  | amendSymbol h => exact grows_modifySymbol h.core
  | link => exact grows_modifyMember _ _
  | declare => exact grows_declare
  | declareSlot => exact grows_declareSlot
  | putSlot => exact grows_putSlot

theorem Coherent.step (hg : g.Coherent) (h : Step types g g') : g'.Coherent := by
  cases h with
  | newScope hparent _ hroot => exact hg.newScope hparent hroot
  | alloc hs => exact hg.alloc hs
  | allocType hs _ hparent => exact hg.allocType hs hparent
  | amendScope h => exact hg.amendScope h
  | amendSymbol h => exact hg.spareSymbol h.toSparesSymbol
  | link => exact hg.linkSuper _ _
  | declare htarget hsymbol => exact hg.declare htarget hsymbol
  | declareSlot hscope hsymbol => exact hg.declareSlot hscope hsymbol
  | putSlot hscope hsymbol => exact hg.putSlot hscope hsymbol

theorem Steps.grows (h : Steps types g g') : g.Grows g' := by
  induction h with
  | refl => exact .refl
  | tail _ hstep ih => exact ih.trans hstep.grows

theorem Coherent.steps (hg : g.Coherent) (h : Steps types g g') : g'.Coherent := by
  induction h with
  | refl => exact hg
  | tail _ hstep ih => exact ih.step hstep

/-! ### What a step does -/

/-- A step that changes no table and no owner of a listed symbol. -/
structure Calm (g g' : Graph) : Prop where
  get? : ∀ q ns name, (g'.scope q).table.get? ns name = (g.scope q).table.get? ns name
  scope : ∀ {x}, g.Listed x → (g'.symbol x).scope = (g.symbol x).scope
  /-- Only constructors and destructors may be dropped. -/
  dropped : ∀ {q x}, x ∈ (g'.scope q).dropped → x ∈ (g.scope q).dropped ∨
    ¬ g.Listed x ∧ ∃ role y, isReplaceable role = true ∧ g'.slot? q role "" = some y
  slot : ∀ {q role name}, (g.slot? q role name).isSome = true →
    (g'.slot? q role name).isSome = true

theorem Calm.of_eq (htable : ∀ q, (g'.scope q).table = (g.scope q).table)
    (hscope : ∀ x, g.Listed x → (g'.symbol x).scope = (g.symbol x).scope)
    (hdropped : ∀ q, (g'.scope q).dropped = (g.scope q).dropped)
    (hslot : ∀ q role name, (g.slot? q role name).isSome = true →
      (g'.slot? q role name).isSome = true) : g.Calm g' where
  get? q ns name := by rw [htable]
  scope := hscope _
  dropped h := .inl (by rwa [hdropped] at h)
  slot := hslot _ _ _

/-- An accessor is put into a slot, and tables stay as they are. -/
theorem calm_declareSlot (hg : g.Coherent) (hsymbol : g.Fresh symbol) :
    g.Calm (g.declareSlot scope role symbol).2 := by
  obtain ⟨f, hf, hcases⟩ := declareSlot_cases g scope role symbol
  have hg' : (g.modifySymbol symbol f).Coherent := hg.spareSymbol (hf _)
  have hsymbol' := hsymbol.modifySymbol (hf (g.symbol symbol))
  have hflags : ∀ x, ((g.modifySymbol symbol f).symbol x).scope = (g.symbol x).scope :=
    symbol_modifySymbol_rel (fun s s' => s'.scope = s.scope) (fun _ => rfl) (hf _).scope
  have hput : g.Calm ((g.modifySymbol symbol f).putSlot scope role symbol) := by
    refine .of_eq table_putSlot (fun x hx => ?_) dropped_putSlot fun q role' name h => ?_
    · rw [scope_putSlot hsymbol'.lt_size, if_neg (hsymbol.ne_of_listed hx), hflags]
    · exact isSome_slot?_putSlot h
  rcases hcases with h | h | ⟨name, old, hrole, hold, h⟩
  · rw [h]
    exact .of_eq (fun _ => rfl) (fun x _ => hflags x) (fun _ => rfl) fun _ _ _ h => h
  · rwa [h]
  · rw [h]
    have hmember : ∀ (g' : Graph) q, ((g'.drop scope old).scope q).member = (g'.scope q).member :=
      fun g' q => scope_modifyScope_congr Scope.member _ _ fun _ => rfl
    refine ⟨fun q ns name => ?_, fun {x} hx => ?_, fun {q x} hx => ?_, fun {q role' name'} hx => ?_⟩
    · rw [← hput.get?, Graph.drop, scope_modifyScope_congr Scope.table]
      · rfl
      · exact fun _ => rfl
    · have hne : x ≠ old := by
        rintro rfl
        exact (hg'.slot hold).2 hx
      rw [← hput.scope hx, Graph.drop, symbol_modifyScope, symbol_modifySymbol_of_ne hne]
    · have hcases : x ∈ (g.scope q).dropped ∨ q = scope ∧ x = old := by
        have hkeep : ∀ q, (((g.modifySymbol symbol f).putSlot scope role symbol).scope q).dropped =
            (g.scope q).dropped := dropped_putSlot
        rw [Graph.drop, scope_modifyScope] at hx
        split at hx
        next hq =>
          rw [List.mem_append, List.mem_singleton, scope_modifySymbol, hkeep] at hx
          exact hx.imp_right fun h => ⟨hq.1, h⟩
        next =>
          rw [scope_modifySymbol, hkeep] at hx
          exact .inl hx
      rcases hcases with hx | ⟨rfl, rfl⟩
      · exact .inl hx
      · refine .inr ⟨(hg'.slot hold).2, role, symbol, hrole, ?_⟩
        rw [slot?, memberInfo?, hmember]
        exact slot?_putSlot_of_isReplaceable hrole hold
    · rw [slot?, memberInfo?, hmember]
      exact hput.slot hx

theorem Spares.calm (h : g.Spares g') : g.Calm g' :=
  .of_eq h.table (fun x _ => h.scope x) h.dropped fun q role name hq => by rwa [h.slot?]

/-- A step is calm, or it is a declaration that enters its symbol into a table of a unit. -/
theorem Step.cases (hg : g.Coherent) (h : Step types g g') :
    g.Calm g' ∨ ∃ target symbol p, g.Place target ∧ g.Fresh symbol ∧ g.Latest symbol ∧
      (g.Unlinked target ∨ g.Delegated target ∨ (g.symbol symbol).origin ≠ none) ∧
      g' = (g.declare target symbol).2 ∧ g.Enters g' p symbol ∧ g.Entering target symbol p := by
  cases h with
  | newScope => exact .inl spares_newScope.calm
  | alloc hs => exact .inl (spares_alloc hs.detached).calm
  | allocType hs => exact .inl (spares_allocType hs).calm
  | amendScope h | amendSymbol h => exact .inl h.spares.calm
  | link => exact .inl (spares_linkSuper _ _).calm
  | declareSlot _ hsymbol => exact .inl (calm_declareSlot hg hsymbol)
  | putSlot _ hsymbol =>
    refine .inl (.of_eq table_putSlot (fun x hx => ?_) dropped_putSlot fun q role' name h => ?_)
    · rw [scope_putSlot hsymbol.lt_size, if_neg (hsymbol.ne_of_listed hx)]
    · exact isSome_slot?_putSlot h
  | @declare target symbol htarget hsymbol hlatest hfree =>
    rcases hg.declare_cases htarget hsymbol with h | ⟨p, hp, hdecision⟩
    · exact .inl h.calm
    · exact .inr ⟨target, symbol, p, htarget, hsymbol, hlatest, hfree, rfl, hp, hdecision⟩

/-- An entry was there before the step, or the step has declared its symbol. -/
theorem Step.entry_cases (hg : g.Coherent) (h : Step types g g') {q : ScopeId} {ns : Namespace}
    {name : String} (hx : (g'.scope q).table.get? ns name = some x) :
    (g.scope q).table.get? ns name = some x ∨ g.Inside q ∧ name = (g.symbol x).name ∧
      ∃ target, g.Place target ∧ g.Fresh x ∧
        (g.Unlinked target ∨ g.Delegated target ∨ (g.symbol x).origin ≠ none) ∧
        g' = (g.declare target x).2 ∧ g.Entering target x q := by
  rcases h.cases hg with hcalm | ⟨target, symbol, p, htarget, hsymbol, -, hfree, hdeclare,
    henters, hentering⟩
  · exact .inl (by rwa [hcalm.get?] at hx)
  · rw [henters.get?] at hx
    split at hx
    next hkey =>
      obtain ⟨rfl, -, hname⟩ := hkey
      cases hx
      exact .inr ⟨henters.inside, hname, target, htarget, hsymbol, hfree, hdeclare, hentering⟩
    next => exact .inl hx

/-! ### How far types are resolved -/

theorem lt_size_of_resolution? {r : Resolution} (h : (g.symbol x).data.resolution? = some r) :
    x.index < g.symbols.size :=
  lt_size_of (P := (·.data.resolution? = some r)) h nofun

/-- Only `types` go on in their resolution, and a resolved type stays so. -/
theorem Step.resolution?_cases (h : Step types g g') (hx : x.index < g.symbols.size) :
    (g'.symbol x).data.resolution? = (g.symbol x).data.resolution? ∨
      x ∈ types ∧ ((g.symbol x).data.resolution? = some .resolved →
        (g'.symbol x).data.resolution? = some .resolved) := by
  cases h with
  | newScope => exact .inl (by rw [symbol_newScope])
  | alloc => exact .inl (by rw [symbol_alloc, if_neg (Nat.ne_of_lt hx)])
  | allocType => exact .inl (by rw [symbol_allocType, if_neg (Nat.ne_of_lt hx)])
  | amendScope | link => exact .inl rfl
  | @amendSymbol y f h =>
    by_cases hy : x = y
    · subst hy
      rw [symbol_modifySymbol_self hx]
      exact h.resolution_eq.symm.imp_right fun htypes => ⟨htypes, h.resolution⟩
    · rw [symbol_modifySymbol_of_ne hy]
      exact .inl rfl
  | declare =>
    refine .inl ?_
    rw [symbol_declare_congr Symbol.data fun _ _ _ _ => rfl]
  | declareSlot =>
    refine .inl ?_
    rw [data_declareSlot]
  | putSlot => exact .inl (symbol_modifySymbol_congr (fun s => s.data.resolution?) _ _ fun _ => rfl)

theorem Steps.resolution?_eq (h : Steps types g g') (hlt : x.index < g.symbols.size)
    (hx : x ∉ types) : (g'.symbol x).data.resolution? = (g.symbol x).data.resolution? := by
  induction h with
  | refl => rfl
  | tail hfirst hstep ih =>
    have hlt' := Nat.lt_of_lt_of_le hlt (Steps.grows hfirst).symbols_le
    rw [(hstep.resolution?_cases hlt').resolve_right fun h => hx h.1, ih]

theorem Steps.resolved (h : Steps types g g')
    (hx : (g.symbol x).data.resolution? = some .resolved) :
    (g'.symbol x).data.resolution? = some .resolved := by
  induction h with
  | refl => exact hx
  | tail _ hstep ih =>
    rcases hstep.resolution?_cases (lt_size_of_resolution? ih) with heq | ⟨-, hkeep⟩
    · rw [heq, ih]
    · exact hkeep ih

/-! ### Symbols that wait for their declaration -/

section

variable {x : SymbolId} (hg : g.Coherent)

include hg

theorem Coherent.latest_of_le (hx : g.symbols.size ≤ x.index) : g.Latest x := by
  rintro y ⟨q, ns, name, hy⟩
  exact .inl (Nat.lt_of_lt_of_le (hg.entry hy).1 hx)

/-- A symbol that has just been taken into the arena is fresh. -/
theorem Spares.fresh_of_le (h : g.Spares g') (hle : g.symbols.size ≤ x.index)
    (hlt : x.index < g'.symbols.size) (hmanaged : (g'.symbol x).managed = false) : g'.Fresh x where
  lt_size := hlt
  managed := hmanaged
  detached := by rw [h.scope, symbol_of_size_le hle]; rfl
  not_listed := by
    rw [h.listed_iff]
    rintro ⟨q, ns, name, hx⟩
    exact Nat.not_lt_of_le hle (hg.entry hx).1
  slot_ne p role name hx := by
    rw [h.slot?] at hx
    exact Nat.not_lt_of_le hle (symbol_lt_size (hg.slot hx).1)
  not_dropped p hx := by
    rw [h.dropped] at hx
    exact Nat.not_lt_of_le hle (hg.dropped hx).1

theorem Coherent.fresh_alloc {s : Symbol} (hs : g.Admissible s) :
    (g.alloc s).2.Fresh ⟨g.symbols.size⟩ := by
  refine (spares_alloc hs.detached).fresh_of_le hg (Nat.le_refl _) ?_ ?_
  · rw [size_symbols_alloc]
    exact Nat.lt_succ_self _
  · rw [symbol_alloc, if_pos rfl, hs.managed]

theorem Spares.latest (h : g.Spares g') (hgrows : g.Grows g') (hx : g.Latest x) :
    g'.Latest x := by
  intro y hy
  rw [h.listed_iff] at hy
  have hlt := hy
  obtain ⟨q, ns, name, hget⟩ := hlt
  rw [hgrows.origin (hg.entry hget).1]
  exact hx y hy

theorem Coherent.fresh_declare (htarget : g.Place target) (hsymbol : g.Fresh symbol)
    (hx : g.Fresh x) (hne : x ≠ symbol) : (g.declare target symbol).2.Fresh x := by
  rcases hg.declare_cases htarget hsymbol with h | ⟨p, h, -⟩
  · exact h.fresh grows_declare hx
  · have hrival : g.rival? p symbol ≠ some x := fun hr => hx.not_listed ⟨_, _, _, hr⟩
    refine ⟨Nat.lt_of_lt_of_le hx.lt_size grows_declare.symbols_le,
      (grows_declare.managed hx.lt_size).trans hx.managed, ?_, fun hlisted => ?_,
      fun q role name hslot => ?_, fun q hdropped => ?_⟩
    · rw [h.scope, if_neg hne, if_neg hrival, hx.detached]
    · exact (h.listed hlisted).elim hne hx.not_listed
    · rw [slot?_declare] at hslot
      exact hx.slot_ne _ _ _ hslot
    · exact (h.dropped q x hdropped).elim (hx.not_dropped q) fun hr => hrival hr.2

theorem Coherent.latest_declare (htarget : g.Place target) (hsymbol : g.Fresh symbol)
    (hx : g.Latest x) (hlt : symbol.index < x.index ∨ (g.symbol symbol).origin ≠ none) :
    (g.declare target symbol).2.Latest x := by
  rcases hg.declare_cases htarget hsymbol with h | ⟨p, h, -⟩
  · exact h.latest hg grows_declare hx
  · intro y hy
    rcases h.listed hy with rfl | hy
    · rwa [grows_declare.origin hsymbol.lt_size]
    · obtain ⟨q, ns, name, hget⟩ := hy
      rw [grows_declare.origin (hg.entry hget).1]
      exact hx y ⟨q, ns, name, hget⟩

end

theorem Fresh.putSlot (hx : g.Fresh x) (hne : x ≠ symbol) :
    (g.putSlot scope role symbol).Fresh x where
  lt_size := Nat.lt_of_lt_of_le hx.lt_size grows_putSlot.symbols_le
  managed := (grows_putSlot.managed hx.lt_size).trans hx.managed
  detached := by
    rw [Graph.putSlot, symbol_modifySymbol_of_ne hne]
    exact hx.detached
  not_listed := by
    simp only [Listed, table_putSlot]
    exact hx.not_listed
  slot_ne p role name h := (slot?_of_putSlot h).elim (fun h => hne h.1) (hx.slot_ne _ _ _)
  not_dropped p := by
    rw [dropped_putSlot]
    exact hx.not_dropped p

/-- Fresh symbols in the order in which they are to be declared. -/
structure Pending (g : Graph) (symbols : List SymbolId) : Prop where
  fresh : ∀ x ∈ symbols, g.Fresh x
  latest : ∀ x ∈ symbols, g.Latest x
  sorted : symbols.Pairwise fun x y => x.index < y.index

namespace Pending

variable {symbols : List SymbolId}

protected theorem nil : g.Pending [] :=
  ⟨fun _ h => absurd h List.not_mem_nil, fun _ h => absurd h List.not_mem_nil, .nil⟩

theorem spares (hg : g.Coherent) (h : g.Pending symbols) (hspares : g.Spares g')
    (hgrows : g.Grows g') : g'.Pending symbols :=
  ⟨fun x hx => hspares.fresh hgrows (h.fresh x hx),
    fun x hx => hspares.latest hg hgrows (h.latest x hx), h.sorted⟩

/-- The others wait while the first is declared. -/
theorem declare (hg : g.Coherent) (htarget : g.Place target)
    (h : g.Pending (symbol :: symbols)) : (g.declare target symbol).2.Pending symbols := by
  have hsymbol := h.fresh symbol List.mem_cons_self
  have hsorted := List.pairwise_cons.mp h.sorted
  refine ⟨fun x hx => ?_, fun x hx => ?_, hsorted.2⟩
  · refine hg.fresh_declare htarget hsymbol (h.fresh x (List.mem_cons_of_mem _ hx)) ?_
    rintro rfl
    exact Nat.lt_irrefl _ (hsorted.1 x hx)
  · exact hg.latest_declare htarget hsymbol (h.latest x (List.mem_cons_of_mem _ hx))
      (.inl (hsorted.1 x hx))

end Pending

theorem symbol_allocAll_of_lt (list : List Symbol) (hx : x.index < g.symbols.size) :
    (g.allocAll list).2.symbol x = g.symbol x := by
  induction list generalizing g with
  | nil => rfl
  | cons s rest ih =>
    have hlt : x.index < (g.alloc s).2.symbols.size := by
      rw [size_symbols_alloc]
      omega
    exact (ih hlt).trans (by rw [symbol_alloc, if_neg (Nat.ne_of_lt hx)])

/-- What all symbols of a list have in common, they have in the arena. -/
theorem symbol_allocAll_of_mem {R : Symbol → Prop} {list : List Symbol} (hlist : ∀ s ∈ list, R s)
    (hx : x ∈ (g.allocAll list).1) : R ((g.allocAll list).2.symbol x) := by
  induction list generalizing g with
  | nil => cases hx
  | cons s rest ih =>
    rcases List.mem_cons.mp hx with rfl | hx
    · have hlt : (⟨g.symbols.size⟩ : SymbolId).index < (g.alloc s).2.symbols.size := by
        rw [size_symbols_alloc]
        exact Nat.lt_succ_self _
      rw [show (g.allocAll (s :: rest)).2 = ((g.alloc s).2.allocAll rest).2 from rfl,
        symbol_allocAll_of_lt rest hlt, symbol_alloc, if_pos rfl]
      exact hlist s List.mem_cons_self
    · exact ih (fun s' hs' => hlist s' (List.mem_cons_of_mem _ hs')) hx

/-- A whole list of symbols is taken into the arena. -/
theorem allocAll_spec (types : Set SymbolId) : ∀ (list : List Symbol) {g : Graph}, g.Coherent →
    (∀ s ∈ list, g.Admissible s) →
    Steps types g (g.allocAll list).2 ∧ g.Spares (g.allocAll list).2 ∧
      (g.allocAll list).2.symbols.size = g.symbols.size + list.length ∧
      (g.allocAll list).1 = (List.range' g.symbols.size list.length).map SymbolId.mk
  | [], g, _, _ => ⟨.refl, .refl, rfl, rfl⟩
  | s :: rest, g, hg, hlist => by
    have hs := hlist s List.mem_cons_self
    have hgrows := grows_alloc (g := g) s
    obtain ⟨hsteps, hspares, hsize, hids⟩ := allocAll_spec types rest (hg.alloc hs)
      fun s' h => (hlist s' (List.mem_cons_of_mem _ h)).grows hg.nested hgrows
    rw [size_symbols_alloc] at hsize hids
    refine ⟨.head (.alloc hs) hsteps, (spares_alloc hs.detached).trans hspares, ?_, ?_⟩
    · rw [List.length_cons, ← Nat.add_assoc, Nat.add_right_comm]
      exact hsize
    · rw [List.length_cons, List.range'_succ, List.map_cons, ← hids]
      rfl

/-- The symbols of a list that has just been taken into the arena wait for their declaration. -/
theorem pending_allocAll {list : List Symbol} (hg : g.Coherent)
    (hlist : ∀ s ∈ list, g.Admissible s) :
    (g.allocAll list).2.Pending (g.allocAll list).1 := by
  obtain ⟨hsteps, hspares, hsize, hids⟩ := allocAll_spec ∅ list hg hlist
  have hmem : ∀ x ∈ (g.allocAll list).1,
      g.symbols.size ≤ x.index ∧ x.index < (g.allocAll list).2.symbols.size := by
    intro x hx
    rw [hids] at hx
    obtain ⟨i, hi, rfl⟩ := List.mem_map.mp hx
    rw [hsize]
    exact List.mem_range'_1.mp hi
  refine ⟨fun x hx => hspares.fresh_of_le hg (hmem x hx).1 (hmem x hx).2
      (symbol_allocAll_of_mem (R := (·.managed = false)) (fun s hs => (hlist s hs).managed) hx),
    fun x hx => hspares.latest hg hsteps.grows (hg.latest_of_le (hmem x hx).1), ?_⟩
  rw [hids, List.pairwise_map]
  exact List.pairwise_lt_range'

end Graph

end Scoping
