import Scoping.Proofs.Graph.Publication

/-!
# What tables hold stays

No edit of an analysis or of a publication takes a key out of a table or moves it, and a key changes
hands only when a forward declaration is completed: `Graph.Preserves` says so about two graphs, and
`Graph.Step.preserves` and `Graph.Publish.preserves` about every single edit.
-/

namespace Scoping

namespace Graph

variable {g g' : Graph} {target : ScopeId} {symbol old x : SymbolId}

/-- From `g` to `g'` the symbol `x` completes the forward declaration `old`. -/
structure Completes (g g' : Graph) (old x : SymbolId) : Prop where
  incomplete : (g.symbol old).flags.isIncomplete = true
  kind : (g'.symbol x).kind = (g.symbol old).kind
  name : (g'.symbol x).name = (g.symbol old).name
  ns : (g'.symbol x).ns = (g.symbol old).ns
  /-- In particular `x` is no forward declaration. -/
  flags : (g'.symbol x).flags = { (g.symbol old).flags with isIncomplete := false }

/-- Keys stay in their places, and the symbols under them stay until they are completed. -/
structure Preserves (g g' : Graph) : Prop where
  keys : ∀ q ns, ((g.scope q).table.space ns).keys <+: ((g'.scope q).table.space ns).keys
  held : ∀ {q ns name x}, (g.scope q).table.get? ns name = some x →
    ∃ x', (g'.scope q).table.get? ns name = some x' ∧ (x' = x ∨ g.Completes g' x x')
  core : ∀ {x}, g.Listed x → core (g'.symbol x) = core (g.symbol x)

theorem Preserves.of_table (htable : ∀ q, (g'.scope q).table = (g.scope q).table)
    (hcore : ∀ x, g.Listed x → Graph.core (g'.symbol x) = Graph.core (g.symbol x)) :
    g.Preserves g' where
  keys q ns := (htable q).symm ▸ List.prefix_rfl
  held {q ns name x} hx := ⟨x, by rw [htable, hx], .inl rfl⟩
  core := hcore _

theorem Coherent.core_of_listed (hg : g.Coherent) (h : g.Grows g') (hx : g.Listed x) :
    Graph.core (g'.symbol x) = Graph.core (g.symbol x) := by
  obtain ⟨q, ns, name, hx⟩ := hx
  exact h.core (hg.entry hx).1

/-! ### Declarations -/

theorem keys_prefix_declare (hsymbol : symbol.index < g.symbols.size) (q : ScopeId)
    (ns : Namespace) : ((g.scope q).table.space ns).keys <+:
      (((g.declare target symbol).2.scope q).table.space ns).keys := by
  have hkeep (hlive : (g.verdict target symbol).isLive = false) :
      ((g.declare target symbol).2.scope q).table = (g.scope q).table := by
    rw [declare_of_not_isLive hlive, scope_stamp]
  cases hv : g.verdict target symbol with
  | reject | keep => exact (hkeep (by rw [hv]; rfl)).symm ▸ List.prefix_rfl
  | add shadows =>
    rw [table_declare_add hv hsymbol]
    split
    · exact Table.keys_prefix_insert ns
    · exact List.prefix_rfl
  | replace old =>
    rw [table_declare_replace hv]
    split
    · exact Table.keys_prefix_replace ns
    · exact List.prefix_rfl

/-- The symbol that completes a forward declaration has the flags of the declaration. -/
theorem Coherent.completes_of_replace (hg : g.Coherent) (hsymbol : symbol.index < g.symbols.size)
    (hv : g.verdict target symbol = .replace old) :
    g.Completes (g.declare target symbol).2 old symbol := by
  obtain ⟨-, -, hincomplete, hkind⟩ := met?_of_verdict_eq_replace hg.nested.partitioned hv
  obtain ⟨-, -, hns, hname⟩ := hg.listed_of_replace hv
  have hcore : core ((g.declare target symbol).2.symbol symbol) = core (g.symbol symbol) :=
    core_declare symbol
  exact ⟨hincomplete, (congrArg Core.kind hcore).trans hkind.symm,
    (congrArg Core.name hcore).trans hname.symm, (congrArg Core.ns hcore).trans hns.symm,
    flags_declare_replace hv hg.nested.partitioned hsymbol⟩

/-- A declaration completes the forward declaration that it displaces, and all others stay. -/
theorem Coherent.declare_preserves (hg : g.Coherent) (hsymbol : symbol.index < g.symbols.size) :
    g.Preserves (g.declare target symbol).2 where
  keys := keys_prefix_declare hsymbol
  core := hg.core_of_listed grows_declare
  held {q ns name x} hx := by
    cases hv : g.verdict target symbol with
    | reject | keep =>
      rw [declare_of_not_isLive (by rw [hv]; rfl)]
      exact ⟨x, hx, .inl rfl⟩
    | add shadows =>
      refine ⟨x, ?_, .inl rfl⟩
      rw [table_declare_add hv hsymbol]
      split
      · exact Table.get?_insert_of_get? hx
      · exact hx
    | replace old =>
      rw [table_declare_replace hv]
      split
      next hq =>
        rw [Table.get?_replace]
        split
        next hkey =>
          obtain ⟨rfl, rfl⟩ := hkey
          rw [(hg.home_of_replace hv hq.1).2] at hx
          cases hx
          exact ⟨symbol, rfl, .inr (hg.completes_of_replace hsymbol hv)⟩
        next => exact ⟨x, hx, .inl rfl⟩
      next => exact ⟨x, hx, .inl rfl⟩

/-! ### Edits -/

theorem Step.preserves {types : Set SymbolId} (hg : g.Coherent) (h : Step types g g') :
    g.Preserves g' := by
  have hcore : ∀ x, g.Listed x → core (g'.symbol x) = core (g.symbol x) := fun _ hx =>
    hg.core_of_listed h.grows hx
  cases h with
  | newScope => exact .of_table spares_newScope.table hcore
  | alloc hs => exact .of_table (spares_alloc hs.detached).table hcore
  | allocType hs => exact .of_table (spares_allocType hs).table hcore
  | amendScope h | amendSymbol h => exact .of_table h.spares.table hcore
  | link => exact .of_table (spares_linkSuper _ _).table hcore
  | declare _ hsymbol => exact hg.declare_preserves hsymbol.lt_size
  | declareSlot => exact .of_table (scope_declareSlot_congr Scope.table fun _ _ _ => rfl) hcore
  | putSlot => exact .of_table table_putSlot hcore

theorem Publish.preserves (hg : g.Coherent) (h : Publish g g') : g.Preserves g' := by
  have hp := h.publishing hg
  refine ⟨fun q ns => ?_, fun {q ns name x} hx => ⟨x, hp.keeps hx, .inl rfl⟩, fun {x} _ => ?_⟩
  · cases h with
    | @openModule dst name hdst =>
      exact (scope_subModule_congr Scope.table (fun _ _ _ _ _ => rfl) (fun _ _ _ => rfl) dst name
        q).symm ▸ List.prefix_rfl
    | enter =>
      exact scope_modifyScope_rel
        (fun s s' => (s.table.space ns).keys <+: (s'.table.space ns).keys)
        (fun _ => List.prefix_rfl) (Table.keys_prefix_insert ns) q
  · rw [hp.symbol]

end Graph

end Scoping
