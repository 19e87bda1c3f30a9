import Scoping.Proofs.Graph.Advance

/-!
# Collecting declarations

The edits by which the declarations of a unit are collected look nothing up: what is new is not
resolved and not linked to anything, and what was there keeps its links (`Graph.Collects`). The
subtrees of what is new are among given nodes.
-/

namespace Scoping

namespace Symbol

/-- A symbol as its declaration makes it: no copy, and nothing about it has been resolved. -/
structure Unresolved (s : Symbol) : Prop where
  origin : s.origin = none
  ns : s.ns = s.kind.home
  interfaces : s.interfaces = []
  super? : s.super? = none
  resolution : ∀ r, s.data.resolution? = some r → r = .unresolved

/-- All that `Symbol.Unresolved` is about, and the subtree. -/
def ties (s : Symbol) : (Option SymbolId × Namespace × SymbolKind) ×
    List SymbolId × Option SymbolId × Option Resolution × Option NodeId :=
  ((s.origin, s.ns, s.kind), s.interfaces, s.super?, s.data.resolution?, s.subtree?)

variable {s s' : Symbol}

theorem Unresolved.congr (h : s.Unresolved) (hties : s'.ties = s.ties) : s'.Unresolved := by
  simp only [ties, Prod.mk.injEq] at hties
  obtain ⟨⟨horigin, hns, hkind⟩, hinterfaces, hsuper, hresolution, -⟩ := hties
  refine ⟨horigin.trans h.origin, ?_, hinterfaces.trans h.interfaces, hsuper.trans h.super?,
    fun r hr => h.resolution r (hresolution ▸ hr)⟩
  rw [hns, hkind, h.ns]

theorem subtree?_of_ties (hties : s'.ties = s.ties) : s'.subtree? = s.subtree? :=
  congrArg (·.2.2.2.2) hties

theorem unresolved_blank : blank.Unresolved := ⟨rfl, rfl, rfl, rfl, by rintro r ⟨⟩⟩

theorem Unresolved.bare (h : s.Unresolved) (hparams : s.params = []) : s.Bare :=
  ⟨h.interfaces, h.super?, hparams, h.ns⟩

/-- Variables and functions are linked to nothing. -/
theorem Unresolved.of_members?_eq_none (hmembers : s.members? = none) (horigin : s.origin = none)
    (hns : s.ns = s.kind.home) : s.Unresolved := by
  cases s
  cases ‹SymbolData› with
  | cls | trait | iface => cases hmembers
  | _ => exact ⟨horigin, hns, rfl, rfl, by rintro r ⟨⟩⟩

theorem ties_setMembers (s : Symbol) (m : ScopeId) :
    ties { s with data := s.data.setMembers m } = s.ties := by
  cases s
  cases ‹SymbolData› <;> rfl

theorem ties_mapFn (s : Symbol) (f : FunctionData → FunctionData) :
    ties { s with data := s.data.mapFn f } = s.ties := by
  cases s
  cases ‹SymbolData› <;> rfl

end Symbol

namespace Graph

variable {g g' g'' : Graph} {held held' : NodeId → Prop} {s : Symbol}

/-- Edits after which what was there has the links that it had, and what is new has not been
resolved and has no subtrees but those that are `held`. -/
structure Collects (held : NodeId → Prop) (g g' : Graph) : Prop where
  edits : Edits ∅ g g'
  ties_eq : ∀ {x}, x.index < g.symbols.size → (g'.symbol x).ties = (g.symbol x).ties
  unresolved : ∀ {x}, g.symbols.size ≤ x.index → (g'.symbol x).Unresolved
  subtree : ∀ {x}, g.symbols.size ≤ x.index → ∀ id, (g'.symbol x).subtree? = some id → held id

namespace Collects

/-- Edits that spare all links. -/
theorem of_ties (hedits : Edits ∅ g g') (hties : ∀ x, (g'.symbol x).ties = (g.symbol x).ties) :
    Collects held g g' := by
  refine ⟨hedits, fun _ => hties _, fun {x} hx => Symbol.Unresolved.congr ?_ (hties x),
    fun {x} hx id hid => ?_⟩
  · rw [symbol_of_size_le hx]
    exact Symbol.unresolved_blank
  · rw [Symbol.subtree?_of_ties (hties x), symbol_of_size_le hx] at hid
    cases hid

protected theorem refl : Collects held g g := of_ties .refl fun _ => rfl

theorem mono (hheld : ∀ id, held id → held' id) (h : Collects held g g') : Collects held' g g' :=
  { h with subtree := fun hx id hid => hheld id (h.subtree hx id hid) }

protected theorem trans (h : Collects held g g') (h' : Collects held g' g'') :
    Collects held g g'' where
  edits := h.edits.trans h'.edits
  ties_eq hx := (h'.ties_eq (Nat.lt_of_lt_of_le hx h.edits.symbols_le)).trans (h.ties_eq hx)
  unresolved {x} hx := by
    rcases Nat.lt_or_ge x.index g'.symbols.size with hlt | hle
    · exact (h.unresolved hx).congr (h'.ties_eq hlt)
    · exact h'.unresolved hle
  subtree {x} hx id hid := by
    rcases Nat.lt_or_ge x.index g'.symbols.size with hlt | hle
    · exact h.subtree hx id ((Symbol.subtree?_of_ties (h'.ties_eq hlt)).symm.trans hid)
    · exact h'.subtree hle id hid

/-- What was there keeps its subtree. -/
theorem subtree?_eq (h : Collects held g g') {x : SymbolId} (hx : x.index < g.symbols.size) :
    (g'.symbol x).subtree? = (g.symbol x).subtree? :=
  Symbol.subtree?_of_ties (h.ties_eq hx)

theorem newScope {kind : ScopeKind} {parent : ScopeId}
    (hkind : kind.isRoot = false ∨ kind = .unit ∧ parent = global) :
    Collects held g (g.newScope kind (some parent)).2 :=
  of_ties (.single (.newScope hkind)) fun _ => by rw [symbol_newScope]

theorem amendScope {p : ScopeId} {f : Scope → Scope} (hf : Redresses (g.scope p) (f (g.scope p))) :
    Collects held g (g.modifyScope p f) :=
  of_ties (.single (.amendScope hf)) fun _ => rfl

theorem subModule (parent : ScopeId) (name : String) :
    Collects held g (g.subModule parent name).2 :=
  of_ties (.single .subModule) fun _ => by rw [symbols_subModule]

theorem declare (target : ScopeId) (x : SymbolId) : Collects held g (g.declare target x).2 :=
  of_ties (.single .declare) (symbol_declare_congr Symbol.ties fun _ _ _ _ => rfl)

theorem declareSlot (q : ScopeId) (role : Role) (x : SymbolId) :
    Collects held g (g.declareSlot q role x).2 :=
  of_ties (.single .declareSlot) fun y =>
    (symbol_declareSlot_stamp Symbol.ties (fun _ _ _ => rfl) y).trans
      (symbol_modifySymbol_congr Symbol.ties _ _ fun _ => rfl)

/-- A symbol is put at the end of the arena. -/
theorem put (hedits : Edits ∅ g g') (hs : s.Unresolved)
    (hsubtree : ∀ id, s.subtree? = some id → held id)
    (hput : ∀ x, g'.symbol x = if x.index = g.symbols.size then s else g.symbol x) :
    Collects held g g' := by
  refine ⟨hedits, fun {x} hx => ?_, fun {x} hx => ?_, fun {x} hx id hid => ?_⟩
  · rw [hput, if_neg (Nat.ne_of_lt hx)]
  · rw [hput]
    split
    · exact hs
    · rw [symbol_of_size_le hx]
      exact Symbol.unresolved_blank
  · rw [hput] at hid
    split at hid
    · exact hsubtree id hid
    · rw [symbol_of_size_le hx] at hid
      cases hid

theorem alloc (hs : s.Unresolved) (hparams : s.params = []) (hmembers : s.members? = none)
    (hsubtree : ∀ id, s.subtree? = some id → held id) : Collects held g (g.alloc s).2 :=
  put (.single (.alloc (.of_bare (hs.bare hparams) hmembers))) hs hsubtree fun _ =>
    symbol_alloc ..

theorem allocType (hs : s.Unresolved) (hparams : s.params = []) (htype : s.kind.isType = true)
    (hsubtree : s.subtree? = none) (parent : ScopeId) :
    Collects held g (g.allocType parent s).2 := by
  have hties := s.ties_setMembers ⟨g.scopes.size⟩
  refine put (.single (.allocType (hs.bare hparams) htype)) (hs.congr hties) (fun id hid => ?_)
    fun _ => symbol_allocType ..
  rw [Symbol.subtree?_of_ties hties, hsubtree] at hid
  cases hid

theorem ties_modifyData_mapFn (f : FunctionData → FunctionData) (x y : SymbolId) :
    ((g.modifyData x (·.mapFn f)).symbol y).ties = (g.symbol y).ties :=
  symbol_modifySymbol_congr Symbol.ties x y fun s => s.ties_mapFn f

theorem mapFn {f : FunctionData → FunctionData} (hparams : ∀ data, (f data).params = data.params)
    (hexpr : ∀ data, (f data).isExpr = data.isExpr) (x : SymbolId) :
    Collects held g (g.modifyData x (·.mapFn f)) := by
  refine of_ties (.single (.amendSymbol (.mapFn (fun data => .inl (hparams data)) hexpr) ?_))
    (ties_modifyData_mapFn f x)
  generalize g.symbol x = s
  cases s
  cases ‹SymbolData› with
  | fn data => exact hparams data
  | _ => rfl

theorem giveParams {list : List Symbol} {f : SymbolId} (hf : (g.symbol f).params = [])
    (hlist : ∀ s ∈ list, s.Unresolved ∧ s.kind = .var ∧ s.flags.isParam = true ∧
      ∀ id, s.subtree? = some id → held id) :
    Collects held g ((g.allocAll list).2.modifyData f (·.mapFn fun data =>
      { data with params := (g.allocAll list).1 })) := by
  refine ⟨.single (.giveParams hf fun s hs => ?_), fun hx => ?_, fun {x} hx =>
    Symbol.Unresolved.congr ?_ (ties_modifyData_mapFn _ f x), fun {x} hx id hid => ?_⟩
  · obtain ⟨hunresolved, hkind, hparam, -⟩ := hlist s hs
    exact ⟨hkind, by rw [hunresolved.ns, hkind]; rfl, hparam, hunresolved.origin⟩
  · rw [ties_modifyData_mapFn, symbol_allocAll_of_lt list hx]
  · rcases symbol_allocAll_of_le list hx with hmem | hblank
    · exact (hlist _ hmem).1
    · rw [hblank]
      exact Symbol.unresolved_blank
  · rw [Symbol.subtree?_of_ties (ties_modifyData_mapFn _ f x)] at hid
    rcases symbol_allocAll_of_le list hx with hmem | hblank
    · exact (hlist _ hmem).2.2.2 id hid
    · rw [hblank] at hid
      cases hid

end Collects

end Graph

end Scoping
