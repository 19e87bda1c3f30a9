import Scoping.Proofs.Graph.Decision

/-!
# Tables and owners agree

A table says which symbols it holds, and a symbol says which scope holds it. `Graph.Agreement` is
the statement that the two never contradict each other: an entry names its key and its table, and an
owned symbol is found under its own key. Building a graph by new scopes, superclass links, detached
symbols and declarations (`Graph.Built`) keeps the agreement. So no symbol is in two places, and a
declaration that is to be added always finds a free slot, although the table would silently keep an
earlier entry.

Publishing a unit is not among the steps: it enters symbols into tables that do not own them.
-/

namespace Scoping

namespace Graph

variable {g : Graph} {symbol : SymbolId}

/-- Every entry is owned by its table under its own key, and every owned symbol is such an
entry. -/
structure Agreement (g : Graph) : Prop where
  functional : ∀ p, (g.scope p).table.Functional
  entry : ∀ {p ns name x}, (g.scope p).table.get? ns name = some x →
    (g.symbol x).scope = some p ∧ (g.symbol x).ns = ns ∧ (g.symbol x).name = name
  owned : ∀ {x p}, (g.symbol x).scope = some p →
    (g.scope p).table.get? (g.symbol x).ns (g.symbol x).name = some x

/-- Sequences of new scopes, superclass links, detached symbols and declarations of detached
symbols. -/
inductive Built : Graph → Prop where
  | initial : Built .initial
  | newScope {g : Graph} (kind : ScopeKind) (parent : Option ScopeId) :
    Built g → Built (g.newScope kind parent).2
  | newMemberScope {g : Graph} (host : SymbolId) (parent : ScopeId) :
    Built g → Built (g.newMemberScope host parent).2
  | setSuper {g : Graph} (scope : ScopeId) (super : Option ScopeId) :
    Built g → Built (g.modifyMember scope fun info => { info with super })
  | alloc {g : Graph} (s : Symbol) : s.scope = none → Built g → Built (g.alloc s).2
  | declare {g : Graph} (target : ScopeId) (symbol : SymbolId) :
    target.index < g.scopes.size → symbol.index < g.symbols.size →
    (g.symbol symbol).scope = none → Built g → Built (g.declare target symbol).2
  | declareManaged {g : Graph} (target : ScopeId) (symbol : SymbolId) (ns : Namespace) :
    target.index < g.scopes.size → symbol.index < g.symbols.size →
    (g.symbol symbol).scope = none → Built g → Built (g.declareManaged target symbol ns).2

/-! ### The agreement is kept -/

theorem agreement_initial : initial.Agreement := by
  have htable : ∀ q, (initial.scope q).table = {} := by
    intro q
    obtain ⟨kind, active, hq⟩ := scope_initial q
    rw [hq]
  refine ⟨fun p => ?_, fun {p ns name x} h => ?_, fun {x p} h => ?_⟩
  · rw [htable]
    exact Table.functional_empty
  · simp [htable] at h
  · exact absurd (symbol_lt_size h) (by simp [initial])

/-- Tables, and the owner and the key of every owned symbol, are all that matters. -/
theorem Agreement.congr {g' : Graph} (hg : g.Agreement)
    (htable : ∀ q, (g'.scope q).table = (g.scope q).table)
    (hscope : ∀ x, (g'.symbol x).scope = (g.symbol x).scope)
    (hkey : ∀ x p, (g.symbol x).scope = some p →
      (g'.symbol x).ns = (g.symbol x).ns ∧ (g'.symbol x).name = (g.symbol x).name) :
    g'.Agreement where
  functional p := by
    rw [htable]
    exact hg.functional p
  entry h := by
    rw [htable] at h
    obtain ⟨hp, hns, hname⟩ := hg.entry h
    obtain ⟨hns', hname'⟩ := hkey _ _ hp
    exact ⟨by rw [hscope, hp], by rw [hns', hns], by rw [hname', hname]⟩
  owned h := by
    rw [hscope] at h
    obtain ⟨hns, hname⟩ := hkey _ _ h
    rw [htable, hns, hname, hg.owned h]

theorem Agreement.alloc (hg : g.Agreement) {s : Symbol} (hs : s.scope = none) :
    (g.alloc s).2.Agreement := by
  refine hg.congr (fun _ => rfl) (fun x => ?_) fun x p hx => ?_
  · rw [symbol_alloc]
    split
    next hx => rw [symbol_of_size_le (Nat.le_of_eq hx.symm), hs]; rfl
    next => rfl
  · have hlt := symbol_lt_size hx
    rw [symbol_alloc, if_neg (by omega)]
    exact ⟨rfl, rfl⟩

section Declare

variable {target : ScopeId} {symbol : SymbolId} {shadows : Option SymbolId} {old : SymbolId}

/-- Settling flags changes neither entries nor owners. -/
theorem Agreement.stamp (hg : g.Agreement) : (g.stamp target symbol).Agreement :=
  hg.congr (fun _ => rfl) (symbol_stamp_congr Symbol.scope fun _ _ => rfl)
    fun x _ _ => ⟨ns_stamp x, name_stamp x⟩

variable (hg : g.Agreement) (hp : g.Partitioned) (htarget : target.index < g.scopes.size)
  (hsymbol : symbol.index < g.symbols.size) (hdetached : (g.symbol symbol).scope = none)

include hg hdetached

/-- A detached symbol is no entry. -/
theorem Agreement.ne_of_detached {p : ScopeId} {ns : Namespace} {name : String} {x : SymbolId}
    (h : (g.scope p).table.get? ns name = some x) : x ≠ symbol := by
  rintro rfl
  rw [(hg.entry h).1] at hdetached
  cases hdetached

/-- A detached symbol enters a table, and what was at its key is detached. -/
theorem Agreement.enter {g' : Graph} {p : ScopeId}
    (hfunctional : ∀ q, (g'.scope q).table.Functional)
    (hns : ∀ x, (g'.symbol x).ns = (g.symbol x).ns)
    (hname : ∀ x, (g'.symbol x).name = (g.symbol x).name)
    (hget : ∀ q ns name, (g'.scope q).table.get? ns name =
      if q = p ∧ ns = (g.symbol symbol).ns ∧ name = (g.symbol symbol).name then some symbol
      else (g.scope q).table.get? ns name)
    (hscope : ∀ x, (g'.symbol x).scope = if x = symbol then some p
      else if (g.scope p).table.get? (g.symbol symbol).ns (g.symbol symbol).name = some x then none
      else (g.symbol x).scope) : g'.Agreement := by
  refine ⟨hfunctional, fun {q ns name x} h => ?_, fun {x q} h => ?_⟩
  · rw [hget] at h
    rw [hscope, hns, hname]
    split at h
    next hkey =>
      cases h
      exact ⟨by rw [if_pos rfl, hkey.1], hkey.2.1.symm, hkey.2.2.symm⟩
    next hkey =>
      obtain ⟨hx, rfl, rfl⟩ := hg.entry h
      rw [if_neg (hg.ne_of_detached hdetached h), if_neg]
      · exact ⟨hx, rfl, rfl⟩
      · -- what was at the key is nowhere else
        intro hold
        obtain ⟨hp, hxns, hxname⟩ := hg.entry hold
        exact hkey ⟨Option.some.inj (hx.symm.trans hp), hxns, hxname⟩
  · rw [hscope] at h
    rw [hget, hns, hname]
    split at h
    next hx =>
      cases h
      rw [hx, if_pos ⟨rfl, rfl, rfl⟩]
    next =>
      split at h
      · cases h
      next hold =>
        rw [if_neg, hg.owned h]
        rintro ⟨rfl, hkns, hkname⟩
        exact hold (hkns ▸ hkname ▸ hg.owned h)

include hp htarget

/-- An added symbol finds its slot free. -/
theorem Agreement.free_of_add (hv : g.verdict target symbol = .add shadows) :
    (g.scope (g.landing target symbol)).table.get? (g.symbol symbol).ns (g.symbol symbol).name =
      none :=
  free_of_verdict_eq_add hp (Nat.zero_lt_of_lt htarget) hv
    (fun _ _ _ he => ⟨hg.ne_of_detached hdetached he, (hg.entry he).1⟩) (owner_landing hp)

include hsymbol

theorem Agreement.declare_add (hv : g.verdict target symbol = .add shadows) :
    (g.declare target symbol).2.Agreement := by
  have hfree := hg.free_of_add hp htarget hdetached hv
  refine hg.enter hdetached (fun q => ?_) (symbol_declare_congr Symbol.ns fun _ _ _ _ => rfl)
    (symbol_declare_congr Symbol.name fun _ _ _ _ => rfl)
    (get?_declare_add hv hsymbol (landing_lt_size hp htarget) hfree) fun x => ?_
  · rw [table_declare_add hv hsymbol]
    split
    · exact (hg.functional q).insert
    · exact hg.functional q
  · rw [scope_declare_add hv hsymbol, hfree, if_neg (fun h => nomatch h : ¬ none = some x)]

omit htarget hsymbol hdetached in
/-- The forward declaration that is completed is the entry at the key of the new symbol. -/
theorem Agreement.entry_of_replace (hv : g.verdict target symbol = .replace old) :
    ∃ p, (g.symbol old).scope = some p ∧
      (g.scope p).table.get? (g.symbol symbol).ns (g.symbol symbol).name = some old := by
  obtain ⟨-, p, -, hget⟩ := exists_of_met? (met?_of_verdict_eq_replace hp hv).2.1
  exact ⟨p, (hg.entry hget).1, hget⟩

omit htarget in
theorem Agreement.declare_replace (hv : g.verdict target symbol = .replace old) :
    (g.declare target symbol).2.Agreement := by
  obtain ⟨p, hold, hentry⟩ := hg.entry_of_replace hp hv
  refine hg.enter hdetached (fun q => ?_) (symbol_declare_congr Symbol.ns fun _ _ _ _ => rfl)
    (symbol_declare_congr Symbol.name fun _ _ _ _ => rfl)
    (get?_declare_replace hv hold (lt_size_of_get? hentry)) fun x => ?_
  · rw [table_declare_replace hv]
    split
    · exact (hg.functional q).replace
    · exact hg.functional q
  · have hne := ne_of_verdict_eq_replace hv
    rw [scope_declare_replace hv hold hsymbol, hentry]
    by_cases hx : x = old
    · rw [hx, if_pos rfl, if_neg hne, if_pos rfl]
    · rw [if_neg hx, if_neg fun h => hx (Option.some.inj h).symm]

theorem Agreement.declare : (g.declare target symbol).2.Agreement := by
  cases hv : g.verdict target symbol with
  | reject | keep =>
    rw [declare_of_not_isLive (by rw [hv]; rfl)]
    exact hg.stamp
  | add => exact hg.declare_add hp htarget hsymbol hdetached hv
  | replace => exact hg.declare_replace hp hsymbol hdetached hv

end Declare

/-! ### Entries of the session -/

/-- The graph in which a symbol of the session is declared. -/
def manage (g : Graph) (symbol : SymbolId) (ns : Namespace) : Graph :=
  g.modifySymbol symbol fun s =>
    { s with
      managed := true
      ns
      flags := if s.flags.hasVisibility then s.flags else { s.flags with isPublic := true } }

theorem declareManaged_eq (g : Graph) (target : ScopeId) (symbol : SymbolId) (ns : Namespace) :
    g.declareManaged target symbol ns = (g.manage symbol ns).declare target symbol := rfl

theorem Partitioned.manage (hg : g.Partitioned) (symbol : SymbolId) (ns : Namespace) :
    (g.manage symbol ns).Partitioned :=
  hg.congr fun _ => rfl

theorem scope_manage_symbol (symbol : SymbolId) (ns : Namespace) (x : SymbolId) :
    ((g.manage symbol ns).symbol x).scope = (g.symbol x).scope :=
  symbol_modifySymbol_congr Symbol.scope _ _ fun _ => rfl

theorem key_manage_self (h : symbol.index < g.symbols.size) (ns : Namespace) :
    ((g.manage symbol ns).symbol symbol).ns = ns ∧
      ((g.manage symbol ns).symbol symbol).name = (g.symbol symbol).name := by
  rw [manage, symbol_modifySymbol_self h]
  exact ⟨rfl, rfl⟩

/-- The namespace of a detached symbol may change. -/
theorem Agreement.manage (hg : g.Agreement) {symbol : SymbolId}
    (hdetached : (g.symbol symbol).scope = none) (ns : Namespace) :
    (g.manage symbol ns).Agreement := by
  refine hg.congr (fun _ => rfl) (scope_manage_symbol symbol ns) fun x p hx => ?_
  have hne : x ≠ symbol := by
    rintro rfl
    rw [hx] at hdetached
    cases hdetached
  rw [Graph.manage, symbol_modifySymbol_of_ne hne]
  exact ⟨rfl, rfl⟩

/-! ### Consequences -/

/-- A symbol has one key. -/
theorem Agreement.nodup_ids (hg : g.Agreement) (p : ScopeId) : (g.scope p).table.ids.Nodup := by
  refine (hg.functional p).nodup_ids fun h h' => ?_
  obtain ⟨-, hns, hname⟩ := hg.entry h
  obtain ⟨-, hns', hname'⟩ := hg.entry h'
  exact ⟨hns.symm.trans hns', hname.symm.trans hname'⟩

/-- A symbol is owned by the one table that lists it. -/
theorem Agreement.scope_of_mem_ids (hg : g.Agreement) {p : ScopeId} {x : SymbolId}
    (h : x ∈ (g.scope p).table.ids) : (g.symbol x).scope = some p := by
  obtain ⟨ns, name, hget⟩ := (hg.functional p).mem_ids_iff.mp h
  exact (hg.entry hget).1

/-- An added symbol enters the table that owns it afterwards, at a key that was free before. -/
theorem Agreement.enters_free_slot (hg : g.Agreement) (hp : g.Partitioned) {target : ScopeId}
    (htarget : target.index < g.scopes.size) (hsymbol : symbol.index < g.symbols.size)
    (hdetached : (g.symbol symbol).scope = none) {shadows : Option SymbolId}
    (hv : (g.declare target symbol).1 = .add shadows) :
    ∃ p, ((g.declare target symbol).2.symbol symbol).scope = some p ∧
      (g.scope p).table.get? (g.symbol symbol).ns (g.symbol symbol).name = none ∧
      ((g.declare target symbol).2.scope p).table.get? (g.symbol symbol).ns
        (g.symbol symbol).name = some symbol := by
  have hscope : ((g.declare target symbol).2.symbol symbol).scope =
      some (g.landing target symbol) := by
    rw [scope_declare_add hv hsymbol, if_pos rfl]
  have howned := (hg.declare hp htarget hsymbol hdetached).owned hscope
  rw [symbol_declare_congr Symbol.ns fun _ _ _ _ => rfl,
    symbol_declare_congr Symbol.name fun _ _ _ _ => rfl] at howned
  exact ⟨_, hscope, hg.free_of_add hp htarget hdetached hv, howned⟩

/-! ### Built graphs -/

theorem Built.partitioned (h : Built g) : g.Partitioned := by
  induction h with
  | initial => exact partitioned_initial
  | newScope kind parent _ ih => exact ih.newScope kind parent
  | newMemberScope host parent _ ih => exact ih.newMemberScope host parent
  | setSuper scope super _ ih =>
    exact ih.congr fun _ => scope_modifyScope_congr Scope.pairing _ _ fun _ => rfl
  | alloc s _ _ ih => exact ih.congr fun _ => rfl
  | declare target symbol _ _ _ _ ih => exact ih.declare target symbol
  | declareManaged target symbol ns _ _ _ _ ih => exact (ih.manage symbol ns).declare target symbol

theorem Built.agreement (h : Built g) : g.Agreement := by
  induction h with
  | initial => exact agreement_initial
  | @newScope g kind parent _ ih =>
    exact ih.congr (scope_newScope_congr g Scope.table (fun _ _ _ _ _ => rfl) kind parent)
      (by simp) (by simp)
  | @newMemberScope g host parent _ ih =>
    exact ih.congr
      (scope_newMemberScope_congr g Scope.table (fun _ _ _ _ _ => rfl) (fun _ _ => rfl) host parent)
      (by simp) (by simp)
  | setSuper scope super _ ih =>
    exact ih.congr (fun _ => scope_modifyScope_congr Scope.table _ _ fun _ => rfl)
      (fun _ => rfl) fun _ _ _ => ⟨rfl, rfl⟩
  | alloc s hs _ ih => exact ih.alloc hs
  | declare target symbol htarget hsymbol hdetached hbuilt ih =>
    exact ih.declare hbuilt.partitioned htarget hsymbol hdetached
  | @declareManaged g target symbol ns htarget hsymbol hdetached hbuilt ih =>
    rw [declareManaged_eq]
    refine (ih.manage hdetached ns).declare (hbuilt.partitioned.manage symbol ns) htarget ?_ ?_
    · simpa [Graph.manage] using hsymbol
    · rw [scope_manage_symbol, hdetached]

/-- In a built graph the entries of all tables and the owners of all symbols are the same
information. So a symbol is in at most one table, once, and one that is to be added, by a program or
by the session, enters a slot that was free. -/
theorem Built.entries_agree_with_owners (h : Built g) :
    (∀ p ns name x, (name, x) ∈ ((g.scope p).table.space ns).entries →
      (g.symbol x).scope = some p ∧ (g.symbol x).ns = ns ∧ (g.symbol x).name = name) ∧
    (∀ x p, (g.symbol x).scope = some p →
      (g.scope p).table.get? (g.symbol x).ns (g.symbol x).name = some x) ∧
    (∀ p, (g.scope p).table.ids.Nodup) ∧
    (∀ p q x, x ∈ (g.scope p).table.ids → x ∈ (g.scope q).table.ids → p = q) ∧
    ∀ target symbol, target.index < g.scopes.size → symbol.index < g.symbols.size →
      (g.symbol symbol).scope = none →
      (∀ shadows, (g.declare target symbol).1 = .add shadows →
        ∃ p, ((g.declare target symbol).2.symbol symbol).scope = some p ∧
          (g.scope p).table.get? (g.symbol symbol).ns (g.symbol symbol).name = none ∧
          ((g.declare target symbol).2.scope p).table.get? (g.symbol symbol).ns
            (g.symbol symbol).name = some symbol) ∧
      ∀ ns shadows, (g.declareManaged target symbol ns).1 = .add shadows →
        ∃ p, ((g.declareManaged target symbol ns).2.symbol symbol).scope = some p ∧
          (g.scope p).table.get? ns (g.symbol symbol).name = none ∧
          ((g.declareManaged target symbol ns).2.scope p).table.get? ns (g.symbol symbol).name =
            some symbol := by
  have hg := h.agreement
  have hp := h.partitioned
  refine ⟨fun p ns name x hx => hg.entry ((hg.functional p).mem_entries_iff.mp hx),
    fun x p => hg.owned, hg.nodup_ids, fun p q x hxp hxq => ?_,
    fun target symbol htarget hsymbol hdetached => ⟨fun shadows hv => ?_, fun ns shadows hv => ?_⟩⟩
  · have hscope := hg.scope_of_mem_ids hxp
    rw [hg.scope_of_mem_ids hxq, Option.some.injEq] at hscope
    exact hscope.symm
  · exact hg.enters_free_slot hp htarget hsymbol hdetached hv
  · obtain ⟨hns, hname⟩ := key_manage_self hsymbol ns
    have hsymbol' : symbol.index < (g.manage symbol ns).symbols.size := by
      simpa [Graph.manage] using hsymbol
    have hdetached' : ((g.manage symbol ns).symbol symbol).scope = none := by
      rw [scope_manage_symbol, hdetached]
    have hslot := (hg.manage hdetached ns).enters_free_slot (hp.manage symbol ns) htarget hsymbol'
      hdetached' hv
    rwa [hns, hname] at hslot

/-- A unit in which a forward declaration has been completed, with a function scope inside. -/
def completedUnit : Graph :=
  let g := (initial.newScope .unit (some global)).2
  let g := (g.alloc (.mkDetached "f" {} { isIncomplete := true } (.fn {}))).2
  let g := (g.declare ⟨1⟩ ⟨0⟩).2
  let g := (g.alloc (.mkDetached "f" {} {} (.fn {}))).2
  let g := (g.declare ⟨1⟩ ⟨1⟩).2
  (g.newScope .function (some ⟨1⟩)).2

theorem built_completedUnit : Built completedUnit := by
  unfold completedUnit
  refine .newScope _ _ (.declare _ _ (by decide) (by decide) (by decide) (.alloc _ rfl ?_))
  exact .declare _ _ (by decide) (by decide) (by decide) (.alloc _ rfl (.newScope _ _ .initial))

/-- The completing symbol is the entry of the private partition, and owned by it. -/
theorem entries_agree_with_owners_completedUnit :
    ("f", ⟨1⟩) ∈ ((completedUnit.scope ⟨2⟩).table.space .value).entries ∧
      (completedUnit.symbol ⟨1⟩).scope = some ⟨2⟩ := by
  have hentry : ("f", ⟨1⟩) ∈ ((completedUnit.scope ⟨2⟩).table.space .value).entries := by decide
  exact ⟨hentry, (built_completedUnit.entries_agree_with_owners.1 _ _ _ _ hentry).1⟩

end Graph

end Scoping
