import Scoping.Graph.Export
import Scoping.Proofs.Graph.Site

/-!
# Publishing a unit

Publishing enters symbols of a unit, under the keys that they have there, into tables outside every
unit, and opens the modules for them. It changes no symbol and no table of a unit. An entry that was
published stays, whatever becomes of the symbol.
-/

namespace Scoping

namespace Graph

variable {g g' : Graph} {ns : Namespace} {dst src : ScopeId} {name : String} {x : SymbolId}

/-! ### Publishing -/

/-- A scope that units are published in. -/
structure Outlet (g : Graph) (q : ScopeId) : Prop where
  not_inside : ¬ g.Inside q
  isRoot : (g.scope q).kind.isRoot = true

theorem Outlet.lt_size {q : ScopeId} (h : g.Outlet q) : q.index < g.scopes.size :=
  lt_size_of_kind fun hkind => by
    have hroot := h.isRoot
    rw [hkind] at hroot
    cases hroot

/-- A scope that is published: a unit, or a module of one. -/
structure Source (g : Graph) (src : ScopeId) : Prop where
  inside : g.Inside src
  kind : (g.scope src).kind = .unit ∨ (g.scope src).kind = .module

/-- A route of a publication leads from a scope that is published to one to publish in. -/
structure Route (g : Graph) (src dst : ScopeId) : Prop extends g.Source src where
  outlet : g.Outlet dst

/-- The edits that publish a unit: only entries of units and modules are published. -/
inductive Publish : Graph → Graph → Prop where
  | openModule {g : Graph} {dst : ScopeId} (name : String) : g.Outlet dst →
    Publish g (g.subModule dst name).2
  | enter {g : Graph} {src dst : ScopeId} {ns : Namespace} {name : String} {x : SymbolId} :
    g.Route src dst → (g.scope dst).table.get? ns name = none →
    (g.scope src).table.get? ns name = some x →
    Publish g (g.modifyScope dst fun s => { s with table := s.table.insert ns name x })

/-- Sequences of publishing edits. -/
def Publishes : Graph → Graph → Prop := Relation.ReflTransGen Publish

theorem subModule_of_find? {parent m : ScopeId} {name : String}
    (h : (g.scope parent).modules.find? name = some m) : g.subModule parent name = (m, g) := by
  simp only [subModule, h]

theorem symbols_subModule (parent : ScopeId) (name : String) (x : SymbolId) :
    (g.subModule parent name).2.symbol x = g.symbol x := by
  simp only [subModule]
  split
  · rfl
  · rw [symbol_modifyScope, symbol_modifyScope, symbol_newScope]

theorem scope_subModule_congr {β : Type} (π : Scope → β)
    (hnew : ∀ kind parent inner sealed outer, π { kind, parent, inner, sealed, outer } = π .blank)
    (h : ∀ s name modules, π { s with name, modules } = π s) (parent : ScopeId) (name : String)
    (q : ScopeId) : π ((g.subModule parent name).2.scope q) = π (g.scope q) := by
  simp only [subModule]
  split
  · rfl
  · rw [scope_modifyScope_congr π _ _ fun s => h s s.name _,
      scope_modifyScope_congr π _ _ fun s => h s _ s.modules, scope_newScope_congr g π hnew]

/-- A published entry is new in its table. -/
theorem get?_insertEntry (hdst : g.Outlet dst) (hfree : (g.scope dst).table.get? ns name = none)
    (q : ScopeId) (ns' : Namespace) (name' : String) :
    ((g.modifyScope dst fun s => { s with table := s.table.insert ns name x }).scope
      q).table.get? ns' name' =
      if q = dst ∧ ns' = ns ∧ name' = name then some x else (g.scope q).table.get? ns' name' := by
  rw [apply_scope_modifyScope Scope.table]
  by_cases hq : q = dst
  · subst hq
    simp only [hdst.lt_size, and_self, if_true, true_and]
    exact Table.get?_insert hfree ns' name'
  · simp [hq]

theorem Grows.outlet (hg : g.Nested) (h : g.Grows g') {q : ScopeId} (hq : g.Outlet q) :
    g'.Outlet q :=
  ⟨by rw [h.inside_iff hg hq.lt_size]; exact hq.not_inside, by rw [h.kind hq.lt_size, hq.isRoot]⟩

theorem Source.grows (hg : g.Nested) (h : g.Grows g') (hsrc : g.Source src) : g'.Source src :=
  ⟨h.inside hg hsrc.inside, by rw [h.kind hsrc.inside.lt_size]; exact hsrc.kind⟩

theorem Source.outer_eq_none (hg : g.Nested) (hsrc : g.Source src) : (g.scope src).outer = none :=
  hg.outer_of_kind fun h => by rcases hsrc.kind with hkind | hkind <;> cases h.symm.trans hkind

/-- What publishing does to the views. -/
structure Publishing (g g' : Graph) : Prop extends Grows g g' where
  symbol : ∀ x, g'.symbol x = g.symbol x
  dropped_eq : ∀ q, (g'.scope q).dropped = (g.scope q).dropped
  member : ∀ q, (g'.scope q).member = (g.scope q).member
  keeps : ∀ {q ns name x}, (g.scope q).table.get? ns name = some x →
    (g'.scope q).table.get? ns name = some x
  entry : ∀ {q ns name x}, (g'.scope q).table.get? ns name = some x →
    (g.scope q).table.get? ns name = some x ∨
      g'.Outlet q ∧ ∃ src, g.Source src ∧ (g.scope src).table.get? ns name = some x

/-- A step of a publication enters a symbol at a free key outside of units, or opens a module. -/
theorem Publish.publishing (hg : g.Coherent) (h : Publish g g') : g.Publishing g' := by
  cases h with
  | @openModule dst name hdst =>
    have htable : ∀ q, ((g.subModule dst name).2.scope q).table = (g.scope q).table :=
      scope_subModule_congr Scope.table (fun _ _ _ _ _ => rfl) (fun _ _ _ => rfl) dst name
    refine ⟨(subModule_steps ∅ hg.nested name hdst.lt_size hdst.isRoot).1.grows,
      symbols_subModule dst name,
      scope_subModule_congr Scope.dropped (fun _ _ _ _ _ => rfl) (fun _ _ _ => rfl) dst name,
      scope_subModule_congr Scope.member (fun _ _ _ _ _ => rfl) (fun _ _ _ => rfl) dst name,
      fun {q ns name x} h => ?_, fun {q ns name x} h => .inl ?_⟩
    · rwa [htable]
    · rwa [htable] at h
  | @enter src dst ns name x hroute hfree hx =>
    have hdst := hroute.outlet
    have hgrows : g.Grows (g.modifyScope dst fun s =>
        { s with table := s.table.insert ns name x }) :=
      grows_modifyScope rfl (fun h => h) fun _ h => h
    refine ⟨hgrows, fun _ => rfl,
      fun q => scope_modifyScope_congr Scope.dropped _ _ fun _ => rfl,
      fun q => scope_modifyScope_congr Scope.member _ _ fun _ => rfl,
      fun {q ns' name' y} h => ?_, fun {q ns' name' y} h => ?_⟩
    · rw [get?_insertEntry hdst hfree, if_neg, h]
      rintro ⟨rfl, rfl, rfl⟩
      rw [hfree] at h
      cases h
    · rw [get?_insertEntry hdst hfree] at h
      split at h
      next hkey =>
        obtain ⟨rfl, rfl, rfl⟩ := hkey
        cases h
        exact .inr ⟨hgrows.outlet hg.nested hdst, src, hroute.toSource, hx⟩
      next => exact .inl h

namespace Publishing

variable {g'' : Graph} {q : ScopeId}

protected theorem refl : g.Publishing g :=
  ⟨.refl, fun _ => rfl, fun _ => rfl, fun _ => rfl, fun h => h, .inl⟩

protected theorem trans (hg : g.Nested) (hg' : g'.Nested) (h : g.Publishing g')
    (h' : g'.Publishing g'') : g.Publishing g'' where
  toGrows := h.toGrows.trans h'.toGrows
  symbol x := (h'.symbol x).trans (h.symbol x)
  dropped_eq q := (h'.dropped_eq q).trans (h.dropped_eq q)
  member q := (h'.member q).trans (h.member q)
  keeps hx := h'.keeps (h.keeps hx)
  entry hx := by
    rcases h'.entry hx with hx | ⟨hq, src, hsrc, hx⟩
    · exact (h.entry hx).imp_right (And.imp_left (h'.outlet hg'))
    · refine .inr ⟨hq, ?_⟩
      rcases h.entry hx with hx | ⟨-, hbefore⟩
      · have hlt := lt_size_of_get? hx
        exact ⟨src, ⟨(h.inside_iff hg hlt).mp hsrc.inside, h.kind hlt ▸ hsrc.kind⟩, hx⟩
      · exact hbefore

variable (h : g.Publishing g')

include h

theorem listed_iff (x : SymbolId) : g'.Listed x ↔ g.Listed x := by
  constructor
  · rintro ⟨q, ns, name, hx⟩
    rcases h.entry hx with hx | ⟨-, src, -, hx⟩ <;> exact ⟨_, ns, name, hx⟩
  · rintro ⟨q, ns, name, hx⟩
    exact ⟨q, ns, name, h.keeps hx⟩

theorem slot?_eq (p : ScopeId) (role : Role) (name : String) :
    g'.slot? p role name = g.slot? p role name := by
  rw [slot?, slot?, memberInfo?, memberInfo?, h.member]

/-- The tables of units stay as they are. -/
theorem get?_of_inside (hq : g'.Inside q) (ns : Namespace) (name : String) :
    (g'.scope q).table.get? ns name = (g.scope q).table.get? ns name :=
  Option.ext fun _ =>
    ⟨fun hx => (h.entry hx).resolve_right fun hout => hout.1.not_inside hq, h.keeps⟩

/-- Publishing keeps the graph coherent, as long as its scopes are nested and its tables
functional. -/
theorem coherent (hg : g.Coherent) (hnested : g'.Nested)
    (hfunctional : ∀ q, (g'.scope q).table.Functional) : g'.Coherent where
  nested := hnested
  functional := hfunctional
  entry {q ns name x} hx := by
    rw [h.symbol]
    have hentry : ∃ p, (g.scope p).table.get? ns name = some x := by
      rcases h.entry hx with hx | ⟨-, src, -, hx⟩ <;> exact ⟨_, hx⟩
    obtain ⟨p, hp⟩ := hentry
    obtain ⟨hlt, hkey⟩ := hg.entry hp
    exact ⟨Nat.lt_of_lt_of_le hlt h.symbols_le, hkey⟩
  home hq hx := by
    rw [h.get?_of_inside hq] at hx
    rw [h.symbol]
    exact hg.home ((h.inside_iff hg.nested (lt_size_of_get? hx)).mp hq) hx
  owned hx hscope := by
    rw [h.symbol] at hscope ⊢
    exact h.keeps (hg.owned ((h.listed_iff _).mp hx) hscope)
  managed hscope := by
    rw [h.symbol] at hscope ⊢
    exact (hg.managed hscope).imp_left (h.inside hg.nested)
  dropped hx := by
    rw [h.dropped_eq] at hx
    rw [h.symbol]
    exact (hg.dropped hx).imp_left fun hlt => Nat.lt_of_lt_of_le hlt h.symbols_le
  stale hx hscope := by
    rw [h.symbol] at hscope
    obtain ⟨p, hp⟩ := hg.stale ((h.listed_iff _).mp hx) hscope
    exact ⟨p, h.toGrows.dropped hp⟩
  slot hx := by
    rw [h.slot?_eq] at hx
    rw [h.symbol, h.listed_iff]
    exact hg.slot hx
  slot_unique hx hx' := by
    rw [h.slot?_eq] at hx hx'
    exact hg.slot_unique hx hx'
  typed := hg.typed_of_data h.toGrows (fun x => by rw [h.symbol]) _ _

end Publishing

theorem Publish.coherent (hg : g.Coherent) (h : Publish g g') : g'.Coherent := by
  have hp := h.publishing hg
  cases h with
  | openModule name hdst =>
    exact hg.steps (subModule_steps ∅ hg.nested name hdst.lt_size hdst.isRoot).1
  | enter =>
    refine hp.coherent hg (hg.nested.modifyScope rfl (fun h => h) fun _ _ h => .inl h)
      fun q => ?_
    exact scope_modifyScope_rel (fun s s' => s.table.Functional → s'.table.Functional)
      (fun _ h => h) (fun h => h.insert) q (hg.functional q)

/-- What a whole publication does. -/
theorem Publishes.spec (hg : g.Coherent) (h : Publishes g g') :
    g'.Coherent ∧ g.Publishing g' := by
  induction h with
  | refl => exact ⟨hg, .refl⟩
  | tail _ hstep ih =>
    obtain ⟨hmid, hp⟩ := ih
    exact ⟨hstep.coherent hmid, hp.trans hg.nested hmid.nested (hstep.publishing hmid)⟩

/-! ### Publishing a unit -/

theorem Route.publishing (hg : g.Nested) (h : g.Publishing g') (hroute : g.Route src dst) :
    g'.Route src dst :=
  ⟨hroute.toSource.grows hg h.toGrows, h.outlet hg hroute.outlet⟩

/-- A route leads on into the module that is opened where it ends. -/
theorem Route.subModule {src dst : ScopeId} (hg : g.Coherent) (hroute : g.Route src dst)
    (name : String) : (g.subModule dst name).2.Route src (g.subModule dst name).1 := by
  have hopen : Publishes g (g.subModule dst name).2 := .single (.openModule name hroute.outlet)
  obtain ⟨hg', hp⟩ := hopen.spec hg
  obtain ⟨-, hparent, hkind⟩ :=
    subModule_steps ∅ hg.nested name hroute.outlet.lt_size hroute.outlet.isRoot
  refine ⟨hroute.toSource.grows hg.nested hp.toGrows, fun hin => ?_, by rw [hkind]; rfl⟩
  exact (hp.outlet hg.nested hroute.outlet).not_inside
    ((hg'.nested.inside_module_iff hparent hkind).mp hin)

/-- A fold publishes if its steps do. The invariant `I` of the items outlasts publications, and
`J` is one of the accumulator. -/
theorem foldl_publishes {α β : Type} {π : β → Graph} {f : β → α → β} {I : Graph → α → Prop}
    {J : β → Prop}
    (hkeep : ∀ g g' a, g.Coherent → g.Publishing g' → I g a → I g' a)
    (hstep : ∀ b a, (π b).Coherent → I (π b) a → J b → Publishes (π b) (π (f b a)) ∧ J (f b a)) :
    ∀ (items : List α) (b : β), (π b).Coherent → (∀ a ∈ items, I (π b) a) → J b →
      Publishes (π b) (π (items.foldl f b)) ∧ J (items.foldl f b)
  | [], _, _, _, hb => ⟨.refl, hb⟩
  | a :: rest, b, hg, hitems, hb => by
    obtain ⟨hpub, hb'⟩ := hstep b a hg (hitems a List.mem_cons_self) hb
    obtain ⟨hg', hp⟩ := hpub.spec hg
    obtain ⟨hrest, hend⟩ := foldl_publishes hkeep hstep rest (f b a) hg'
      (fun a ha => hkeep _ _ a hg hp (hitems a (List.mem_cons_of_mem _ ha))) hb'
    exact ⟨hpub.trans hrest, hend⟩

theorem exportEntry_publishes {acc : List ExportConflict × Graph} (hroute : acc.2.Route src dst)
    (hx : (acc.2.scope src).table.get? ns name = some x) :
    Publishes acc.2 (exportEntry dst acc (ns, name, x)).2 := by
  simp only [exportEntry]
  split
  next hfree => exact .single (.enter hroute hfree hx)
  next => split <;> exact .refl

theorem exportTable_publishes (acc : List ExportConflict × Graph) (hg : acc.2.Coherent)
    (hroute : acc.2.Route src dst) : Publishes acc.2 (exportTable acc src dst).2 := by
  refine (foldl_publishes (π := Prod.snd) (f := exportEntry dst) (I := fun g entry =>
    g.Route src dst ∧ (g.scope src).table.get? entry.1 entry.2.1 = some entry.2.2)
    (J := fun _ => True) (fun g g' entry hg hp h => ⟨.publishing hg.nested hp h.1, hp.keeps h.2⟩)
    (fun acc entry _ h _ => ⟨exportEntry_publishes h.1 h.2, trivial⟩) _ acc hg
    (fun entry h => ⟨hroute, ?_⟩) trivial).1
  obtain ⟨ns, -, h⟩ := List.mem_flatMap.mp h
  obtain ⟨binding, hbinding, rfl⟩ := List.mem_map.mp h
  exact NameMap.find?_of_mem_entries (hg.functional src ns) hbinding

/-- One module is published, and its pair is a route for its own modules. -/
theorem exportModule_publishes {m : ScopeId}
    {acc : List (ScopeId × ScopeId) × List ExportConflict × Graph} (hg : acc.2.2.Coherent)
    (hroute : acc.2.2.Route m dst) (hpairs : ∀ pair ∈ acc.1, acc.2.2.Route pair.1 pair.2) :
    Publishes acc.2.2 (exportModule dst acc (name, m)).2.2 ∧
      ∀ pair ∈ (exportModule dst acc (name, m)).1,
        (exportModule dst acc (name, m)).2.2.Route pair.1 pair.2 := by
  obtain ⟨pairs, conflicts, g⟩ := acc
  have hopen : Publishes g (g.subModule dst name).2 := .single (.openModule name hroute.outlet)
  obtain ⟨hg', hp⟩ := hopen.spec hg
  have hroute' := hroute.subModule hg name
  have htable := exportTable_publishes (conflicts, (g.subModule dst name).2) hg' hroute'
  obtain ⟨-, hp'⟩ := htable.spec hg'
  refine ⟨hopen.trans htable, fun pair hpair => .publishing hg'.nested hp' ?_⟩
  rcases List.mem_cons.mp hpair with rfl | hpair
  · exact hroute'
  · exact .publishing hg.nested hp (hpairs pair hpair)

theorem exportModules_publishes : ∀ (fuel : Nat) (acc : List ExportConflict × Graph)
    (pair : ScopeId × ScopeId), acc.2.Coherent → acc.2.Route pair.1 pair.2 →
    Publishes acc.2 (exportModules fuel acc pair).2
  | 0, _, _, _, _ => .refl
  | fuel + 1, acc, (src, dst), hg, hroute => by
    rw [exportModules]
    have hmodules := foldl_publishes (π := fun acc => acc.2.2) (f := exportModule dst)
      (I := fun g entry => g.Route entry.2 dst)
      (J := fun acc => ∀ pair ∈ acc.1, acc.2.2.Route pair.1 pair.2)
      (fun g g' entry hg hp h => .publishing hg.nested hp h)
      (fun acc entry hg h hpairs => exportModule_publishes hg h hpairs)
      (acc.2.scope src).modules.entries ([], acc) hg
      (fun entry h => ?_) (fun _ h => by cases h)
    · obtain ⟨hfold, hpairs⟩ := hmodules
      obtain ⟨hg', hp⟩ := hfold.spec hg
      exact hfold.trans (foldl_publishes (π := Prod.snd) (f := exportModules fuel)
        (I := fun g pair => g.Route pair.1 pair.2)
        (J := fun _ => True) (fun g g' pair hg hp h => .publishing hg.nested hp h)
        (fun acc pair hg h _ => ⟨exportModules_publishes fuel acc pair hg h, trivial⟩)
        _ _ hg' hpairs trivial).1
    · obtain ⟨hparent, hkind⟩ := hg.nested.module h
      exact ⟨⟨(hg.nested.inside_module_iff hparent hkind).mpr hroute.inside, .inr hkind⟩,
        hroute.outlet⟩

/-- Publishing a unit is a sequence of publishing edits. -/
theorem exportUnit_publishes (hg : g.Coherent) {unit : ScopeId} (hunit : g.Inside unit)
    (hkind : (g.scope unit).kind = .unit) : Publishes g (g.exportUnit unit).2 := by
  have hroute : g.Route unit global :=
    ⟨⟨hunit, .inl hkind⟩, hg.nested.not_inside_global, by rw [hg.nested.kind_global]; rfl⟩
  have htable := exportTable_publishes ([], g) hg hroute
  obtain ⟨hg', hp⟩ := htable.spec hg
  exact htable.trans (exportModules_publishes _ _ (unit, global) hg'
    (.publishing hg.nested hp hroute))

end Graph

end Scoping
