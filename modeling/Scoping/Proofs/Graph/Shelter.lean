import Scoping.Proofs.Graph.Publication

/-!
# Where private symbols are kept

A search goes from scope to scope along parents, superclasses and delegates, and none of these links
leads into a private partition (`Graph.Linked`). A scope that has a partition keeps its private
symbols there, and a partition lists symbols of its own unit only (`Graph.Sheltered`). Both hold
whatever the steps of an analysis and the publication of units do.
-/

namespace Scoping

namespace Graph

variable {g g' : Graph} {types : Set SymbolId} {flags : Flags} {p q target : ScopeId}
  {symbol : SymbolId}

/-! ### Links between scopes -/

/-- Links lead to scopes that are no partitions, and partitioned scopes have their partition. -/
structure Linked (g : Graph) : Prop where
  inner : ∀ {q}, (g.scope q).kind.isPartitioned = true → (g.scope q).inner ≠ none
  parent : ∀ {q p}, (g.scope q).parent = some p → (g.scope p).outer = none
  delegate : ∀ {q d}, (g.scope q).delegate = some d → g.MemberScope d
  super : ∀ {q p}, g.superScope? q = some p → g.MemberScope p
  members : ∀ {m}, g.MemberScope m → m.index < g.scopes.size ∧ (g.scope m).outer = none

/-- The links of old scopes stay as they are, and new scopes are linked properly. -/
theorem Linked.extend (hl : g.Linked) (hg : g.Nested) (hgrows : g.Extends g')
    (hscopes : ∀ q, g.scopes.size ≤ q.index →
      ((g'.scope q).kind.isPartitioned = true → (g'.scope q).inner ≠ none) ∧
        ∀ p, (g'.scope q).parent = some p → (g'.scope p).outer = none)
    (hdelegate : ∀ q d, (g'.scope q).delegate = some d →
      (g.scope q).delegate = some d ∨ g'.MemberScope d)
    (hsuper : ∀ q p, g'.superScope? q = some p → g.superScope? q = some p ∨ g'.MemberScope p)
    (hkeeps : ∀ m, g.MemberScope m → g'.MemberScope m)
    (hmembers : ∀ m, g'.MemberScope m → g.MemberScope m ∨
      m.index < g'.scopes.size ∧ (g'.scope m).outer = none) : g'.Linked where
  inner {q} hkind := by
    by_cases hq : q.index < g.scopes.size
    · rw [hgrows.kind hq] at hkind
      rw [hgrows.inner hq]
      exact hl.inner hkind
    · exact (hscopes q (Nat.le_of_not_lt hq)).1 hkind
  parent {q p} hparent := by
    by_cases hq : q.index < g.scopes.size
    · rw [hgrows.parent hq] at hparent
      have hp : p.index < g.scopes.size := Nat.lt_trans (hg.parent_lt hparent) hq
      rw [hgrows.outer hp, hl.parent hparent]
    · exact (hscopes q (Nat.le_of_not_lt hq)).2 p hparent
  delegate h := (hdelegate _ _ h).elim (fun hold => hkeeps _ (hl.delegate hold)) id
  super h := (hsuper _ _ h).elim (fun hold => hkeeps _ (hl.super hold)) id
  members {m} hm := by
    rcases hmembers m hm with hold | hnew
    · obtain ⟨hlt, houter⟩ := hl.members hold
      exact ⟨Nat.lt_of_lt_of_le hlt hgrows.size_le, by rw [hgrows.outer hlt, houter]⟩
    · exact hnew

/-- Edits that create no scope and no type. -/
theorem Linked.congr (hl : g.Linked) (hg : g.Nested) (hgrows : g.Extends g')
    (hsize : g'.scopes.size = g.scopes.size)
    (hdelegate : ∀ q d, (g'.scope q).delegate = some d →
      (g.scope q).delegate = some d ∨ g.MemberScope d)
    (hsuper : ∀ q p, g'.superScope? q = some p → g.superScope? q = some p ∨ g.MemberScope p)
    (hmembers : ∀ x, (g'.symbol x).members? = (g.symbol x).members?) : g'.Linked := by
  have hiff : ∀ m, g'.MemberScope m ↔ g.MemberScope m := fun m => by
    simp only [MemberScope, hmembers]
  refine hl.extend hg hgrows (fun q hq => ?_) (fun q d hd => ?_) (fun q p hp => ?_)
    (fun m => (hiff m).mpr) fun m hm => .inl ((hiff m).mp hm)
  · rw [scope_of_size_le (by omega : g'.scopes.size ≤ q.index)]
    exact ⟨by simp [Scope.blank, ScopeKind.isPartitioned], by simp [Scope.blank]⟩
  · exact (hdelegate q d hd).imp_right (hiff d).mpr
  · exact (hsuper q p hp).imp_right (hiff p).mpr

theorem Linked.newScope (hl : g.Linked) (hg : g.Nested) (kind : ScopeKind) {parent : ScopeId}
    (hlt : parent.index < g.scopes.size) (houter : (g.scope parent).outer = none) :
    (g.newScope kind (some parent)).2.Linked := by
  have hmembers : ∀ m, (g.newScope kind (some parent)).2.MemberScope m ↔ g.MemberScope m :=
    fun m => by simp only [MemberScope, symbol_newScope]
  refine hl.extend hg (.newScope kind _) (fun q hq => ?_) (fun q d hd => .inl ?_)
    (fun q p hp => .inl ?_) (fun m => (hmembers m).mpr) fun m hm => .inl ((hmembers m).mp hm)
  · rw [scope_newScope]
    split
    next =>
      refine ⟨fun hkind => by simp [hkind], fun p hp => ?_⟩
      cases hp
      rw [scope_newScope_of_lt g _ _ hlt, houter]
    next =>
      split
      next =>
        refine ⟨by simp [ScopeKind.isPartitioned], fun p hp => ?_⟩
        cases hp
        rw [scope_newScope, if_pos rfl]
      next =>
        rw [scope_of_size_le hq]
        exact ⟨by simp [Scope.blank, ScopeKind.isPartitioned], by simp [Scope.blank]⟩
  · rwa [scope_newScope_congr g Scope.delegate fun _ _ _ _ _ => rfl] at hd
  · rwa [superScope?_newScope] at hp

theorem Linked.alloc (hl : g.Linked) (hg : g.Nested) {s : Symbol}
    (hs : ∀ m, s.members? = some m → g.MemberScope m) : (g.alloc s).2.Linked := by
  refine hl.extend hg (grows_alloc s).toExtends (fun q hq => ?_) (fun q d hd => .inl hd)
    (fun q p hp => .inl hp) (fun m hm => (grows_alloc s).memberScope hm) fun m hm => .inl ?_
  · rw [scope_alloc, scope_of_size_le hq]
    exact ⟨by simp [Scope.blank, ScopeKind.isPartitioned], by simp [Scope.blank]⟩
  · obtain ⟨x, hx⟩ := hm
    rw [symbol_alloc] at hx
    split at hx
    · exact hs m hx
    · exact ⟨x, hx⟩

/-- The member scope of a new type is linked like any other scope. -/
theorem Linked.allocType (hl : g.Linked) (hg : g.Nested) {parent : ScopeId} (s : Symbol)
    (hlt : parent.index < g.scopes.size) (houter : (g.scope parent).outer = none) :
    (g.allocType parent s).2.Linked := by
  have hnew := hl.newScope hg .member hlt houter
  have hview : ∀ {β : Type} (π : Scope → β), (∀ s member, π { s with member } = π s) → ∀ q,
      π ((g.allocType parent s).2.scope q) = π ((g.newScope .member (some parent)).2.scope q) :=
    fun π hπ q => scope_modifyScope_congr π _ _ fun s => hπ s _
  have hkind := hview Scope.kind fun _ _ => rfl
  have hinner := hview Scope.inner fun _ _ => rfl
  have hparent := hview Scope.parent fun _ _ => rfl
  have houter' := hview Scope.outer fun _ _ => rfl
  refine hl.extend hg (grows_allocType parent s).toExtends (fun q _ => ⟨?_, fun p hp => ?_⟩)
    (fun q d hd => .inl ?_) (fun q p hp => .inl (superScope?_allocType parent s q ▸ hp))
    (fun m hm => (grows_allocType parent s).memberScope hm) fun m hm => ?_
  · rw [hkind, hinner]
    exact hnew.inner
  · rw [hparent] at hp
    rw [houter', hnew.parent hp]
  · rwa [hview Scope.delegate fun _ _ => rfl,
      scope_newScope_congr g Scope.delegate fun _ _ _ _ _ => rfl] at hd
  · obtain ⟨x, hx⟩ := hm
    rw [symbol_allocType] at hx
    split at hx
    next =>
      -- the new symbol is a type only if its data says so, and then of the new scope
      have hm : m = ⟨g.scopes.size⟩ := by
        unfold Symbol.members? at hx
        cases hd : s.data <;> simp_all [SymbolData.setMembers, SymbolData.members?]
      subst hm
      refine .inr ⟨?_, ?_⟩
      · simp [Graph.allocType, modifyData, newMemberScope, size_scopes_newScope,
          ScopeKind.isPartitioned]
      · rw [houter', scope_newScope, if_pos rfl]
    next => exact .inl ⟨x, hx⟩

/-- Only the member scopes of types become delegates. -/
theorem Step.delegate_cases (h : Step types g g') {d : ScopeId}
    (hd : (g'.scope q).delegate = some d) : (g.scope q).delegate = some d ∨ g.MemberScope d := by
  cases h with
  | newScope =>
    refine .inl ?_
    rwa [scope_newScope_congr g Scope.delegate fun _ _ _ _ _ => rfl] at hd
  | alloc | amendSymbol => exact .inl hd
  | allocType =>
    refine .inl ?_
    rwa [scope_allocType, scope_newMemberScope_congr g Scope.delegate (fun _ _ _ _ _ => rfl)
      fun _ _ => rfl] at hd
  | @amendScope p f h =>
    rw [scope_modifyScope] at hd
    split at hd
    next hq =>
      obtain ⟨rfl, -⟩ := hq
      rcases h.delegate with heq | ⟨-, hmembers⟩
      · exact .inl (heq ▸ hd)
      · exact .inr (hmembers d hd)
    next => exact .inl hd
  | link =>
    refine .inl ?_
    rwa [scope_modifyMember_congr Scope.delegate fun _ _ => rfl] at hd
  | declare =>
    refine .inl ?_
    rwa [scope_declare_congr Scope.delegate fun _ _ _ _ => rfl] at hd
  | declareSlot =>
    refine .inl ?_
    rwa [scope_declareSlot_congr Scope.delegate fun _ _ _ => rfl] at hd
  | putSlot =>
    refine .inl ?_
    rwa [Graph.putSlot, scope_modifySymbol,
      scope_modifyMember_congr Scope.delegate fun _ _ => rfl] at hd

/-- Only the member scopes of types become superclasses. -/
theorem Step.super_cases (h : Step types g g') (hp : g'.superScope? q = some p) :
    g.superScope? q = some p ∨ g.MemberScope p := by
  rcases h.superScope?_cases with heq | ⟨c, super, members, -, -, -, -, rfl⟩
  · exact .inl (heq q ▸ hp)
  · rw [superScope?_linkSuper] at hp
    split at hp
    · exact .inr ⟨super, hp⟩
    · exact .inl hp

/-- Links still lead to scopes that are no partitions. -/
theorem Step.linked (hg : g.Coherent) (h : Step types g g') (hl : g.Linked) : g'.Linked := by
  have hcongr (hsize : g'.scopes.size = g.scopes.size)
      (hmembers : ∀ x, (g'.symbol x).members? = (g.symbol x).members?) : g'.Linked :=
    hl.congr hg.nested h.grows.toExtends hsize (fun _ _ hd => h.delegate_cases hd)
      (fun _ _ hp => h.super_cases hp) hmembers
  cases h with
  | newScope hparent houter => exact hl.newScope hg.nested _ hparent houter
  | alloc hs => exact hl.alloc hg.nested hs.members
  | allocType _ _ hparent =>
    exact hl.allocType hg.nested _ hparent.inside.lt_size hparent.outer_eq_none
  | amendScope => exact hcongr (size_scopes_modifyScope _ _ _) fun _ => rfl
  | amendSymbol h =>
    exact hcongr rfl (symbol_modifySymbol_rel (fun s s' => s'.members? = s.members?) (fun _ => rfl)
      (congrArg Core.members? h.core))
  | link => exact hcongr (by simp [modifyMember]) fun _ => rfl
  | declare =>
    exact hcongr size_scopes_declare (symbol_declare_congr Symbol.members? fun _ _ _ _ => rfl)
  | declareSlot =>
    refine hcongr size_scopes_declareSlot fun x => ?_
    rw [Symbol.members?, Symbol.members?, data_declareSlot]
  | putSlot =>
    refine hcongr (by simp [Graph.putSlot, modifyMember]) fun x => ?_
    exact symbol_modifySymbol_congr Symbol.members? _ _ fun _ => rfl

/-! ### Private symbols -/

/-- A private symbol that a scope itself lists is local to a scope without partition, and what a
partition lists belongs to its unit. -/
structure Sheltered (g : Graph) : Prop where
  entry : ∀ {q ns name x}, (g.scope q).table.get? ns name = some x →
    (g.symbol x).flags.isPrivate = true → (g.scope q).outer = none →
    g.Inside q ∧ (g.scope q).inner = none
  partition : ∀ {q ns name x}, (g.scope q).table.get? ns name = some x →
    (g.scope q).outer ≠ none → g.Inside q

/-- Symbols keep their visibility, once they have been declared. -/
theorem Step.access_eq (h : Step types g g') {x : SymbolId} (hlt : x.index < g.symbols.size)
    (hfresh : ¬ g.Fresh x) : (g'.symbol x).flags.access = (g.symbol x).flags.access := by
  cases h with
  | newScope => rw [symbol_newScope]
  | alloc => rw [symbol_alloc, if_neg (Nat.ne_of_lt hlt)]
  | allocType => rw [symbol_allocType, if_neg (Nat.ne_of_lt hlt)]
  | amendScope => rfl
  | @amendSymbol y f h =>
    by_cases hy : x = y
    · subst hy
      rw [symbol_modifySymbol_self hlt, h.access]
    · rw [symbol_modifySymbol_of_ne hy]
  | link => rfl
  | @declare target symbol _ hsymbol =>
    have hne : x ≠ symbol := fun h => hfresh (h ▸ hsymbol)
    rw [symbol_declare_stamp Symbol.flags fun _ _ _ => rfl, symbol_stamp_of_ne hne]
  | @declareSlot scope role symbol _ hsymbol =>
    have hne : x ≠ symbol := fun h => hfresh (h ▸ hsymbol)
    rw [symbol_declareSlot_stamp Symbol.flags fun _ _ _ => rfl, symbol_modifySymbol_of_ne hne]
  | putSlot => exact symbol_modifySymbol_congr (fun s => s.flags.access) _ _ fun _ => rfl

theorem Step.isPrivate_eq (h : Step types g g') {x : SymbolId} (hlt : x.index < g.symbols.size)
    (hfresh : ¬ g.Fresh x) : (g'.symbol x).flags.isPrivate = (g.symbol x).flags.isPrivate :=
  congrArg (·.2.2) (h.access_eq hlt hfresh)

theorem isPrivate_effectiveFlags (g : Graph) (p : ScopeId) (h : flags.isPrivate = true) :
    (g.effectiveFlags p flags).isPrivate = true := by
  simp only [effectiveFlags]
  split <;> split <;> first | exact h | rfl

/-- A symbol that says that it is public is not made private. -/
theorem isPrivate_effectiveFlags_of_isPublic (g : Graph) (p : ScopeId) (h : flags.isPublic = true) :
    (g.effectiveFlags p flags).isPrivate = flags.isPrivate := by
  simp only [effectiveFlags]
  split <;> simp [Flags.hasVisibility, h]

/-- The flags with which a symbol is declared. -/
theorem flags_declare (h : symbol.index < g.symbols.size) :
    ((g.declare target symbol).2.symbol symbol).flags =
      g.effectiveFlags (g.owner target) (g.symbol symbol).flags := by
  rw [symbol_declare_stamp Symbol.flags fun _ _ _ => rfl, flags_stamp_self h]

variable (hg : g.Coherent)

include hg

/-- A private symbol is entered into a partition, unless there is none. -/
theorem Entering.inner_eq_none (hs : g.Sheltered) (hsymbol : g.Fresh symbol)
    (h : g.Entering target symbol p)
    (hprivate : ((g.declare target symbol).2.symbol symbol).flags.isPrivate = true)
    (houter : (g.scope p).outer = none) : (g.scope p).inner = none := by
  rw [flags_declare hsymbol.lt_size] at hprivate
  cases h with
  | add hv =>
    simp only [landing, placeFor, hprivate, if_true] at houter ⊢
    split at houter
    next inner hinner =>
      rw [hg.nested.partitioned.outer_of_inner hinner] at houter
      cases houter
    next hinner => rw [hinner]
  | @replace old _ hv hold =>
    -- the forward declaration was private as well, and it is where the symbol goes
    have hentry := (hg.home_of_replace hv hold).2
    have hflags := (met?_of_decide_eq_replace (verdict_eq ▸ hv)).2.2.2.2.2
    rw [flags_stamp_self hsymbol.lt_size,
      symbol_stamp_of_ne (ne_of_verdict_eq_replace hv)] at hflags
    have hold' : (g.symbol old).flags.isPrivate = true :=
      (congrArg Flags.isPrivate hflags).trans (isPrivate_effectiveFlags _ _ hprivate)
    exact (hs.entry hentry hold' houter).2

theorem Sheltered.calm (hs : g.Sheltered) (hgrows : g.Grows g') (hcalm : g.Calm g')
    (hprivate : ∀ x, x.index < g.symbols.size → ¬ g.Fresh x →
      (g'.symbol x).flags.isPrivate = (g.symbol x).flags.isPrivate) : g'.Sheltered where
  entry {q ns name x} hx hpriv houter := by
    rw [hcalm.get?] at hx
    have hq := lt_size_of_get? hx
    rw [hprivate x (hg.entry hx).1 fun hfresh => hfresh.not_listed ⟨q, ns, name, hx⟩] at hpriv
    rw [hgrows.outer hq] at houter
    rw [hgrows.inner hq]
    exact (hs.entry hx hpriv houter).imp_left (hgrows.inside hg.nested)
  partition {q ns name x} hx houter := by
    rw [hcalm.get?] at hx
    rw [hgrows.outer (lt_size_of_get? hx)] at houter
    exact hgrows.inside hg.nested (hs.partition hx houter)

/-- No step lists a private symbol where other units see it. -/
theorem Step.sheltered (h : Step types g g') (hs : g.Sheltered) : g'.Sheltered := by
  rcases h.cases hg with hcalm | ⟨target, symbol, p, htarget, hsymbol, -, -, hdeclare, henters, hp⟩
  · exact hs.calm hg h.grows hcalm fun x hlt hfresh => h.isPrivate_eq hlt hfresh
  · have hgrows := h.grows
    refine ⟨fun {q ns name x} hx hpriv houter => ?_, fun {q ns name x} hx houter => ?_⟩
    · rw [henters.get?] at hx
      split at hx
      next hkey =>
        obtain ⟨rfl, -, -⟩ := hkey
        cases hx
        have hq := henters.inside.lt_size
        rw [hgrows.outer hq] at houter
        rw [hgrows.inner hq]
        exact ⟨hgrows.inside hg.nested henters.inside,
          hp.inner_eq_none hg hs hsymbol (hdeclare ▸ hpriv) houter⟩
      next =>
        have hq := lt_size_of_get? hx
        rw [h.isPrivate_eq (hg.entry hx).1 fun hfresh => hfresh.not_listed ⟨q, ns, name, hx⟩]
          at hpriv
        rw [hgrows.outer hq] at houter
        rw [hgrows.inner hq]
        exact (hs.entry hx hpriv houter).imp_left (hgrows.inside hg.nested)
    · rw [henters.get?] at hx
      split at hx
      next hkey =>
        obtain ⟨rfl, -, -⟩ := hkey
        exact hgrows.inside hg.nested henters.inside
      next =>
        rw [hgrows.outer (lt_size_of_get? hx)] at houter
        exact hgrows.inside hg.nested (hs.partition hx houter)

/-! ### The invariant of a session -/

/-- No link leads into a partition, and private symbols are behind one. -/
structure Discreet (g : Graph) : Prop where
  linked : g.Linked
  sheltered : g.Sheltered

theorem Steps.discreet (h : Steps types g g') (hd : g.Discreet) : g'.Discreet := by
  induction h with
  | refl => exact hd
  | tail hfirst hstep ih =>
    have hmid := hg.steps hfirst
    exact ⟨hstep.linked hmid ih.linked, hstep.sheltered hmid ih.sheltered⟩

/-- Publishing links nothing. -/
theorem Publish.linked (h : Publish g g') (hd : g.Discreet) : g'.Linked := by
  have hp := h.publishing hg
  cases h with
  | openModule name hdst =>
    have hsteps := (subModule_steps ∅ hg.nested name hdst.lt_size hdst.isRoot).1
    exact (Steps.discreet hg hsteps hd).linked
  | enter =>
    refine hd.linked.congr hg.nested hp.toExtends (size_scopes_modifyScope _ _ _)
      (fun q d hlink => .inl ?_) (fun q p hlink => .inl ?_) fun _ => rfl
    · exact scope_modifyScope_rel (fun s s' => s'.delegate = some d → s.delegate = some d)
        (fun _ => id) id q hlink
    · rwa [superScope?, memberInfo?, hp.member] at hlink

/-- What is published is not private: it comes from the own table of a unit or module. -/
theorem Publishing.sheltered (h : g.Publishing g') (hg' : g'.Nested) (hd : g.Discreet) :
    g'.Sheltered where
  entry {q ns name x} hx hprivate houter := by
    rw [h.symbol] at hprivate
    rcases h.entry hx with hx | ⟨-, src, hsrc, hx⟩
    · have hlt := lt_size_of_get? hx
      rw [h.outer hlt] at houter
      rw [h.inner hlt]
      exact (hd.sheltered.entry hx hprivate houter).imp_left (h.inside hg.nested)
    · refine absurd (hd.sheltered.entry hx hprivate (hsrc.outer_eq_none hg.nested)).2
        (hd.linked.inner ?_)
      rcases hsrc.kind with hkind | hkind <;> rw [hkind] <;> rfl
  partition {q ns name x} hx houter := by
    rcases h.entry hx with hx | ⟨hq, -⟩
    · rw [h.outer (lt_size_of_get? hx)] at houter
      exact h.inside hg.nested (hd.sheltered.partition hx houter)
    · refine absurd (hg'.outer_of_kind fun hinner => ?_) houter
      have hroot := hq.isRoot
      rw [hinner] at hroot
      cases hroot

theorem Publishes.discreet (h : Publishes g g') (hd : g.Discreet) : g'.Discreet := by
  induction h with
  | refl => exact hd
  | tail hfirst hlast ih =>
    have hmid := (Publishes.spec hg hfirst).1
    exact ⟨hlast.linked hmid ih,
      (hlast.publishing hmid).sheltered hmid (hlast.coherent hmid).nested ih⟩

omit hg

end Graph

end Scoping
