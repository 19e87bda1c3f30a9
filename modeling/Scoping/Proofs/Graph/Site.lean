import Scoping.Proofs.Graph.Effect

/-!
# Where a unit declares its symbols

While a unit is declared, no class has a superclass yet, so that a declaration looks at the scopes
around it and nowhere else. Members that are copied from traits come later, and the bodies of copied
functions are marked by a delegate. A `Graph.Site` is a scope of a unit in one of these two
situations; steps that leave superclass links alone do not change that.
-/

namespace Scoping

namespace Graph

variable {g g' : Graph} {types : Set SymbolId} {role : Role} {parent scope : ScopeId}
  {types' : Set SymbolId} {symbol : SymbolId}

/-! ### Superclass links -/

theorem Step.mono (htypes : types ⊆ types') (h : Step types g g') : Step types' g g' := by
  cases h with
  | newScope hparent houter hroot => exact .newScope hparent houter hroot
  | alloc hs => exact .alloc hs
  | allocType hs hmanaged hparent => exact .allocType hs hmanaged hparent
  | amendScope h => exact .amendScope h
  | amendSymbol h =>
    exact .amendSymbol { h with resolution_eq := h.resolution_eq.imp_left fun hx => htypes hx }
  | link hsuper hmembers hopen hresolved => exact .link (htypes hsuper) hmembers hopen hresolved
  | declare htarget hsymbol hlatest hfree => exact .declare htarget hsymbol hlatest hfree
  | declareSlot hscope hsymbol => exact .declareSlot hscope hsymbol
  | putSlot hscope hsymbol => exact .putSlot hscope hsymbol

theorem Steps.mono (htypes : types ⊆ types') (h : Steps types g g') : Steps types' g g' :=
  Relation.ReflTransGen.mono (fun _ _ => Step.mono htypes) g g' h

theorem superScope?_putSlot (q : ScopeId) :
    (g.putSlot scope role symbol).superScope? q = g.superScope? q := by
  rw [superScope?, superScope?, memberInfo?, memberInfo?, member_putSlot]
  split
  · cases (g.scope q).member with
    | none => rfl
    | some info => cases role <;> rfl
  · rfl

theorem superScope?_declareSlot (q : ScopeId) :
    (g.declareSlot scope role symbol).2.superScope? q = g.superScope? q := by
  refine declareSlot_induction (P := fun g' => g'.superScope? q = g.superScope? q) rfl
    (fun _ => (superScope?_putSlot q).trans) fun g' old h => ?_
  rwa [superScope?, memberInfo?, Graph.drop, scope_modifyScope_congr Scope.member]
  exact fun _ => rfl

theorem superScope?_newScope {kind : ScopeKind} {parent : Option ScopeId} (q : ScopeId) :
    (g.newScope kind parent).2.superScope? q = g.superScope? q :=
  superScope?_congr (scope_newScope_congr g Scope.member (fun _ _ _ _ _ => rfl) _ _ q)

/-- A new type has no superclass. -/
theorem superScope?_allocType (parent : ScopeId) (s : Symbol) (q : ScopeId) :
    (g.allocType parent s).2.superScope? q = g.superScope? q := by
  rw [superScope?, superScope?, memberInfo?, memberInfo?, scope_allocType, member_newMemberScope]
  split
  next hq =>
    rw [scope_of_size_le (Nat.le_of_eq hq.symm)]
    rfl
  next => rfl

theorem superScope?_declare {target : ScopeId} (q : ScopeId) :
    (g.declare target symbol).2.superScope? q = g.superScope? q :=
  superScope?_congr (scope_declare_congr Scope.member (fun _ _ _ _ => rfl) q)

/-- A link changes the superclass of one member scope. -/
theorem superScope?_linkSuper (p q : ScopeId) (super : Option ScopeId) :
    (g.modifyMember p fun info => { info with super }).superScope? q =
      if q = p ∧ (g.scope p).member.isSome = true then super else g.superScope? q := by
  rw [superScope?, memberInfo?, modifyMember, scope_modifyScope, superScope?, memberInfo?]
  by_cases hq : q = p
  · subst hq
    cases hm : (g.scope q).member with
    | none => split <;> simp [Scope.mapMember, hm]
    | some info =>
      have hlt : q.index < g.scopes.size := scope_lt_size fun hb => by simp [hb, Scope.blank] at hm
      simp [Scope.mapMember, hm, hlt]
  · simp [hq]

/-- All scopes keep their superclasses, unless the step is a link. -/
theorem Step.superScope?_cases (h : Step types g g') :
    (∀ q, g'.superScope? q = g.superScope? q) ∨
      ∃ c super members, super ∈ types ∧ (g.symbol c).members? = some members ∧
        (g.symbol c).data.resolution? ≠ some .resolved ∧
        (g.symbol super).data.resolution? = some .resolved ∧
        g' = g.modifyMember members fun info => { info with super := g.membersOf? super } := by
  cases h with
  | newScope => exact .inl superScope?_newScope
  | alloc | amendSymbol => exact .inl fun _ => rfl
  | allocType => exact .inl (superScope?_allocType _ _)
  | amendScope h =>
    exact .inl (scope_modifyScope_rel (fun s s' => (s'.member.bind fun info => info.super) =
      s.member.bind fun info => info.super) (fun _ => rfl) h.super)
  | link hsuper hmembers hopen hresolved =>
    exact .inr ⟨_, _, _, hsuper, hmembers, hopen, hresolved, rfl⟩
  | declare => exact .inl superScope?_declare
  | declareSlot => exact .inl superScope?_declareSlot
  | putSlot => exact .inl superScope?_putSlot

/-- Steps that have to do with no types leave superclasses alone. -/
theorem Steps.superScope?_eq (h : Steps ∅ g g') (q : ScopeId) :
    g'.superScope? q = g.superScope? q := by
  induction h with
  | refl => rfl
  | tail _ hstep ih =>
    rcases hstep.superScope?_cases with heq | ⟨c, super, members, hsuper, -⟩
    · rw [heq, ih]
    · exact absurd hsuper (Set.notMem_empty super)

/-! ### Sites -/

/-- A scope of a unit around which no superclass is linked, or which is in a copied function. -/
structure Site (g : Graph) (p : ScopeId) : Prop extends Place g p where
  free : g.Unlinked p ∨ g.Delegated p

namespace Site

variable {p q : ScopeId}

theorem steps (hg : g.Coherent) (h : Steps ∅ g g') (hp : g.Site p) : g'.Site p := by
  have hgrows := h.grows
  have hlt := hp.inside.lt_size
  refine ⟨hgrows.place hg.nested hp.toPlace, ?_⟩
  rcases hp.free with hfree | ⟨q, hout, hdelegate⟩
  · refine .inl fun q hout => ?_
    rw [hgrows.outward_iff hg.nested hlt] at hout
    rw [h.superScope?_eq]
    exact hfree q hout
  · exact .inr ⟨q, (hgrows.outward_iff hg.nested hlt).mpr hout, hgrows.delegate hdelegate⟩

/-- A scope that is opened in a site is a site. -/
theorem of_parent (hg : g.Nested) (hp : g.Site p) (hparent : (g.scope q).parent = some p)
    (houter : (g.scope q).outer = none) (hsuper : g.superScope? q = none) : g.Site q := by
  have hstep : g.outward? q = some p := by
    rw [outward?, hparent, Option.map_some, hp.owner_eq]
  refine ⟨⟨hg.inside_of_parent hparent hp.inside, houter⟩, ?_⟩
  rcases hp.free with hfree | ⟨r, hout, hdelegate⟩
  · refine .inl fun r hout => ?_
    rcases Relation.ReflTransGen.cases_head hout with rfl | ⟨p', hp', hrest⟩
    · exact hsuper
    · rw [hstep, Option.some.injEq] at hp'
      exact hfree r (hp' ▸ hrest)
  · exact .inr ⟨r, .head hstep hout, hdelegate⟩

/-- Opening a scope in a site. -/
theorem newScope (hg : g.Coherent) (hp : g.Site p) (kind : ScopeKind)
    (hkind : kind.isRoot = false) :
    Step ∅ g (g.newScope kind (some p)).2 ∧
      (g.newScope kind (some p)).2.Site (g.newScope kind (some p)).1 := by
  have hstep : Step ∅ g (g.newScope kind (some p)).2 :=
    .newScope hp.inside.lt_size hp.outer_eq_none fun h => by rw [hkind] at h; cases h
  have hnew := scope_newScope_self (g := g) kind (some p)
  refine ⟨hstep, (hp.steps hg (.single hstep)).of_parent (hg.step hstep).nested ?_ ?_ ?_⟩
  · rw [hnew]
  · rw [hnew]
  · rw [superScope?, memberInfo?, hnew]
    rfl

theorem of_delegate (hplace : g.Place p) (hdelegate : (g.scope p).delegate ≠ none) : g.Site p :=
  ⟨hplace, .inr ⟨p, .refl, hdelegate⟩⟩

/-- Opening the scope of a function, which is a site if it is opened in one or has a delegate. -/
theorem openFunction (hg : g.Coherent) {delegate : Option ScopeId} (hp : g.Place p)
    (hfree : g.Site p ∨ delegate ≠ none) (hmembers : ∀ d, delegate = some d → g.MemberScope d)
    (hnew : g.newScope .function (some p) = (q, g')) :
    Steps ∅ g (g'.modifyScope q fun s => { s with delegate }) ∧
      g.Spares (g'.modifyScope q fun s => { s with delegate }) ∧
      (g'.modifyScope q fun s => { s with delegate }).Site q := by
  have hscope := scope_newScope_self g .function (some p)
  have hopen : Step ∅ g (g.newScope .function (some p)).2 :=
    .newScope hp.inside.lt_size hp.outer_eq_none fun h => by cases h
  have hspares : g.Spares (g.newScope .function (some p)).2 := spares_newScope
  have hsite : g.Site p →
      (g.newScope .function (some p)).2.Site (g.newScope .function (some p)).1 :=
    fun h => (h.newScope hg .function rfl).2
  rw [hnew] at hscope hopen hspares hsite
  have hmark : AmendsScope g' q (g'.scope q) { g'.scope q with delegate } :=
    ⟨rfl, rfl, rfl, id, fun _ _ => rfl, rfl,
      .inr ⟨by rw [hscope], fun d hd => hopen.grows.memberScope (hmembers d hd)⟩,
      fun _ _ h => .inl h⟩
  have hg' := hg.step hopen
  have hamend : Step ∅ g' (g'.modifyScope q fun s => { s with delegate }) := .amendScope hmark
  refine ⟨.tail (.single hopen) hamend, hspares.trans hmark.spares, ?_⟩
  by_cases hdelegate : delegate = none
  · exact (hsite (hfree.resolve_right fun h => h hdelegate)).steps hg' (.single hamend)
  · have hplace : g'.Place q :=
      ⟨hg'.nested.inside_of_parent (by rw [hscope]) (hopen.grows.inside hg.nested hp.inside),
        by rw [hscope]⟩
    refine .of_delegate (hamend.grows.place hg'.nested hplace) ?_
    rwa [scope_modifyScope_self hplace.inside.lt_size]

/-- The member scope of a type that is taken into the arena in a site. -/
theorem allocType (hg : g.Coherent) (hp : g.Site p) {s : Symbol} (hs : s.scope = none)
    (hmanaged : s.managed = false) :
    Step ∅ g (g.allocType p s).2 ∧ (g.allocType p s).2.Site (g.allocType p s).1.2 := by
  have hstep : Step ∅ g (g.allocType p s).2 := .allocType hs hmanaged hp.toPlace
  have hid : (g.allocType p s).1.2 = ⟨g.scopes.size⟩ := by simp [Graph.allocType, newMemberScope]
  obtain ⟨hparent, houter, -⟩ := newMemberScope_self g ⟨g.symbols.size⟩ p
  rw [hid]
  refine ⟨hstep, (hp.steps hg (.single hstep)).of_parent (hg.step hstep).nested hparent houter ?_⟩
  rw [superScope?, memberInfo?, scope_allocType, member_newMemberScope, if_pos rfl]
  rfl

/-- Roots are sites: no superclass is linked to a module or a unit. -/
theorem of_isRoot (hg : g.Nested) (hplace : g.Place p) (hroot : (g.scope p).kind.isRoot = true) :
    g.Site p := by
  refine ⟨hplace, .inl fun q hout => ?_⟩
  rw [superScope?, memberInfo?, hg.member_of_isRoot (hg.isRoot_of_outward hout hroot)]
  rfl

/-- Opening a unit. -/
theorem newUnit (hg : g.Coherent) :
    Step ∅ g (g.newScope .unit (some global)).2 ∧
      (g.newScope .unit (some global)).2.Site (g.newScope .unit (some global)).1 := by
  have hkind := hg.nested.kind_global
  have hstep : Step ∅ g (g.newScope .unit (some global)).2 :=
    .newScope (lt_size_of_kind fun h => by rw [hkind] at h; cases h)
      (hg.nested.outer_of_kind fun h => by rw [hkind] at h; cases h) fun _ => by rw [hkind]; rfl
  have hnew := scope_newScope_self g .unit (some global)
  have houter : ((g.newScope .unit (some global)).2.scope
      (g.newScope .unit (some global)).1).outer = none := by rw [hnew]
  refine ⟨hstep, .of_isRoot (hg.step hstep).nested ⟨?_, houter⟩ (by rw [hnew]; rfl)⟩
  exact ⟨_, by rw [owner_of_outer_eq_none houter]; exact .refl, by rw [hnew]⟩

end Site

/-! ### Modules -/

/-- Opening a module takes at most three edits, and the module hangs from its parent. -/
theorem subModule_steps (types : Set SymbolId) (hg : g.Nested) (name : String)
    (hparent : parent.index < g.scopes.size) (hroot : (g.scope parent).kind.isRoot = true) :
    Steps types g (g.subModule parent name).2 ∧
      ((g.subModule parent name).2.scope (g.subModule parent name).1).parent = some parent ∧
      ((g.subModule parent name).2.scope (g.subModule parent name).1).kind = .module := by
  simp only [subModule]
  split
  next m hm => exact ⟨.refl, hg.module (NameMap.mem_entries_of_find? hm)⟩
  next =>
    rw [newScope_fst]
    have hid : (⟨g.scopes.size⟩ : ScopeId) ≠ parent := by
      rintro rfl
      exact Nat.lt_irrefl _ hparent
    have hlt : (⟨g.scopes.size⟩ : ScopeId).index <
        (g.newScope .module (some parent)).2.scopes.size := by
      rw [size_scopes_newScope]
      exact Nat.lt_add_of_pos_right (by decide)
    have hnamed : ((g.newScope .module (some parent)).2.modifyScope ⟨g.scopes.size⟩ fun s =>
        { s with name := some name }).scope ⟨g.scopes.size⟩ =
        { kind := .module, parent := some parent, inner := some ⟨g.scopes.size + 1⟩
          name := some name } := by
      rw [scope_modifyScope_self hlt, scope_newScope, if_pos rfl]
      rfl
    have houter : (g.scope parent).outer = none :=
      hg.outer_of_kind fun hinner => by rw [hinner] at hroot; cases hroot
    refine ⟨.tail (.tail (.single (.newScope hparent houter fun _ => hroot))
      (.amendScope (.marks _ _ _ _))) (.amendScope ?_), ?_⟩
    · refine ⟨rfl, rfl, rfl, id, fun _ _ => rfl, rfl, .inl rfl, fun k m hm => ?_⟩
      refine (NameMap.mem_entries_set _ _ _ hm).imp_right ?_
      rintro rfl
      rw [hnamed]
      exact ⟨rfl, rfl⟩
    · rw [scope_modifyScope_of_ne hid, hnamed]
      exact ⟨rfl, rfl⟩

theorem place_subModule (hg : g.Coherent) (name : String) (hparent : g.Place parent)
    (hroot : (g.scope parent).kind.isRoot = true) :
    (g.subModule parent name).2.Place (g.subModule parent name).1 := by
  obtain ⟨hsteps, hup, hkind⟩ := subModule_steps ∅ hg.nested name hparent.inside.lt_size hroot
  have hnested := (hg.steps hsteps).nested
  refine ⟨hnested.inside_of_parent hup (hsteps.grows.inside hg.nested hparent.inside), ?_⟩
  exact hnested.outer_of_kind fun hinner => by rw [hkind] at hinner; cases hinner

/-- What every new module keeps, a module block keeps. -/
theorem openModule_induction {P : Graph → Prop} (scope : ScopeId) (name : Option QualName) (h : P g)
    (subModule : ∀ g parent name, P g → P (g.subModule parent name).2) :
    P (g.openModule scope name).2 := by
  have hmodules : ∀ (names : List String) (start : ScopeId) (g : Graph), P g →
      P (g.openModules start names).2 := by
    intro names
    induction names with
    | nil => exact fun _ _ h => h
    | cons name rest ih => exact fun start g h => ih _ _ (subModule g start name h)
  cases name with
  | none => exact h
  | some path => exact hmodules _ _ g h

theorem openModules_spec (types : Set SymbolId) :
    ∀ (names : List String) {g : Graph} {start : ScopeId}, g.Coherent → g.Place start →
      (g.scope start).kind.isRoot = true →
      Steps types g (g.openModules start names).2 ∧
        (g.openModules start names).2.Site (g.openModules start names).1
  | [], g, start, hg, hstart, hroot => ⟨.refl, .of_isRoot hg.nested hstart hroot⟩
  | name :: rest, g, start, hg, hstart, hroot => by
    obtain ⟨hsteps, -, hkind⟩ := subModule_steps types hg.nested name hstart.inside.lt_size hroot
    obtain ⟨hrest, hsite⟩ := openModules_spec types rest (hg.steps hsteps)
      (place_subModule hg name hstart hroot) (by rw [hkind]; rfl)
    exact ⟨hsteps.trans hrest, hsite⟩

/-- The scope of a module block, opened from a scope of a unit, is a site. -/
theorem openModule_spec (types : Set SymbolId) (hg : g.Coherent) (hscope : g.Inside scope)
    (name : Option QualName) :
    Steps types g (g.openModule scope name).2 ∧
      (g.openModule scope name).2.Site (g.openModule scope name).1 := by
  obtain ⟨unit, hunit, hkind, hout⟩ := hg.nested.unitOf?_of_inside hscope
  have houter : (g.scope unit).outer = none :=
    hg.nested.outer_of_kind fun hinner => by rw [hkind] at hinner; cases hinner
  have hplace : g.Place unit :=
    ⟨⟨unit, by rw [owner_of_outer_eq_none houter]; exact .refl, hkind⟩, houter⟩
  simp only [openModule, hunit, Option.getD_some]
  cases name with
  | none => exact ⟨.refl, .of_isRoot hg.nested hplace (by rw [hkind]; rfl)⟩
  | some path =>
    obtain ⟨hroot, hisRoot, -⟩ := hg.nested.rootOf_of_inside hscope
    dsimp only
    split
    · exact openModules_spec types _ hg hplace (by rw [hkind]; rfl)
    · exact openModules_spec types _ hg hroot hisRoot

end Graph

end Scoping
