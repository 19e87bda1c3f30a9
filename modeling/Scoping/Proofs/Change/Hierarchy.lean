import Scoping.Proofs.Change.Declaration

/-!
# Resolving types

Resolving a type links its relatives, copies the members of its traits and looks its hints up, and
all of this is in `Analysis.Changes`. While types are being resolved they are busy, and what happens
then leaves them alone, so that a class is decided upon (`Hierarchy.checkClass`) as its relatives
were left by `Hierarchy.prepareClass`.

A type that has not been resolved belongs to the unit, or was copied into it, so that its member
scope is a place for declarations.
-/

namespace Scoping

theorem Symbol.subtree?_of_fn? {s : Symbol} {data : FunctionData} (h : s.fn? = some data) :
    s.subtree? = s.node := by
  unfold Symbol.fn? at h
  unfold Symbol.subtree?
  split at h
  next hdata => rw [hdata]
  next => cases h

namespace Analysis

variable {aim : Aim} {types : Set SymbolId} {s s' : Analysis} {env : Environment}
  {busy : Set SymbolId}

namespace Onward

variable {fine : Prop} {x : SymbolId}

theorem place {p : ScopeId} (h : Onward fine types s s') (hp : s.graph.Place p) :
    s'.graph.Place p :=
  h.steps.grows.place h.coherent.nested hp

theorem kind_eq {kind : SymbolKind} (h : Onward fine types s s')
    (hx : (s.graph.symbol x).kind = kind) (hkind : kind ≠ .var) :
    (s'.graph.symbol x).kind = kind :=
  h.edits.kind_eq hx hkind

theorem members?_eq {m : ScopeId} (h : Onward fine types s s')
    (hx : (s.graph.symbol x).members? = some m) : (s'.graph.symbol x).members? = some m :=
  (h.steps.grows.members? (Graph.lt_size_of_members? hx)).trans hx

end Onward

/-- What is known about the resolution of types: the `busy` ones are being resolved, and the root
object is a class that has been. -/
structure Ready (env : Environment) (busy : Set SymbolId) (g : Graph) : Prop where
  resolving : ∀ x ∈ busy, (g.symbol x).data.resolution? = some .resolving
  root : ∀ r, env.rootObject = some r →
    (g.symbol r).data.resolution? = some .resolved ∧ (g.symbol r).kind = .cls

/-- No type is being resolved. -/
abbrev Idle (s : Analysis) (aim : Aim) : Prop := Ready aim.env ∅ s.graph

theorem Ready.onward {fine : Prop} (hs : Ready env busy s.graph) (h : Onward fine busyᶜ s s') :
    Ready env busy s'.graph where
  resolving x hx := by
    have hresolving := hs.resolving x hx
    rw [h.steps.resolution?_eq (Graph.lt_size_of_resolution? hresolving) fun hnot => hnot hx,
      hresolving]
  root r hr := ⟨h.steps.resolved (hs.root r hr).1, h.kind_eq (hs.root r hr).2 nofun⟩

theorem Ready.unresolved {g : Graph} {x : SymbolId} (hg : Ready env busy g)
    (hx : (g.symbol x).data.resolution? ≠ some .resolving) : x ∉ busy :=
  fun hbusy => hx (hg.resolving x hbusy)

end Analysis

namespace Declaration

open Analysis

variable {env : Environment} {aim : Aim} {types : Set SymbolId} {s : Analysis} {id : NodeId}

/-- The body of a copied function is declared after its default values are copied. -/
theorem copiedFunction_obeys {f : SymbolId} {parent members : ScopeId} (hid : s.Known aim id)
    (hlink : (s.graph.symbol f).node = some id)
    (hblank : aim.fine → ∃ area, s.tree.Untouched id area) (hplace : s.graph.Place parent)
    (hmembers : s.graph.MemberScope members) (hpending : s.graph.Pending (s.graph.paramsOf f)) :
    Analysis.Obeys aim (Changes aim types) s s
      (copiedFunction f id parent (some members)) := by
  obtain ⟨area, harea⟩ : ∃ area, aim.fine → s.tree.Untouched id area := by
    by_cases hfine : aim.fine
    · exact (hblank hfine).imp fun _ h _ => h
    · exact ⟨∅, fun h => absurd h hfine⟩
  refine .read_bind hid fun node hnode => ?_
  obtain ⟨kind, span, note⟩ := node
  cases kind with
  | fnDecl decl =>
    refine .annotate_bind ?_ fun _ _ => .settle (fun _ => ?_) fun hs h => .ite (fun _ => ?_)
      fun _ => .pure trivial
    · exact hid
    · refine .adopt f hnode rfl (fun hfine => ?_) hlink
      have hhere := (harea hfine).here
      rwa [Tree.noted?, hnode] at hhere
    refine openFunction_bind (fun h => .declare (h ∅) fun _ c hc => absurd hc (Set.notMem_empty c))
      ?_ (fun hfine => .onward h hfine ⟨_, hnode, rfl⟩) rfl (h.place hplace) ?_ ?_ hpending
      fun q s₂ h₂ hinside hpending₂ _ hnoted => ?_
    · exact h.known hid
    · exact .inr (Option.some_ne_none _)
    · rintro _ ⟨⟩
      exact hmembers
    refine .modifyGraph_bind (.settle (fun _ => ?_) fun hs₂ h₃ => ?_)
    · refine .graph (.copyDefaults f fun param hparam c hc hfine => ?_)
      refine Nat.lt_of_lt_of_le (hs.child_lt hnode ?_ hfine)
        ((h.trans h₂).advances hfine).tree.size_le
      exact List.mem_append_left _ (List.mem_filterMap.mpr ⟨param, hparam, hc⟩)
    obtain ⟨hsteps, hspares, hsame⟩ := Graph.copyDefaults_spec s₂.graph f decl.params
    have hpending₃ := hpending₂.spares hs₂.coherent hspares hsteps.grows
    rw [← hsame] at hpending₃
    have hwalk : Walk.Obeys aim area walk := walk_obeys
    refine ((visitBody_obeys hwalk (hinside.steps hs₂.coherent hsteps) hpending₃
      fun c hc => ?_).widen fun hdeclares => .declare hdeclares fun hfine c hc => ?_).anyway
    · have hbegun : Within aim area s c := ⟨hs.known_child hnode hc,
        fun hfine => (harea hfine).children _ hnode c hc, fun hfine => (harea hfine).encloses⟩
      exact hbegun.onward (h.trans (h₂.trans h₃))
    · have hne : c ≠ id := fun heq => (harea hfine).notMem (heq ▸ hc)
      exact (hnoted c).trans ((Tree.noted?_annotate_of_ne hne).trans ((harea hfine).below c hc))
  | _ => exact .pure trivial

end Declaration

namespace Hierarchy

open Analysis

variable {aim : Aim} {types busy : Set SymbolId} {s s' s₁ : Analysis} {env : Environment}
  {id : SymbolId} {g : Graph} {m : Mixin} {r : Resolution} {members : ScopeId} {x : Symbol}
  {member : SymbolId}

/-! ### Usages of traits -/

theorem deferConstant_obeys (host f : SymbolId) {id : NodeId} (hid : s.Known aim id) :
    Obeys aim (Changes aim types) s s (deferConstant host f id) := by
  refine .read_bind hid fun node hnode => ?_
  obtain ⟨kind, span, note⟩ := node
  cases kind with
  | engineConst which =>
    refine .annotate_bind ?_ fun _ _ => .done rfl (fun _ => ?_) trivial
    · exact hid
    · exact .defer { node := id, host, function := f } ⟨_, hnode, rfl⟩
  | _ => exact .pure trivial

theorem deferConstants_obeys (host f : SymbolId) {id : NodeId} (hid : s.Known aim id) :
    Obeys aim (Changes aim types) s s (deferConstants host f id) := by
  refine .get_bind (Obeys.bind (P := fun ids s' => ∀ c ∈ ids, s'.Known aim c) (.onTree ?_ ?_)
    fun ids s₁ h hids => .forM_ fun c hc s' h' => deferConstant_obeys host f (h'.known (hids c hc)))
  · intro _ ids tree h
    cases hrun : s.tree.descendants id s.spare with
    | error halt =>
      rw [hrun] at h
      cases h
    | ok ids' =>
      rw [hrun] at h
      cases h
      exact ⟨.refl, fun c hc _ => Tree.lt_size_of_mem_preorder _ hrun c hc⟩
  · intro hs hhome halt h
    cases hrun : s.tree.descendants id s.spare with
    | error halt' =>
      rw [hrun] at h
      cases h
      exact Tree.eq_exhausted_of_preorder (hs.intact (aim.fine_of_home hhome)).closed _ (hid hhome)
        hrun
    | ok ids' =>
      rw [hrun] at h
      cases h

/-- The host of a usage has a place for declarations, and the trait is one, with the given scope of
members. -/
structure Mixin.Ready (m : Mixin) (g : Graph) : Prop where
  place : g.Place m.hostScope
  trait : (g.symbol m.trait).kind = .trait
  members : g.membersOf? m.trait = some m.traitScope

variable {fine : Prop}

theorem Mixin.Ready.onward (hm : m.Ready s.graph) (h : Onward fine types s s') : m.Ready s'.graph :=
  ⟨h.place hm.place, h.kind_eq hm.trait nofun, h.members?_eq hm.members⟩

/-- A copy that was entered is declared. -/
theorem declareCopy_obeys (hm : m.Ready s.graph) {copy : SymbolId}
    (hpending : s.graph.Pending (s.graph.paramsOf copy))
    (hunvisited : aim.fine → Unvisited copy s) :
    Obeys aim (Changes aim types) s s (declareCopy m copy) := by
  refine .of_proper fun hs => .currentGraph_bind ?_
  cases hfn : (s.graph.symbol copy).fn? with
  | none => simpa only [hfn] using .pure trivial
  | some data =>
    cases hnode : (s.graph.symbol copy).node with
    | none => simpa only [hfn, hnode] using .pure trivial
    | some id =>
      simp only [hfn, hnode]
      have hknown : s.Known aim id := fun hhome =>
        hs.cited hhome id ⟨copy, (Symbol.subtree?_of_fn? hfn).trans hnode⟩
      refine .ite (fun _ => ?_) fun _ => .pure trivial
      refine (Declaration.copiedFunction_obeys hknown hnode (fun hfine => ?_) hm.place
        ⟨m.trait, hm.members⟩ hpending).bind fun _ s₁ h _ =>
          deferConstants_obeys m.host copy (h.known hknown)
      exact hunvisited hfine id (by rw [hfn]; rfl) hnode

/-- Among the members that the trait offers in a state, one is copied later. -/
theorem copyMember_bind {name : String} {flags : Flags} {k : SymbolId → AnalysisM Unit}
    (h : Onward aim.fine types s s₁)
    (hk : ∀ copy s₂, s.Proper aim → copyMember member m.trait name flags s₁ = .ok copy s₂ →
      Obeys aim (Changes aim types) s s₂ (k copy)) :
    Obeys aim (Changes aim types) s s₁ (copyMember member m.trait name flags >>= k) := by
  refine .run_bind hk fun halt s₂ hs hhome hrun => ?_
  have hs₁ := h.proper hs
  exact eq_exhausted_of_copyMember (hs₁.intact (aim.fine_of_home hhome)).closed
    (fun id hid => hs₁.cited hhome id ⟨member, hid⟩) hrun

/-- A member that the trait offered in the state `s` is copied in the state `s₁`. -/
theorem copyInto_obeys (hm : m.Ready s.graph) (hoffers : s.graph.Offers m.trait member)
    (hchanges : Changes aim types s s₁) (h : Onward aim.fine types s s₁) (usage : TraitUsage) :
    Obeys aim (Changes aim types) s s₁ (copyInto m usage member) := by
  refine .currentGraph_bind (.ite (fun _ => ?_) fun _ => .done rfl (fun _ => hchanges) trivial)
  refine copyMember_bind h fun copy s₂ hs hcopy => ?_
  obtain ⟨log, hlog, hrun⟩ := Declaration.run_declare m.hostScope copy s₂
  refine .next hrun (.settle (fun _ => ?_) fun _ h₂ => .ite (fun _ => ?_) fun _ => .pure trivial)
  · exact .trans (.copyEntry hoffers hchanges hcopy (hm.onward h).place) (.log hlog)
  obtain ⟨hsteps, hcopied⟩ := (copyMember_copies hcopy).1.steps h.after.1
  refine declareCopy_obeys (hm.onward h₂) ?_ fun hfine => ?_
  · exact hcopied.declare (h.after.1.steps hsteps)
      (hsteps.grows.place h.after.1.nested (hm.onward h).place)
  · refine (copiedMember_of_copyMember (h.after.2 hfine) hcopy).unvisited.congr rfl ?_ ?_
    · exact Graph.symbol_declare_congr Symbol.fn? (fun _ _ _ _ => rfl) copy
    · exact Graph.symbol_declare_congr Symbol.node (fun _ _ _ _ => rfl) copy

theorem copyIntoSlot_obeys (hm : m.Ready s.graph) (hoffers : s.graph.Offers m.trait member)
    (hchanges : Changes aim types s s₁) (h : Onward aim.fine types s s₁) (role : Role) :
    Obeys aim (Changes aim types) s s₁ (copyIntoSlot m role member) := by
  refine .symbol_bind (copyMember_bind h fun copy s₂ hs hcopy => ?_)
  refine .modifyGraph_bind (.settle (fun _ => ?_) fun _ h₂ => ?_)
  · exact .copySlot role hoffers hchanges hcopy (hm.onward h).place
  obtain ⟨hsteps, hcopied⟩ := (copyMember_copies hcopy).1.steps h.after.1
  refine declareCopy_obeys (hm.onward h₂) (hcopied.putSlot (h.after.1.steps hsteps)) fun hfine => ?_
  refine (copiedMember_of_copyMember (h.after.2 hfine) hcopy).unvisited.congr rfl ?_ ?_
  · exact Graph.symbol_modifySymbol_congr Symbol.fn? _ copy fun _ => rfl
  · exact Graph.symbol_modifySymbol_congr Symbol.node _ copy fun _ => rfl

theorem copyMembers_obeys (hm : m.Ready s.graph) (usage : TraitUsage) :
    Obeys aim (Changes aim types) s s (copyMembers m usage) := by
  refine .currentGraph_bind ?_
  split
  · refine Obeys.bind (.forM_since fun member hmember s₁ hchanges h =>
      copyInto_obeys hm ⟨hm.trait, m.traitScope, hm.members, .inl hmember⟩ hchanges h usage)
      fun _ s₁ h _ => .currentGraph_bind ?_
    have hm₁ := hm.onward h
    split
    · exact .pure trivial
    next info hinfo =>
      exact .forM_since fun slot hslot s₂ hchanges h => copyIntoSlot_obeys hm₁ ⟨hm₁.trait,
        m.traitScope, hm₁.members, .inr ⟨info, hinfo, mem_slots_of_missingSlots hslot⟩⟩ hchanges h
        slot.1
  · split
    next member hfound =>
      refine .of_proper fun hs => copyInto_obeys hm ⟨hm.trait, m.traitScope, hm.members, .inl ?_⟩
        .refl (.refl hs.coherent hs.intact) usage
      exact mem_memberIds_of_lookupHere? hm.members hfound
    next => exact (Obeys.report _ _).anyway

/-! ### Hosts -/

/-- The type declares its members in a place, and what is known about resolution. -/
structure Hosted (env : Environment) (busy : Set SymbolId) (id : SymbolId) (members : ScopeId)
    (g : Graph) : Prop extends Analysis.Ready env busy g where
  members_eq : (g.symbol id).members? = some members
  place : g.Place members

theorem Hosted.onward (hs : Hosted env busy id members s.graph)
    (h : Onward fine busyᶜ s s') : Hosted env busy id members s'.graph :=
  ⟨hs.toReady.onward h, h.members?_eq hs.members_eq, h.place hs.place⟩

theorem flatten_obeys (hs : Hosted aim.env busy id members s.graph) {trait : SymbolId}
    (htrait : (s.graph.symbol trait).kind = .trait) (usage : TraitUsage) :
    Obeys aim (Changes aim types) s s (flatten id trait usage) := by
  refine .currentGraph_bind ?_
  split
  next hostScope traitScope hhost hmembers =>
    cases hs.members_eq.symm.trans hhost
    exact copyMembers_obeys ⟨hs.place, htrait, hmembers⟩ usage
  next => exact .pure trivial

/-! ### Relatives -/

/-- A way to resolve types that leaves a type resolved, unless it was being resolved before. -/
def Resolves (aim : Aim) (resolve : SymbolId → AnalysisM Unit) : Prop :=
  ∀ {busy : Set SymbolId} {s : Analysis}, Analysis.Ready aim.env busy s.graph → ∀ id,
    Obeys aim (Changes aim busyᶜ) s s (resolve id) fun _ s' =>
      (s'.graph.symbol id).data.resolution? ≠ some .unresolved ∧
        ((s.graph.symbol id).kind.isType = true →
          (s.graph.symbol id).data.resolution? ≠ some .resolving →
            (s'.graph.symbol id).data.resolution? = some .resolved)

/-- An accepted type is of the expected kind and not being resolved. -/
theorem acceptType_eq_ok {path : QualName} {expected : SymbolKind} {result : Lookup}
    (h : acceptType g path expected result = .ok id) :
    (g.symbol id).kind = expected ∧ (g.symbol id).data.resolution? ≠ some .resolving := by
  cases result with
  | found x =>
    simp only [acceptType, ite_not] at h
    split at h
    next hkind =>
      split at h
      · cases h
      next hresolution =>
        cases h
        exact ⟨hkind, hresolution⟩
    next => cases h
  | _ => cases h

section Relatives

variable {resolve : SymbolId → AnalysisM Unit} (hresolve : Resolves aim resolve)

include hresolve

/-- A relative that was found is of the expected kind, and resolved. -/
theorem requireType_obeys (hs : Analysis.Ready aim.env busy s.graph) (start : ScopeId)
    {expected : SymbolKind} (hexpected : expected.isType = true) (ref : TypeRef) :
    Obeys aim (Changes aim busyᶜ) s s (requireType resolve start expected ref)
      fun target s' => ∀ x, target = some x → (s'.graph.symbol x).kind = expected ∧
        (s'.graph.symbol x).data.resolution? = some .resolved := by
  refine .onGraph_bind (.settle (fun _ => .graph (.lookUp start ref.path .type)) fun _ h =>
    .currentGraph_bind ?_)
  split
  next x haccept =>
    obtain ⟨hkind, hresolving⟩ := acceptType_eq_ok haccept
    refine (hresolve (hs.onward h) x).bind fun _ s' h' ⟨_, hresolved⟩ => .pure ?_
    rintro _ ⟨⟩
    refine ⟨h'.kind_eq hkind ?_, hresolved ?_ hresolving⟩
    · rintro rfl
      cases hexpected
    · rwa [hkind]
  next problem _ =>
    exact (Obeys.report ref.span problem).bind fun _ s' h' _ => .pure nofun

/-- A superclass is a class, and resolved before the class is linked to it. -/
theorem requireSuper_obeys (hs : Analysis.Ready aim.env busy s.graph) (start : ScopeId)
    (id : SymbolId) (ref : Option TypeRef) :
    Obeys aim (Changes aim busyᶜ) s s (requireSuper aim.env resolve start id ref)
      fun target s' => ∀ x, target = some x → (s'.graph.symbol x).kind = .cls ∧
        (s'.graph.symbol x).data.resolution? = some .resolved := by
  cases ref with
  | none =>
    refine .pure fun x hx => ?_
    exact (hs.root x (Option.filter_eq_some_iff.mp hx).1).symm
  | some ref =>
    refine (requireType_obeys hresolve hs start rfl ref).bind fun target s₁ h htarget => ?_
    cases target with
    | none => exact .pure nofun
    | some super =>
      refine .symbol_bind (.ite (fun _ => ?_) fun _ => .pure htarget)
      refine (Obeys.reportWithPrevious _ _ _ _).bind fun _ s₂ h₂ _ => .pure ?_
      rintro x ⟨⟩
      exact ⟨h₂.kind_eq (htarget super rfl).1 nofun, h₂.steps.resolved (htarget super rfl).2⟩

theorem linkInterfaces_obeys (hs : Analysis.Ready aim.env busy s.graph) (start : ScopeId)
    {link : Nat → SymbolId → Graph → Graph}
    (hlink : ∀ index target (held : NodeId → Prop) (g : Graph), (g.symbol target).kind = .iface →
      Graph.Elaborates False busyᶜ held g (link index target g)) (refs : List TypeRef) :
    Obeys aim (Changes aim busyᶜ) s s (linkInterfaces resolve start link refs) := by
  refine .forM_ fun entry _ s' h => (requireType_obeys hresolve (hs.onward h) start rfl _).bind
    fun target s₁ _ htarget => ?_
  cases target with
  | none => exact .pure trivial
  | some target =>
    exact .done rfl (fun _ => .graph (hlink _ _ _ _ (htarget target rfl).1)) trivial

theorem applyTraits_obeys (hs : Hosted aim.env busy id members s.graph) (start : ScopeId)
    (usages : List TraitUsage) :
    Obeys aim (Changes aim busyᶜ) s s (applyTraits resolve id start usages) := by
  refine .forM_ fun usage _ s' h => (requireType_obeys hresolve (hs.onward h).toReady start rfl
    _).bind fun trait s₁ h₁ htrait => ?_
  cases trait with
  | none => exact .pure trivial
  | some trait => exact flatten_obeys ((hs.onward h).onward h₁) (htrait trait rfl).1 usage

end Relatives

/-! ### Hints and checks -/

theorem resolveHints_obeys (scope : ScopeId) (f : SymbolId) :
    Obeys aim (Changes aim types) s s (resolveHints scope f) := by
  have hhint : ∀ param s, Obeys aim (Changes aim types) s s (resolveHint scope param) := by
    refine fun param s => .symbol_bind ?_
    split
    · refine .onGraph_bind (.settle (fun _ => .graph (.lookUp scope _ .type)) fun _ _ => ?_)
      split
      · exact .done rfl (fun _ => .graph (.fill param fun _ => rfl)) trivial
      all_goals exact (Obeys.report _ _).anyway
    · exact .pure trivial
  refine .symbol_bind ?_
  split
  · exact .forM_ fun param _ s' _ => hhint param s'
  · exact .pure trivial

theorem resolveMemberHints_obeys (host : SymbolId) :
    Obeys aim (Changes aim types) s s (resolveMemberHints host) := by
  refine .currentGraph_bind ?_
  split
  · exact .forM_ fun f _ s' _ => resolveHints_obeys _ f
  · exact .pure trivial

/-! ### Resolution -/

/-- Links the superclass of a class if one was found. -/
def linkFound (id : SymbolId) (members : ScopeId) : Option SymbolId → AnalysisM Unit
  | some super => modifyGraph (linkSuper · id members super)
  | none => pure ()

/-- What comes before the checks of a class: its relatives are linked, the members of its traits
copied and its hints looked up. -/
def prepareClass (env : Environment) (resolve : SymbolId → AnalysisM Unit) (id : SymbolId)
    (data : ClassData) : AnalysisM Unit := do
  let start := declaringScope (← currentGraph) id
  let super ← requireSuper env resolve start id data.super
  linkFound id data.members super
  linkInterfaces resolve start
    (fun index target g =>
      g.modifyData id (·.mapClass fun d =>
        { d with interfaces := setTarget d.interfaces index target }))
    data.interfaces
  applyTraits resolve id start data.traits
  resolveMemberHints id

theorem resolveClass_eq (env : Environment) (resolve : SymbolId → AnalysisM Unit) (id : SymbolId)
    (data : ClassData) : resolveClass env resolve id data = (do
      prepareClass env resolve id data
      checkClass env id) := by
  simp only [resolveClass, prepareClass, checkClass, bind_assoc]
  refine bind_congr fun g => bind_congr fun super => ?_
  cases super with
  | none => simp only [linkFound, pure_bind]
  | some super => simp only [linkFound]

/-- What is done about a type while it is being resolved, short of decisions. -/
def prepareBody (env : Environment) (resolve : SymbolId → AnalysisM Unit) (id : SymbolId) :
    SymbolData → AnalysisM Unit
  | .cls data => prepareClass env resolve id data
  | .trait data => resolveTrait resolve id data
  | .iface data => resolveInterface resolve id data
  | _ => pure ()

/-- With what the resolution of a type ends. -/
def finishBody (env : Environment) (id : SymbolId) : SymbolData → AnalysisM Unit
  | .cls _ => checkClass env id
  | _ => pure ()

theorem resolveStep_eq (env : Environment) (resolve : SymbolId → AnalysisM Unit) (id : SymbolId) :
    resolveStep env resolve id = (do
      let symbol ← Analysis.symbol id
      if symbol.data.resolution? = some .unresolved then
        setResolution id .resolving
        prepareBody env resolve id symbol.data
        finishBody env id symbol.data
        setResolution id .resolved) := by
  simp only [resolveStep]
  refine bind_congr fun symbol => ?_
  split
  · refine bind_congr fun _ => ?_
    cases symbol.data <;>
      simp only [prepareBody, finishBody, resolveClass_eq, bind_assoc, pure_bind]
  · rfl

/-- Types, and nothing else, are at some stage of their resolution. -/
theorem isType_iff : x.kind.isType = true ↔ ∃ r, x.data.resolution? = some r := by
  unfold Symbol.kind
  cases x.data <;> simp [SymbolData.kind, SymbolKind.isType, SymbolData.resolution?]

theorem exists_members? (h : x.data.resolution? = some r) :
    ∃ members, x.members? = some members := by
  rw [Symbol.members?]
  cases hd : x.data with
  | cls | trait | iface => exact ⟨_, rfl⟩
  | _ =>
    rw [hd] at h
    cases h

theorem resolution?_modifyData (h : (g.symbol id).kind.isType = true) :
    ((g.modifyData id (·.setResolution r)).symbol id).data.resolution? = some r := by
  obtain ⟨r', hr'⟩ := isType_iff.mp h
  rw [Graph.modifyData, Graph.symbol_modifySymbol_self (Graph.lt_size_of_resolution? hr')]
  change ((g.symbol id).data.setResolution r).resolution? = some r
  cases hd : (g.symbol id).data with
  | cls | trait | iface => rfl
  | _ =>
    rw [hd] at hr'
    cases hr'

section Resolution

variable {resolve : SymbolId → AnalysisM Unit} (hresolve : Resolves aim resolve)

include hresolve

/-- A superclass that was found is linked, and then the rest. -/
theorem prepareClass_obeys {data : ClassData} (hid : id ∈ busy)
    (hs : Hosted aim.env busy id data.members s.graph) :
    Obeys aim (Changes aim busyᶜ) s s (prepareClass aim.env resolve id data) := by
  refine .currentGraph_bind ((requireSuper_obeys hresolve hs.toReady _ id data.super).bind
    fun super s₁ h₁ hsuper => Obeys.bind (P := fun _ _ => True) ?_ fun _ s₂ h₂ _ => ?_)
  · cases super with
    | none => exact .pure trivial
    | some super =>
      obtain ⟨hcls, hresolved⟩ := hsuper super rfl
      have hs₁ := hs.onward h₁
      refine .done rfl (fun _ => .graph (.linkSuper ?_ hs₁.members_eq ?_ hresolved hcls)) trivial
      · refine hs₁.toReady.unresolved ?_
        rw [hresolved]
        exact nofun
      · rw [hs₁.resolving id hid]
        exact nofun
  have hs₂ := (hs.onward h₁).onward h₂
  refine (linkInterfaces_obeys hresolve hs₂.toReady _ (fun index _ _ _ hkind =>
    .linkInterface id index hkind) _).bind fun _ s₃ h₃ _ => ?_
  exact (applyTraits_obeys hresolve (hs₂.onward h₃) _ _).bind fun _ _ _ _ =>
    resolveMemberHints_obeys id

theorem prepareBody_obeys {data : SymbolData} (hmembers : data.members? = some members)
    (hid : id ∈ busy) (hs : Hosted aim.env busy id members s.graph) :
    Obeys aim (Changes aim busyᶜ) s s (prepareBody aim.env resolve id data) := by
  cases data with
  | cls data =>
    cases hmembers
    exact prepareClass_obeys hresolve hid hs
  | trait data =>
    exact .currentGraph_bind ((applyTraits_obeys hresolve hs _ _).bind fun _ _ _ _ =>
      resolveMemberHints_obeys id)
  | iface data =>
    exact .currentGraph_bind ((linkInterfaces_obeys hresolve hs.toReady _ (fun index _ _ _ hkind =>
      .linkExtended id index hkind) _).bind fun _ _ _ _ => resolveMemberHints_obeys id)
  | _ => exact .pure trivial

end Resolution

/-- A type that starts to be resolved joins the busy ones. -/
theorem hosted_resolving (hs : Analysis.Ready env busy s.graph) (h : Onward fine busyᶜ s s')
    (hgraph : s'.graph = s.graph.modifyData id (·.setResolution .resolving))
    (hmembers : (s.graph.symbol id).members? = some members)
    (hunresolved : (s.graph.symbol id).data.resolution? = some .unresolved) :
    Hosted env (insert id busy) id members s'.graph := by
  have hplace : s.graph.Place members := by
    refine (h.coherent.typed hmembers).resolve_right fun hresolved => ?_
    rw [hunresolved] at hresolved
    cases hresolved
  have hready := hs.onward h
  refine ⟨⟨?_, hready.root⟩, h.members?_eq hmembers, h.place hplace⟩
  rintro x (rfl | hx)
  · rw [hgraph]
    exact resolution?_modifyData (isType_iff.mpr ⟨_, hunresolved⟩)
  · exact hready.resolving x hx

/-- Decisions about a class are made when its relatives have been dealt with. -/
theorem finishBody_obeys {data : SymbolData} (hid : id ∈ types)
    (hdata : (s.graph.symbol id).kind = data.kind)
    (hopen : (s.graph.symbol id).data.resolution? ≠ some .resolved) :
    Obeys aim (Changes aim types) s s (do
      finishBody aim.env id data
      setResolution id .resolved) fun _ s' => data.kind.isType = true →
        (s'.graph.symbol id).data.resolution? = some .resolved := by
  rw [← hdata]
  cases data with
  | cls data =>
    have hrun := Acts.bind (f := fun _ => setResolution id .resolved)
      (checkClass_acts aim.env s.graph id) (.modifyGraph _) s rfl
    refine .done hrun (fun _ => ?_) fun htype => resolution?_modifyData ?_
    · rw [List.append_nil]
      exact .conclude hid hdata hopen
    · rwa [Symbol.kind, data_checked]
  | _ =>
    refine .done rfl (fun _ => .graph (.resolve hid hopen fun _ hkind => ?_)) resolution?_modifyData
    cases hdata.symm.trans hkind

/-- One level of the resolution of types resolves if the levels below it do. -/
theorem resolveStep_resolves {resolve : SymbolId → AnalysisM Unit}
    (hresolve : Resolves aim resolve) : Resolves aim (resolveStep aim.env resolve) := by
  intro busy s hs id
  rw [resolveStep_eq]
  refine .symbol_bind (.ite (fun hunresolved => ?_) fun hresolution =>
    .pure ⟨hresolution, fun htype hresolving => ?_⟩)
  · have hid : id ∉ busy := hs.unresolved (by rw [hunresolved]; exact nofun)
    obtain ⟨members, hmembers⟩ := exists_members? hunresolved
    refine .modifyGraph_bind (.settle (fun _ => ?_) fun _ h => ?_)
    · exact .graph (.resolve hid (by rw [hunresolved]; exact nofun) nofun)
    have hhosted := hosted_resolving hs h rfl hmembers hunresolved
    have hsubset : (insert id busy)ᶜ ⊆ busyᶜ := fun x hx hbusy => hx (.inr hbusy)
    refine ((prepareBody_obeys hresolve hmembers (.inl rfl) hhosted).keep.widen
      (Changes.mono hsubset)).bind fun _ s₁ h₁ ⟨hprepared, _⟩ => ?_
    have hbusy := (hhosted.onward hprepared).resolving id (.inl rfl)
    have htype := isType_iff.mpr ⟨_, hunresolved⟩
    refine (finishBody_obeys hid ?_ (by rw [hbusy]; exact nofun)).imp
      fun _ _ hresolved => ⟨by rw [hresolved htype]; exact nofun, fun _ _ => hresolved htype⟩
    refine (h.trans h₁).kind_eq rfl fun hvar => ?_
    rw [Symbol.kind, hvar] at htype
    cases htype
  · obtain ⟨r, hr⟩ := isType_iff.mp htype
    cases r with
    | unresolved => exact absurd hr hresolution
    | resolving => exact absurd hr hresolving
    | resolved => exact hr

theorem resolveWithin_resolves : ∀ fuel, Resolves aim (resolveWithin aim.env fuel)
  | 0 => fun _ _ => .exhausted
  | fuel + 1 => resolveStep_resolves (resolveWithin_resolves fuel)

/-- Resolving a type makes changes, whatever the type. Those that are being resolved are left
alone. -/
theorem resolveType_obeys (hs : s.Idle aim) (id : SymbolId) :
    Obeys aim (Changes aim s.graph.stalledᶜ) s s (resolveType aim.env id) fun _ s' =>
      (s'.graph.symbol id).data.resolution? ≠ some .unresolved :=
  have hstalled : Analysis.Ready aim.env s.graph.stalled s.graph := ⟨fun _ hx => hx, hs.root⟩
  .get_bind ((resolveWithin_resolves _ hstalled id).imp fun _ _ h => h.1)

/-! ### The run of a class -/

/-- How a class that has not been resolved is resolved: its relatives are linked, and then it is
checked. -/
structure Resolving (env : Environment) (fuel : Nat) (c : SymbolId) (data : ClassData)
    (s before s' : Analysis) : Prop where
  prepare : prepareClass env (resolveWithin env fuel) c data
    { s with graph := s.graph.modifyData c (·.setResolution .resolving) } = .ok () before
  finish : s' = { before with
    graph := (checked env before.graph c).modifyData c (·.setResolution .resolved)
    log := before.log.extend (checkReport env before.graph c) }

theorem exists_resolving {fuel : Nat} {data : ClassData}
    (hdata : (s.graph.symbol c).data = .cls data) (hopen : data.resolution = .unresolved)
    (h : resolveWithin env fuel c s = .ok () s') :
    ∃ before, Resolving env (fuel - 1) c data s before s' := by
  cases fuel with
  | zero => cases h
  | succ n =>
    have hunresolved : (s.graph.symbol c).data.resolution? = some .unresolved := by
      rw [hdata, SymbolData.resolution?, hopen]
    rw [resolveWithin, resolveStep_eq] at h
    obtain ⟨symbol, s₀, hsymbol, h⟩ := ok_bind h
    rw [Acts.symbol c s rfl, after, Log.extend_nil] at hsymbol
    cases hsymbol
    rw [if_pos hunresolved, hdata, prepareBody, finishBody] at h
    obtain ⟨_, s₁, hset, h⟩ := ok_bind h
    cases hset
    obtain ⟨_, before, hprepare, h⟩ := ok_bind h
    obtain ⟨_, s₂, hcheck, hset⟩ := ok_bind h
    rw [checkClass_acts env before.graph c before rfl] at hcheck
    cases hcheck
    cases hset
    exact ⟨before, hprepare, rfl⟩

end Hierarchy

end Scoping
