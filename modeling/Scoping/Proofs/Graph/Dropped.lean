import Scoping.Proofs.Graph.Publication
import Scoping.Proofs.Graph.Search

/-!
# Forward declarations that have been completed

A forward declaration that is completed is dropped, and the symbol that completes it takes its
place. Since only forward declarations are ever replaced, that symbol stays
(`Graph.Step.keeps_complete`): the place of a dropped declaration is held by what completed it
(`Graph.Succession`). The tables outside units take no part in this. A table there may still list
the dropped declaration, but only if it did so before the declaration was completed
(`Graph.Steps.dropped_of_outside`).
-/

namespace Scoping

namespace Graph

variable {g g' : Graph} {types : Set SymbolId} {ns : Namespace} {p q : ScopeId} {name : String}
  {x y : SymbolId}

/-- The symbol was a forward declaration, which has been completed. -/
def Dropped (g : Graph) (x : SymbolId) : Prop := ∃ p, x ∈ (g.scope p).dropped

/-- The place in `p` of the dropped declaration `x` is held by what completed it: an entry of the
same name, or the constructor or destructor. -/
inductive Completed (g : Graph) (p : ScopeId) (x : SymbolId) : Prop where
  | entry {q : ScopeId} {y : SymbolId} : g.owner q = p → g.Inside q →
    (g.scope q).table.get? (g.symbol x).ns (g.symbol x).name = some y →
    (g.symbol y).flags.isIncomplete = false → Completed g p x
  | slot {role : Role} : isReplaceable role = true → (g.slot? p role "").isSome = true →
    Completed g p x

/-- A unit has one symbol of a name in a scope and its partition, and what has been dropped there
has been completed there. -/
structure Succession (g : Graph) : Prop where
  sole : ∀ {p q ns name x y}, g.Inside p → g.owner q = g.owner p →
    (g.scope p).table.get? ns name = some x → (g.scope q).table.get? ns name = some y → q = p
  completed : ∀ {p x}, x ∈ (g.scope p).dropped → g.Completed p x

/-! ### Entries that stay -/

variable (hg : g.Coherent)

include hg

/-- What is not a forward declaration is never replaced. -/
theorem Step.keeps_complete (h : Step types g g') (hy : (g.scope q).table.get? ns name = some y)
    (hcomplete : (g.symbol y).flags.isIncomplete = false) :
    (g'.scope q).table.get? ns name = some y := by
  obtain hcalm | ⟨target, symbol, p, htarget, hsymbol, -, -, -, henters, hentering⟩ := h.cases hg
  · rwa [hcalm.get?]
  · rw [henters.get?, if_neg, hy]
    rintro ⟨rfl, rfl, rfl⟩
    have hv := hg.replace_of_rival? htarget hsymbol hentering hy
    have hincomplete := (met?_of_verdict_eq_replace hg.nested.partitioned hv).2.2.1
    rw [hcomplete] at hincomplete
    cases hincomplete

/-- Steps do not reach the tables outside units. -/
theorem Step.get?_of_not_inside (h : Step types g g') (hq : ¬ g.Inside q) (ns : Namespace)
    (name : String) : (g'.scope q).table.get? ns name = (g.scope q).table.get? ns name := by
  obtain hcalm | ⟨target, symbol, p, -, -, -, -, -, henters, -⟩ := h.cases hg
  · exact hcalm.get? q ns name
  · rw [henters.get?, if_neg]
    rintro ⟨rfl, -, -⟩
    exact hq henters.inside

/-! ### Succession -/

theorem Completed.grows (hgrows : g.Grows g') (hx : x.index < g.symbols.size)
    (hentry : ∀ q ns name y, g.Inside q → (g.scope q).table.get? ns name = some y →
      (g.symbol y).flags.isIncomplete = false → (g'.scope q).table.get? ns name = some y)
    (hslot : ∀ role, (g.slot? p role "").isSome = true → (g'.slot? p role "").isSome = true)
    (h : g.Completed p x) : g'.Completed p x := by
  cases h with
  | @entry q y howner hq hy hcomplete =>
    refine .entry (q := q) (y := y) ?_ (hgrows.inside hg.nested hq) ?_ ?_
    · rw [hgrows.owner_eq hq.lt_size, howner]
    · rw [hgrows.ns hx, hgrows.name hx]
      exact hentry q _ _ y hq hy hcomplete
    · rw [hgrows.isIncomplete (hg.entry hy).1, hcomplete]
  | slot hrole h => exact .slot hrole (hslot _ h)

/-- After a step a name still stands in one scope of a type or unit only. -/
theorem Step.sole (hs : g.Succession) (h : Step types g g') (hp : g'.Inside p)
    (howner : g'.owner q = g'.owner p) (hx : (g'.scope p).table.get? ns name = some x)
    (hy : (g'.scope q).table.get? ns name = some y) : q = p := by
  have hgrows := h.grows
  -- entries of scopes that are older than the step
  have hold : ∀ {p q : ScopeId} {ns : Namespace} {name : String} {x y : SymbolId}, g'.Inside p →
      g'.owner q = g'.owner p → (g.scope p).table.get? ns name = some x →
      (g.scope q).table.get? ns name = some y → q = p := by
    intro p q ns name x y hp howner hx hy
    have hp' := (hgrows.inside_iff hg.nested (lt_size_of_get? hx)).mp hp
    rw [hgrows.owner_eq (lt_size_of_get? hx), hgrows.owner_eq (lt_size_of_get? hy)] at howner
    exact hs.sole hp' howner hx hy
  obtain hcalm | ⟨target, symbol, r, htarget, hsymbol, -, -, rfl, henters, hentering⟩ := h.cases hg
  · rw [hcalm.get?] at hx hy
    exact hold hp howner hx hy
  -- an entry next to the new one was there before, so that the new one must have replaced it
  have hnew : ∀ {q : ScopeId} {y : SymbolId},
      (g.declare target symbol).2.owner q = (g.declare target symbol).2.owner r →
      (g.scope q).table.get? (g.symbol symbol).ns (g.symbol symbol).name = some y → q = r := by
    intro q y howner hy
    rw [hgrows.owner_eq (lt_size_of_get? hy), hgrows.owner_eq henters.inside.lt_size] at howner
    cases hentering with
    | add hv =>
      rw [owner_landing hg.nested.partitioned] at howner
      rw [hg.free_of_add htarget hsymbol hv howner] at hy
      cases hy
    | replace hv hscope =>
      exact hs.sole henters.inside howner (hg.home_of_replace hv hscope).2 hy
  rw [henters.get?] at hx hy
  split at hx
  next hkey =>
    obtain ⟨rfl, rfl, rfl⟩ := hkey
    split at hy
    next hkey' => exact hkey'.1
    next => exact hnew howner hy
  next =>
    split at hy
    next hkey' =>
      obtain ⟨rfl, rfl, rfl⟩ := hkey'
      exact (hnew howner.symm hx).symm
    next => exact hold hp howner hx hy

theorem Step.completed (hs : g.Succession) (h : Step types g g')
    (hx : x ∈ (g'.scope p).dropped) : g'.Completed p x := by
  have hkept : (∀ role, (g.slot? p role "").isSome = true → (g'.slot? p role "").isSome = true) →
      x ∈ (g.scope p).dropped → g'.Completed p x := fun hslot hx =>
    (hs.completed hx).grows hg h.grows (hg.dropped hx).1
      (fun _ _ _ _ _ => h.keeps_complete hg) hslot
  obtain hcalm | ⟨target, symbol, r, htarget, hsymbol, -, -, rfl, henters, hentering⟩ := h.cases hg
  · obtain hx | ⟨-, role, y, hrole, hy⟩ := hcalm.dropped hx
    · exact hkept (fun _ => hcalm.slot) hx
    · exact .slot hrole (by rw [hy]; rfl)
  · obtain hx | ⟨rfl, hrival⟩ := henters.dropped p x hx
    · exact hkept (fun role hrole => by rwa [slot?_declare]) hx
    · obtain ⟨hlt, hns, hname⟩ := hg.entry hrival
      have hv := hg.replace_of_rival? htarget hsymbol hentering hrival
      refine .entry (q := r) (y := symbol) (h.grows.owner_eq henters.inside.lt_size)
        (h.grows.inside hg.nested henters.inside) ?_ ?_
      · rw [h.grows.ns hlt, h.grows.name hlt, hns, hname, henters.get?, if_pos ⟨rfl, rfl, rfl⟩]
      · rw [h.grows.isIncomplete hsymbol.lt_size]
        exact (flags_of_verdict_eq_replace hv).1

theorem Steps.succession (hs : g.Succession) (h : Steps types g g') : g'.Succession := by
  induction h with
  | refl => exact hs
  | tail hsteps hstep ih =>
    have hmid := hg.steps hsteps
    exact ⟨hstep.sole hmid ih, hstep.completed hmid ih⟩

theorem Publishing.succession (hs : g.Succession) (h : g.Publishing g') : g'.Succession where
  sole hp howner hx hy := by
    rw [h.get?_of_inside hp] at hx
    rw [h.get?_of_inside (hp.of_owner_eq howner)] at hy
    rw [h.owner_eq (lt_size_of_get? hx), h.owner_eq (lt_size_of_get? hy)] at howner
    exact hs.sole ((h.inside_iff hg.nested (lt_size_of_get? hx)).mp hp) howner hx hy
  completed hx := by
    rw [h.dropped_eq] at hx
    exact (hs.completed hx).grows hg h.toGrows (hg.dropped hx).1 (fun _ _ _ _ _ hy _ => h.keeps hy)
      fun role hrole => by rwa [h.slot?_eq]

/-- In its own scope, the name of a dropped declaration stands for what completed it. -/
theorem Succession.lookupHere? (hs : g.Succession) (hx : x ∈ (g.scope p).dropped) :
    (∃ y, g.lookupHere? p (g.symbol x).name (some (g.symbol x).ns) = some y ∧
      ¬ g.Dropped y ∧ (g.symbol y).flags.isIncomplete = false) ∨
    ∃ role y, isReplaceable role = true ∧ g.slot? p role "" = some y ∧ ¬ g.Dropped y := by
  have halive : ∀ {y : SymbolId} {q : ScopeId}, (g.symbol y).scope = some q → ¬ g.Dropped y := by
    rintro y q hy ⟨r, hr⟩
    rw [(hg.dropped hr).2] at hy
    cases hy
  cases hs.completed hx with
  | @entry q y howner hq hy hcomplete =>
    refine .inl ⟨y, ?_, halive (hg.home hq hy), hcomplete⟩
    simp only [Graph.lookupHere?, Table.find?]
    obtain rfl | hinner := hg.nested.partitioned.eq_or_inner_of_owner howner
    · rw [hy]
      rfl
    · have hfree : (g.scope p).table.get? (g.symbol x).ns (g.symbol x).name = none := by
        refine Option.eq_none_iff_forall_ne_some.mpr fun z hz => ?_
        have hp : g.owner p = g.owner q := by
          rw [← howner, hg.nested.partitioned.owner_owner]
        exact hg.nested.partitioned.inner_ne hinner (hs.sole hq hp hy hz).symm
      rw [hfree, hinner]
      exact hy
  | @slot role hrole h =>
    obtain ⟨y, hy⟩ := Option.isSome_iff_exists.mp h
    exact .inr ⟨role, y, hrole, hy, halive (hg.slot hy).1⟩

/-! ### Tables outside units -/

/-- A table outside units lists the symbol. -/
def Published (g : Graph) (x : SymbolId) : Prop :=
  ∃ q ns name, ¬ g.Inside q ∧ (g.scope q).table.get? ns name = some x

/-- A forward declaration that is waiting in its scope and is listed elsewhere, too. -/
def Exposed (g : Graph) (x : SymbolId) : Prop :=
  (g.symbol x).flags.isIncomplete = true ∧ ∃ p q ns name, (g.symbol x).scope = some p ∧ q ≠ p ∧
    (g.scope q).table.get? ns name = some x

theorem Exposed.published (h : g.Exposed x) : g.Published x := by
  obtain ⟨-, p, q, ns, name, hscope, hne, hx⟩ := h
  refine ⟨q, ns, name, fun hq => hne ?_, hx⟩
  rw [hg.home hq hx] at hscope
  exact Option.some.inj hscope

theorem Steps.get?_of_not_inside (h : Steps types g g') (hq : ¬ g'.Inside q) (ns : Namespace)
    (name : String) : (g'.scope q).table.get? ns name = (g.scope q).table.get? ns name := by
  induction h with
  | refl => rfl
  | tail hsteps hstep ih =>
    have hmid := hg.steps hsteps
    have hq' := fun h => hq (hstep.grows.inside hmid.nested h)
    rw [hstep.get?_of_not_inside hmid hq', ih hq']

theorem Steps.published (h : Steps types g g') (hx : g.Published x) : g'.Published x := by
  obtain ⟨q, ns, name, hq, hx⟩ := hx
  have hq' : ¬ g'.Inside q := by rwa [h.grows.inside_iff hg.nested (lt_size_of_get? hx)]
  exact ⟨q, ns, name, hq', by rwa [h.get?_of_not_inside hg hq']⟩

theorem Publishing.published (h : g.Publishing g') (hx : g.Published x) : g'.Published x := by
  obtain ⟨q, ns, name, hq, hx⟩ := hx
  refine ⟨q, ns, name, ?_, h.keeps hx⟩
  rwa [h.inside_iff hg.nested (lt_size_of_get? hx)]

/-- A listed symbol that is dropped was a forward declaration of a unit. -/
theorem Step.dropped_cases (h : Step types g g') (hx : g.Listed x) (hd : g'.Dropped x) :
    g.Dropped x ∨ (g.symbol x).flags.isIncomplete = true ∧ (g.symbol x).managed = false := by
  obtain ⟨p, hd⟩ := hd
  obtain hcalm | ⟨target, symbol, r, htarget, hsymbol, -, -, -, henters, hentering⟩ := h.cases hg
  · exact .inl ⟨p, (hcalm.dropped hd).resolve_right fun h => h.1 hx⟩
  · obtain hd | ⟨-, hrival⟩ := henters.dropped p x hd
    · exact .inl ⟨p, hd⟩
    · have hv := hg.replace_of_rival? htarget hsymbol hentering hrival
      exact .inr ⟨(met?_of_verdict_eq_replace hg.nested.partitioned hv).2.2.1,
        (hg.listed_of_replace hv).2.1⟩

theorem Steps.dropped_cases (h : Steps types g g') (hx : g.Published x) (hd : g'.Dropped x) :
    g.Dropped x ∨ (g.symbol x).flags.isIncomplete = true ∧ (g.symbol x).managed = false := by
  have hlt : x.index < g.symbols.size := by
    obtain ⟨q, ns, name, -, hx⟩ := hx
    exact (hg.entry hx).1
  induction h with
  | refl => exact .inl hd
  | tail hsteps hstep ih =>
    obtain ⟨q, ns, name, -, hlisted⟩ := Steps.published hg hsteps hx
    obtain hd | ⟨hincomplete, hmanaged⟩ :=
      hstep.dropped_cases (hg.steps hsteps) ⟨q, ns, name, hlisted⟩ hd
    · exact ih hd
    · have hgrows := Steps.grows hsteps
      rw [hgrows.isIncomplete hlt] at hincomplete
      rw [hgrows.managed hlt] at hmanaged
      exact .inr ⟨hincomplete, hmanaged⟩

/-- A table that lists a dropped declaration did so before the unit was analysed. The declaration
had been dropped already, or it was a forward declaration that the unit has completed. -/
theorem published_of_phases {g₁ : Graph} (hsteps : Steps types g g₁) (hpub : g₁.Publishing g')
    (hx : g'.Listed x) (hd : g'.Dropped x) : g.Published x ∧ (g.Dropped x ∨ g.Exposed x) := by
  have hg₁ := hg.steps hsteps
  have hd₁ : g₁.Dropped x := by simpa only [Dropped, hpub.dropped_eq] using hd
  obtain ⟨r, hr⟩ := hd₁
  -- dropped declarations have no owner, so that no table of a unit lists them
  have houtside : ∀ {q ns name}, (g₁.scope q).table.get? ns name = some x → ¬ g₁.Inside q := by
    intro q ns name hx hq
    have hscope := (hg₁.dropped hr).2
    rw [hg₁.home hq hx] at hscope
    cases hscope
  have hentry : ∃ q ns name, ¬ g₁.Inside q ∧ (g₁.scope q).table.get? ns name = some x := by
    obtain ⟨q, ns, name, hx⟩ := hx
    obtain hx | ⟨-, src, hsrc, hx⟩ := hpub.entry hx
    · exact ⟨q, ns, name, houtside hx, hx⟩
    · exact absurd hsrc.inside (houtside hx)
  obtain ⟨q, ns, name, hq, hx₁⟩ := hentry
  have hx₀ : (g.scope q).table.get? ns name = some x := by
    rwa [← hsteps.get?_of_not_inside hg hq]
  have hq₀ : ¬ g.Inside q := fun h => hq (hsteps.grows.inside hg.nested h)
  have hpublished : g.Published x := ⟨q, ns, name, hq₀, hx₀⟩
  refine ⟨hpublished, ?_⟩
  obtain hd | ⟨hincomplete, hmanaged⟩ := hsteps.dropped_cases hg hpublished ⟨r, hr⟩
  · exact .inl hd
  · cases hscope : (g.symbol x).scope with
    | none => exact .inl (hg.stale ⟨q, ns, name, hx₀⟩ hscope)
    | some p =>
      refine .inr ⟨hincomplete, p, q, ns, name, hscope, ?_, hx₀⟩
      rintro rfl
      obtain hp | hm := hg.managed hscope
      · exact hq₀ hp
      · rw [hmanaged] at hm
        cases hm

/-! ### Dead declarations -/

/-- Nothing leads to a dropped declaration any more: no table lists it, no name stands for it, and
in its own scope its name stands for what completed it. -/
structure DroppedDead (g : Graph) : Prop where
  not_listed : ∀ {x}, g.Dropped x → ¬ g.Listed x
  not_found : ∀ {start path ns x}, (g.lookupPath start path ns).1.symbol? = some x → ¬ g.Dropped x
  not_member : ∀ {members name ns viaSuper x},
    (g.lookupMember members name ns viaSuper).symbol? = some x → ¬ g.Dropped x
  lookupHere? : ∀ {p x}, x ∈ (g.scope p).dropped →
    (∃ y, g.lookupHere? p (g.symbol x).name (some (g.symbol x).ns) = some y ∧
      ¬ g.Dropped y ∧ (g.symbol y).flags.isIncomplete = false) ∨
    ∃ role y, isReplaceable role = true ∧ g.slot? p role "" = some y ∧ ¬ g.Dropped y

/-- It is enough that no table lists a dropped declaration. -/
theorem Succession.droppedDead (hs : g.Succession)
    (h : ∀ x, g.Dropped x → ¬ g.Listed x) : g.DroppedDead := by
  have hheld : ∀ {x}, g.Held x → ¬ g.Dropped x := by
    rintro x (hx | ⟨p, role, name, hx⟩) hd
    · exact h x hd hx
    · obtain ⟨q, hq⟩ := hd
      have hscope := (hg.dropped hq).2
      rw [(hg.slot hx).1] at hscope
      cases hscope
  exact ⟨h _, fun hx => hheld ((answers_held g).lookupPath trivial (fun _ _ => trivial) _ _ hx),
    fun hx => hheld (((answers_held g).search _ _).searchMember _ trivial _ hx), hs.lookupHere? hg⟩

omit hg

/-- Does a table list a dropped declaration? -/
def listsDropped (g : Graph) : Bool :=
  g.scopes.any fun p => p.dropped.any fun x => g.scopes.any fun q => q.table.ids.contains x

theorem exists_scope_iff {P : Scope → Prop} (hblank : ¬ P .blank) :
    (∃ s ∈ g.scopes, P s) ↔ ∃ p, P (g.scope p) := by
  constructor
  · rintro ⟨s, hs, h⟩
    obtain ⟨i, hi, rfl⟩ := Array.mem_iff_getElem.mp hs
    exact ⟨⟨i⟩, by simpa [scope, hi] using h⟩
  · rintro ⟨p, h⟩
    have hlt : p.index < g.scopes.size := scope_lt_size fun hb => hblank (hb ▸ h)
    refine ⟨g.scope p, ?_, h⟩
    simp [scope, hlt]

theorem listsDropped_iff (hg : g.Coherent) :
    g.listsDropped = true ↔ ∃ x, g.Dropped x ∧ g.Listed x := by
  have hids : ∀ x, (∃ s ∈ g.scopes, x ∈ s.table.ids) ↔ g.Listed x := by
    intro x
    rw [exists_scope_iff (P := fun s => x ∈ s.table.ids) (by decide +revert)]
    exact exists_congr fun q => (hg.functional q).mem_ids_iff
  have hdropped : ∀ x, (∃ s ∈ g.scopes, x ∈ s.dropped) ↔ g.Dropped x := fun x =>
    exists_scope_iff (P := fun s => x ∈ s.dropped) List.not_mem_nil
  simp only [listsDropped, Array.any_eq_true', List.any_eq_true, List.contains_iff_mem, hids]
  constructor
  · rintro ⟨s, hs, x, hx, hlisted⟩
    exact ⟨x, (hdropped x).mp ⟨s, hs, hx⟩, hlisted⟩
  · rintro ⟨x, hx, hlisted⟩
    obtain ⟨s, hs, hx⟩ := (hdropped x).mpr hx
    exact ⟨s, hs, x, hx, hlisted⟩

end Graph

end Scoping
