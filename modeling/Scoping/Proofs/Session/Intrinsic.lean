import Scoping.Proofs.Graph.Visibility
import Scoping.Proofs.Session.Balance
import Scoping.Proofs.Session.Course

/-!
# The names that a session supplies

A declaration is rejected if a symbol of the session has its name in a scope that it reaches, and a
scope reaches the global one, where these symbols are, by going outward. It goes outward no further
than to a scope that it has already met as a superclass, though. So where a class inherits from a
class that encloses it, a declaration does not see the names of the session (`Graph.Entangled`).
Superclasses are linked before the members of traits are copied: these copies, and what is declared
in their bodies, are all that may take such a name (`Session.managed_or_slipped`).
-/

namespace Scoping

namespace Graph

variable {g g' : Graph} {types : Set SymbolId} {target : ScopeId}

/-! ### The way outward -/

/-- Every scope but the global one has a parent. -/
def Rooted (g : Graph) : Prop :=
  ∀ q, q.index < g.scopes.size → q ≠ global → (g.scope q).parent ≠ none

namespace Rooted

variable (hg : g.Rooted)

include hg

theorem newScope (kind : ScopeKind) (parent : ScopeId) :
    (g.newScope kind (some parent)).2.Rooted := fun q hq hne => by
  rw [scope_newScope]
  split
  · exact Option.some_ne_none _
  · split
    · exact Option.some_ne_none _
    · refine hg q ?_ hne
      rw [size_scopes_newScope] at hq
      grind

theorem modifyScope {p : ScopeId} {f : Scope → Scope} (hf : ∀ s, (f s).parent = s.parent) :
    (g.modifyScope p f).Rooted := fun q hq hne => by
  rw [size_scopes_modifyScope] at hq
  rw [scope_modifyScope_congr Scope.parent p q hf]
  exact hg q hq hne

theorem newMemberScope (host : SymbolId) (parent : ScopeId) :
    (g.newMemberScope host parent).2.Rooted := by
  refine (hg.newScope .member parent).modifyScope ?_
  exact fun _ => rfl

theorem allocType (parent : ScopeId) (s : Symbol) : (g.allocType parent s).2.Rooted :=
  hg.newMemberScope ⟨g.symbols.size⟩ parent

theorem subModule (parent : ScopeId) (name : String) : (g.subModule parent name).2.Rooted := by
  simp only [Graph.subModule]
  split
  · exact hg
  · refine ((hg.newScope .module parent).modifyScope ?_).modifyScope ?_
    all_goals exact fun _ => rfl

theorem step (h : Step types g g') : g'.Rooted := by
  have hkeep (hsize : g'.scopes.size = g.scopes.size) : g'.Rooted := fun q hq hne => by
    rw [hsize] at hq
    rw [h.grows.parent hq]
    exact hg q hq hne
  cases h with
  | newScope => exact hg.newScope _ _
  | allocType => exact hg.allocType _ _
  | alloc | amendSymbol => exact hkeep rfl
  | amendScope => exact hkeep (size_scopes_modifyScope _ _ _)
  | link => exact hkeep (by simp [modifyMember])
  | declare => exact hkeep size_scopes_declare
  | declareSlot => exact hkeep size_scopes_declareSlot
  | putSlot => exact hkeep (by simp [Graph.putSlot, modifyMember])

theorem move (h : Move g g') : g'.Rooted := by
  cases h with
  | step h => exact hg.step h
  | publish h =>
    cases h with
    | openModule name => exact hg.subModule _ name
    | enter => exact hg.modifyScope fun _ => rfl
  | allocRoot => exact hg.allocType _ _
  | manage => exact hg
  | supply =>
    refine fun q hq hne => ?_
    rw [size_scopes_declare] at hq
    rw [grows_declare.parent hq]
    exact hg q hq hne

/-- The way outward leads to the global scope. -/
theorem outward_global (hnested : g.Nested) (q : ScopeId) (hq : q.index < g.scopes.size)
    (houter : (g.scope q).outer = none) : g.Outward q global := by
  induction hn : q.index using Nat.strong_induction_on generalizing q with
  | _ n ih =>
    subst hn
    by_cases hglobal : q = global
    · rw [hglobal]
      exact .refl
    · obtain ⟨p, hp⟩ := Option.ne_none_iff_exists'.mp (hg q hq hglobal)
      have hnext : g.outward? q = some (g.owner p) := by rw [outward?, hp, Option.map_some]
      have hlt := hnested.outward?_lt hnext
      exact .head hnext (ih _ hlt (g.owner p) (Nat.lt_trans hlt hq)
        (hnested.partitioned.outer_owner p) rfl)

end Rooted

/-! ### The reach of a scope -/

/-- A class around the scope inherits from a class that encloses it. -/
def Entangled (g : Graph) (target : ScopeId) : Prop :=
  ∃ p r, g.Outward target p ∧ g.Beneath p r ∧ g.Inherits p r

theorem Unlinked.not_entangled (h : g.Unlinked target) : ¬ g.Entangled target := by
  rintro ⟨p, r, hp, -, hinherits⟩
  obtain ⟨q, hq, -⟩ := Relation.TransGen.head'_iff.mp hinherits
  rw [h p hp] at hq
  cases hq

/-- Roots are not in classes. -/
theorem Nested.unlinked_of_isRoot (hg : g.Nested) (h : (g.scope target).kind.isRoot = true) :
    g.Unlinked target := fun q hq => by
  rw [superScope?, memberInfo?, hg.member_of_isRoot (hg.isRoot_of_outward hq h), Option.bind_none]

/-- A reach grows by superclasses and their partitions. -/
theorem mem_reachSupers {q : ScopeId} : ∀ (fuel : Nat) (seen : List ScopeId)
    (next : Option ScopeId), q ∈ g.reachSupers fuel seen next → q ∈ seen ∨
      ∃ p ∈ next, ∃ r, Relation.ReflTransGen (fun a b => g.superScope? a = some b) p r ∧
        q ∈ g.withInner r
  | 0, _, _, h => .inl h
  | _ + 1, _, none, h => .inl h
  | fuel + 1, seen, some id, h => by
    rw [reachSupers] at h
    split at h
    · exact .inl h
    · rcases mem_reachSupers fuel _ _ h with h | ⟨p, hp, r, hr, hq⟩
      · rcases List.mem_append.mp h with h | h
        · exact .inl h
        · exact .inr ⟨id, rfl, id, .refl, h⟩
      · exact .inr ⟨id, rfl, r, .head hp hr, hq⟩

/-- What has been seen on the way from `target` to `id`: scopes further in, their superclasses and
the partitions of these. -/
def Seen (g : Graph) (target id : ScopeId) (seen : List ScopeId) : Prop :=
  ∀ q ∈ seen, ∃ p r, g.Outward target p ∧ g.Beneath p id ∧
    Relation.ReflTransGen (fun a b => g.superScope? a = some b) p r ∧ q ∈ g.withInner r

theorem Seen.next {id next : ScopeId} {seen : List ScopeId} (h : g.Seen target id seen)
    (hid : g.Outward target id) (hnext : g.outward? id = some next) (fuel : Nat) :
    g.Seen target next (g.reachSupers fuel (seen ++ g.withInner id) (g.superScope? id)) := by
  intro q hq
  rcases mem_reachSupers fuel _ _ hq with hq | ⟨p, hp, r, hr, hq⟩
  · rcases List.mem_append.mp hq with hq | hq
    · obtain ⟨p, r, hp, hbeneath, hr, hq⟩ := h q hq
      exact ⟨p, r, hp, hbeneath.tail hnext, hr, hq⟩
    · exact ⟨id, id, hid, .single hnext, .refl, hq⟩
  · exact ⟨id, r, hid, .single hnext, .head hp hr, hq⟩

/-- The way outward ends early only where a class inherits from a class that encloses it. -/
theorem Seen.entangled (hg : g.Nested) (htarget : (g.scope target).outer = none) {id : ScopeId}
    {seen : List ScopeId} (h : g.Seen target id seen) (hout : g.Outward target id)
    (hid : id ∈ seen) : g.Entangled target := by
  obtain ⟨p, r, hp, hbeneath, hr, hmem⟩ := h id hid
  -- the scopes on the way are no partitions
  have hr' : id = r := (mem_withInner.mp hmem).resolve_right fun hinner => by
    have houter := hg.partitioned.outer_of_inner hinner
    rw [hg.outer_of_outward hout htarget] at houter
    cases houter
  subst hr'
  refine ⟨p, id, hp, hbeneath, ?_⟩
  refine (Relation.reflTransGen_iff_eq_or_transGen.mp hr).resolve_left ?_
  rintro rfl
  exact Nat.lt_irrefl _ (hg.beneath_lt hbeneath)

theorem mem_reachWithin (hg : g.Nested) (htarget : (g.scope target).outer = none)
    (htangle : ¬ g.Entangled target) {q : ScopeId} : ∀ (fuel : Nat) (seen : List ScopeId)
    (id : ScopeId), id.index < fuel → g.Outward target id → g.Outward id q →
      g.Seen target id seen → q ∈ g.reachWithin fuel seen (some id)
  | 0, _, _, hfuel, _, _, _ => absurd hfuel (Nat.not_lt_zero _)
  | fuel + 1, seen, id, hfuel, hid, hq, hseen => by
    rw [reachWithin, if_neg fun h => htangle (hseen.entangled hg htarget hid h)]
    dsimp only
    rcases Relation.ReflTransGen.cases_head hq with rfl | ⟨next, hnext, hq⟩
    · have hmem : id ∈ seen ++ g.withInner id :=
        List.mem_append_right _ (mem_withInner.mpr (.inl rfl))
      exact (prefix_reachWithin g _ _ _).subset ((prefix_reachSupers g _ _ _).subset hmem)
    · rw [hnext]
      have hlt := hg.outward?_lt hnext
      exact mem_reachWithin hg htarget htangle fuel _ next (by omega) (hid.tail hnext) hq
        (hseen.next hid hnext _)

/-- Unless a class around it inherits from a class that encloses it, a scope reaches all scopes
further out. -/
theorem mem_reach_of_not_entangled (hg : g.Nested) (htarget : g.Place target)
    (htangle : ¬ g.Entangled target) {q : ScopeId} (hq : g.Outward target q) :
    q ∈ g.reach target := by
  rw [reach, htarget.owner_eq]
  exact mem_reachWithin hg htarget.outer_eq_none htangle _ _ _ htarget.inside.lt_size .refl hq
    fun _ h => absurd h List.not_mem_nil

end Graph

namespace Session

open Scoping.Graph

variable {config : Config} {reducer : Reducer} {loader : Loader} {s : Session} {g g' : Graph}

theorem Visits.rooted (h : Visits config g) : g.Rooted := by
  have hinitial : initial.Rooted := fun q hq hne => by
    refine absurd ?_ hne
    obtain ⟨index⟩ := q
    exact congrArg ScopeId.mk (Nat.lt_one_iff.mp hq)
  have hmoves := h.moves
  clear h
  induction hmoves with
  | refl => exact hinitial
  | tail _ hmove ih => exact ih.move hmove

/-! ### Names that slip through -/

/-- The step from `g` to `g'` declares the symbol where a class inherits from a class that encloses
it, as the copy of a member of a trait or in the body of one. -/
def Slips (g g' : Graph) (x : SymbolId) : Prop :=
  ∃ target, g.Entangled target ∧ (g.Delegated target ∨ (g.symbol x).origin ≠ none) ∧
    g' = (g.declare target x).2

/-- The symbol has slipped through in the course of the session. -/
def Slipped (config : Config) (g : Graph) (x : SymbolId) : Prop :=
  ∃ g₁ g₂, Visits config g₁ ∧ Slips g₁ g₂ x ∧ Moves g₂ g

theorem Slipped.moves {x : SymbolId} (h : Slipped config g x) (hmoves : Moves g g') :
    Slipped config g' x := by
  obtain ⟨g₁, g₂, hvisits, hslips, hfirst⟩ := h
  exact ⟨g₁, g₂, hvisits, hslips, hfirst.trans hmoves⟩

/-- The symbols of the session are where they were at its start, and no others have their names,
unless they have slipped through. Units and modules have no such entries. -/
structure Fenced (config : Config) (g : Graph) : Prop where
  held : ∀ {ns name m}, ((start config).graph.scope global).table.get? ns name = some m →
    (g.scope global).table.get? ns name = some m ∧ (g.symbol m).managed = true
  entry : ∀ {q ns name x ns' m}, (g.scope q).table.get? ns name = some x →
    ((start config).graph.scope global).table.get? ns' name = some m →
    (g.symbol x).managed = true ∨ Slipped config g x
  root : ∀ {q ns name x ns' m}, g.Inside q → (g.scope q).kind.isRoot = true →
    (g.scope q).table.get? ns name = some x →
    ((start config).graph.scope global).table.get? ns' name = some m →
    (g.symbol x).managed = true

theorem fenced_start (config : Config) : Fenced config (start config).graph := by
  have hf := founding_start config
  have hmanaged : ∀ {q ns name x}, ((start config).graph.scope q).table.get? ns name = some x →
      ((start config).graph.symbol x).managed = true := fun hx =>
    (hf.owner (hf.agreement.entry hx).1).2
  exact ⟨fun hm => ⟨hm, hmanaged hm⟩, fun hx _ => .inl (hmanaged hx), fun _ _ hx _ => hmanaged hx⟩

section Entering

variable {target p : ScopeId} {symbol m : SymbolId} {ns : Namespace}
  (hvisits : Visits config g) (hf : Fenced config g) (htarget : g.Place target)
  (hentering : g.Entering target symbol p)
  (hm : ((start config).graph.scope global).table.get? ns (g.symbol symbol).name = some m)

include hvisits hf htarget hentering hm

/-- What is entered under a name of the session does not see this name. -/
theorem managed_or_entangled : (g.symbol symbol).managed = true ∨ g.Entangled target := by
  have hnested := hvisits.coherent.nested
  have hunmanaged : g.Unmanaged target symbol := by
    rw [← htarget.owner_eq]
    cases hentering with
    | add hv => exact (met?_of_verdict_eq_add hnested.partitioned hv).1
    | replace hv => exact (met?_of_verdict_eq_replace hnested.partitioned hv).1
  obtain ⟨hheld, hmanaged⟩ := hf.held hm
  by_cases heq : m = symbol
  · exact .inl (heq ▸ hmanaged)
  · refine .inr (by_contra fun htangle => ?_)
    have hreach := mem_reach_of_not_entangled hnested htarget htangle
      (hvisits.rooted.outward_global hnested target htarget.inside.lt_size htarget.outer_eq_none)
    rw [hunmanaged.managed_eq_false hreach heq hheld] at hmanaged
    cases hmanaged

/-- What is entered into a table has no name of the session, or it slips through. -/
theorem slips_of_entering
    (hfree : g.Unlinked target ∨ g.Delegated target ∨ (g.symbol symbol).origin ≠ none) :
    (g.symbol symbol).managed = true ∨ Slips g (g.declare target symbol).2 symbol :=
  (managed_or_entangled hvisits hf htarget hentering hm).imp_right fun htangle =>
    ⟨target, htangle, hfree.resolve_left fun hunlinked => hunlinked.not_entangled htangle, rfl⟩

/-- Nothing slips into a unit or module. -/
theorem managed_of_entering_root (hroot : (g.scope p).kind.isRoot = true) :
    (g.symbol symbol).managed = true := by
  have hg := hvisits.coherent
  have htangle := managed_or_entangled hvisits hf htarget hentering hm
  cases hentering with
  | add hv =>
    have houter : (g.scope (g.landing target symbol)).outer = none :=
      hg.nested.outer_of_kind fun hinner => by
        rw [hinner] at hroot
        cases hroot
    have heq : g.owner (g.landing target symbol) = g.owner target :=
      owner_landing hg.nested.partitioned
    rw [owner_of_outer_eq_none houter, htarget.owner_eq] at heq
    rw [heq] at hroot
    exact htangle.resolve_right (hg.nested.unlinked_of_isRoot hroot).not_entangled
  | replace hv hold =>
    -- the symbol that is replaced would have the name as well
    obtain ⟨hin, hget⟩ := hg.home_of_replace hv hold
    have hmanaged := hf.root hin hroot hget hm
    rw [(hg.listed_of_replace hv).2.1] at hmanaged
    cases hmanaged

end Entering

/-- A step enters nothing under a name of the session, unless it slips through. -/
theorem Fenced.entry_step (hvisits : Visits config g) (hf : Fenced config g)
    (h : Step .univ g g') {q : ScopeId} {ns ns' : Namespace} {name : String} {x m : SymbolId}
    (hx : (g'.scope q).table.get? ns name = some x)
    (hm : ((start config).graph.scope global).table.get? ns' name = some m) :
    (g.scope q).table.get? ns name = some x ∨ (g'.symbol x).managed = true ∨ Slips g g' x := by
  refine (h.entry_cases hvisits.coherent hx).imp_right ?_
  rintro ⟨-, rfl, target, htarget, hsymbol, hfree, hdeclare, hentering⟩
  rw [h.grows.managed hsymbol.lt_size, hdeclare]
  exact slips_of_entering hvisits hf htarget hentering hm hfree

theorem Fenced.step (hvisits : Visits config g) (hf : Fenced config g) (h : Step .univ g g') :
    Fenced config g' := by
  have hg := hvisits.coherent
  refine ⟨fun {ns name m} hm => ?_, fun {q ns name x ns' m} hx hm => ?_,
    fun {q ns name x ns' m} hq hroot hx hm => ?_⟩
  · obtain ⟨hheld, hmanaged⟩ := hf.held hm
    rw [h.get?_of_not_inside hg hg.nested.not_inside_global,
      h.grows.managed (hg.entry hheld).1]
    exact ⟨hheld, hmanaged⟩
  · rcases hf.entry_step hvisits h hx hm with hx | hmanaged | hslips
    · rw [h.grows.managed (hg.entry hx).1]
      exact (hf.entry hx hm).imp_right fun hslipped => hslipped.moves (.single (.step h))
    · exact .inl hmanaged
    · exact .inr ⟨g, g', hvisits, hslips, .refl⟩
  · rcases h.entry_cases hg hx with hx | ⟨hin, rfl, target, htarget, hsymbol, -, -, hentering⟩
    · have hlt := lt_size_of_get? hx
      rw [h.grows.kind hlt] at hroot
      rw [h.grows.managed (hg.entry hx).1]
      exact hf.root ((h.grows.inside_iff hg.nested hlt).mp hq) hroot hx hm
    · rw [h.grows.kind hin.lt_size] at hroot
      rw [h.grows.managed hsymbol.lt_size]
      exact managed_of_entering_root hvisits hf htarget hentering hm hroot

theorem Fenced.publish (hg : g.Coherent) (hf : Fenced config g) (h : Publish g g') :
    Fenced config g' := by
  have hp := h.publishing hg
  refine ⟨fun {ns name m} hm => ?_, fun {q ns name x ns' m} hx hm => ?_,
    fun {q ns name x ns' m} hq hroot hx hm => ?_⟩
  · obtain ⟨hheld, hmanaged⟩ := hf.held hm
    exact ⟨hp.keeps hheld, by rwa [hp.symbol]⟩
  · have hold : ∃ q, (g.scope q).table.get? ns name = some x := by
      rcases hp.entry hx with hx | ⟨-, src, -, hx⟩ <;> exact ⟨_, hx⟩
    obtain ⟨q, hx⟩ := hold
    rw [hp.symbol]
    exact (hf.entry hx hm).imp_right fun hslipped => hslipped.moves (.single (.publish h))
  · rw [hp.get?_of_inside hq] at hx
    have hlt := lt_size_of_get? hx
    rw [hp.kind hlt] at hroot
    rw [hp.symbol]
    exact hf.root ((hp.inside_iff hg.nested hlt).mp hq) hroot hx hm

theorem Moment.fenced (hs : Reaches (startWith config reducer loader) s)
    (hf : Fenced config s.graph) (h : s.Moment g) : Fenced config g := by
  obtain ⟨g₁, hsteps, hpublishes⟩ := h
  have hfirst : Fenced config g₁ := by
    clear hpublishes
    induction hsteps with
    | refl => exact hf
    | tail hbefore hstep ih => exact ih.step (.going hs ⟨_, hbefore, .refl⟩) hstep
  have hg₁ := (sound_of_reaches hs).coherent.steps hsteps
  induction hpublishes with
  | refl => exact hfirst
  | tail hbefore hpublish ih => exact ih.publish (Publishes.spec hg₁ hbefore).1 hpublish

theorem fenced_of_reaches (h : Reaches (startWith config reducer loader) s) :
    Fenced config s.graph := by
  induction h with
  | refl => exact fenced_start config
  | tail hreaches hnext ih =>
    exact Moment.fenced hreaches ih (hnext.phases (sound_of_reaches hreaches))

/-- The symbols of a session are where it has put them at its start. -/
theorem Moment.reserved (hg : s.Moment g) (hs : Reaches (startWith config reducer loader) s) :
    Reserved (start config).graph g := by
  have hf := founding_start config
  refine hg.induction ⟨fun {q ns name x} hx _ => ?_⟩ (fun hg hr h => h.reserved hg hr)
    (fun hg hr h => (h.spec hg).2.reserved hg hr) hs
  obtain rfl := (hf.owner (hf.agreement.entry hx).1).1
  exact ⟨rfl, hx⟩

/-- A symbol that has the name of one that the session supplies is supplied by the session itself,
or it is a copy that was declared where a class inherits from a class that encloses it. No other
symbol is entered under such a name by any step. -/
theorem managed_or_slipped (hs : Reaches (startWith config reducer loader) s) (hg : s.Moment g)
    {ns' : Namespace} {name : String} {m : SymbolId}
    (hm : (g.scope global).table.get? ns' name = some m) (hmanaged : (g.symbol m).managed = true) :
    (∀ q ns x, (g.scope q).table.get? ns name = some x →
      (g.symbol x).managed = true ∨ Slipped config g x) ∧
    ∀ g', Step .univ g g' → ∀ q ns x, (g'.scope q).table.get? ns name = some x →
      (g.scope q).table.get? ns name = some x ∨ (g'.symbol x).managed = true ∨ Slips g g' x := by
  have hfenced := hg.fenced hs (fenced_of_reaches hs)
  have hstart := ((hg.reserved hs).entry hm hmanaged).2
  exact ⟨fun q ns x hx => hfenced.entry hx hstart,
    fun g' h q ns x hx => hfenced.entry_step (.going hs hg) h hx hstart⟩

/-! ### A class that inherits from the class around it -/

/-- A class inside its superclass takes a function of a trait under the name `print`. -/
def enclosedSubclass : Tree :=
  { file := "a.phs"
    nodes := #[{ kind := .block [] },
      { kind := .fnDecl { name := some "m", mods := [.visible], body := some ⟨0⟩ } },
      { kind := .traitDecl { name := "T", members := [⟨1⟩] } },
      { kind := .classDecl
          { name := "D"
            super := some (.single "B")
            uses := [
              { path := .single "T", items := some [{ name := "m", rename := some "print" }] }] } },
      { kind := .classDecl { name := "B", members := [⟨3⟩] } },
      { kind := .unit [⟨2⟩, ⟨4⟩] }]
    root := ⟨5⟩ }

/-- In a session with an intrinsic function `print`, the copy is entered under this name. -/
theorem exists_enclosedSubclass :
    ∃ s, Reaches (startWith { intrinsics := ["print"] } Reduce.node (.counting [])) s ∧
      (s.graph.scope ⟨7⟩).table.get? .value "print" = some ⟨5⟩ ∧
      (s.graph.scope global).table.get? .internal "print" = some ⟨0⟩ ∧
      (s.graph.symbol ⟨0⟩).managed = true ∧ (s.graph.symbol ⟨5⟩).managed = false := by
  have hend : (start { intrinsics := ["print"] }).yields enclosedSubclass (fun _ _ s => decide (
      (s.graph.scope ⟨7⟩).table.get? .value "print" = some ⟨5⟩ ∧
      (s.graph.scope global).table.get? .internal "print" = some ⟨0⟩ ∧
      (s.graph.symbol ⟨0⟩).managed = true ∧ (s.graph.symbol ⟨5⟩).managed = false)) = true := by
    decide +kernel
  obtain ⟨r, t', s, hs, hgraph⟩ := exists_of_yields hend
  exact ⟨s, .single ⟨enclosedSubclass, r, t', hs⟩, of_decide_eq_true hgraph⟩

/-- The copy has slipped through. -/
theorem managed_or_slipped_enclosedSubclass :
    ∃ s, Reaches (startWith { intrinsics := ["print"] } Reduce.node (.counting [])) s ∧
      (s.graph.scope ⟨7⟩).table.get? .value "print" = some ⟨5⟩ ∧
      (s.graph.symbol ⟨5⟩).managed = false ∧
      Slipped { intrinsics := ["print"] } s.graph ⟨5⟩ := by
  obtain ⟨s, hs, hprint, hheld, hmanaged, hcopy⟩ := exists_enclosedSubclass
  have hslipped := (managed_or_slipped hs (moment_graph s) hheld hmanaged).1 _ _ _ hprint
  rw [hcopy] at hslipped
  exact ⟨s, hs, hprint, hcopy, hslipped.resolve_left Bool.false_ne_true⟩

/-- So the names that a session supplies are not safe in general. -/
theorem not_managed_enclosedSubclass :
    ¬ ∀ (config : Config) (reducer : Reducer) (loader : Loader) (s : Session),
      Reaches (startWith config reducer loader) s → ∀ q ns ns' name x m,
        (s.graph.scope q).table.get? ns name = some x →
        (s.graph.scope global).table.get? ns' name = some m →
        (s.graph.symbol m).managed = true → (s.graph.symbol x).managed = true := by
  intro h
  obtain ⟨s, hs, hprint, hheld, hmanaged, hcopy⟩ := exists_enclosedSubclass
  rw [h _ _ _ s hs _ _ _ _ _ _ hprint hheld hmanaged] at hcopy
  cases hcopy

end Session

end Scoping
