import Scoping.Proofs.Graph.Dropped
import Scoping.Proofs.Graph.Merge

/-!
# What a new unit sees

The analysis of a unit leaves the global tree of modules alone until the unit is published
(`Graph.Sprouts.entryAt?_global`). From a unit in which nothing has been declared yet, every entry
of the global tree is found by its path (`Graph.lookupPath_openUnit`).
-/

namespace Scoping

namespace Graph

variable {g g' : Graph} {types : Set SymbolId} {root : ScopeId} {path : List String}
  {ns : Namespace} {name : String} {x : SymbolId} {p q : ScopeId}

/-! ### The global tree during an analysis -/

namespace Sprouts

variable (h : g.Sprouts g') {q : ScopeId}

include h

theorem moduleAt?_keeps (hq : g.moduleAt? root path = some q) :
    g'.moduleAt? root path = some q := by
  induction path using List.reverseRec generalizing q with
  | nil => exact hq
  | append_singleton path name ih =>
    obtain ⟨p, hp, hq⟩ := moduleAt?_concat_eq_some hq
    rw [moduleAt?_concat, ih hp, Option.bind_some, h.keeps hq]

/-- What is below a new module is new. -/
theorem moduleAt?_cases (hg : g'.Nested) (hq : g'.moduleAt? root path = some q) :
    g.moduleAt? root path = some q ∨ g.scopes.size ≤ q.index := by
  induction path using List.reverseRec generalizing q with
  | nil => exact .inl hq
  | append_singleton path name ih =>
    obtain ⟨p, hp, hq⟩ := moduleAt?_concat_eq_some hq
    rcases ih hp with hold | hnew
    · refine (h.sprout hq).imp_left fun hq => ?_
      rw [moduleAt?_concat, hold, Option.bind_some, hq]
    · have hlt := index_lt_of_mem_modules hg (NameMap.mem_entries_of_find? hq)
      exact .inr (Nat.le_of_lt (Nat.lt_of_le_of_lt hnew hlt))

/-- Steps enter nothing into the global tree: its old scopes are outside units, and its new ones are
empty. -/
theorem entryAt?_global (hg : g.Coherent) (hsteps : Steps types g g') (path : List String)
    (ns : Namespace) (name : String) :
    g'.entryAt? global path ns name = g.entryAt? global path ns name := by
  have hg' := (hg.steps hsteps).nested
  cases hq : g'.moduleAt? global path with
  | none =>
    have hnone : g.moduleAt? global path = none :=
      Option.eq_none_iff_forall_ne_some.mpr fun p hp => by
        rw [h.moduleAt?_keeps hp] at hq
        cases hq
    rw [entryAt?, hq, entryAt?, hnone, Option.bind_none, Option.bind_none]
  | some q =>
    have houtside := (outlet_of_moduleAt? hg' hq).not_inside
    rw [entryAt?_of_moduleAt? hq, hsteps.get?_of_not_inside hg houtside]
    rcases h.moduleAt?_cases hg' hq with hold | hnew
    · rw [entryAt?_of_moduleAt? hold]
    · have hnone : g.entryAt? global path ns name = none := by
        refine Option.eq_none_iff_forall_ne_some.mpr fun y hy => ?_
        obtain ⟨p, hp, -⟩ := exists_of_entryAt? hy
        have hlt := (outlet_of_moduleAt? hg.nested hp).lt_size
        rw [Option.some.inj ((h.moduleAt?_keeps hp).symm.trans hq)] at hlt
        exact Nat.not_le_of_lt hlt hnew
      rw [hnone, scope_of_size_le hnew]
      exact Table.get?_empty

end Sprouts

/-! ### Paths through the global tree -/

theorem descend_of_moduleAt? (skip : Option SymbolId) (h : g.moduleAt? root path = some q) :
    g.descend skip root (path ++ [name]) = .item q name := by
  induction path generalizing root with
  | nil =>
    cases h
    rfl
  | cons segment rest ih =>
    rw [moduleAt?_cons] at h
    obtain ⟨m, hm, hrest⟩ := Option.bind_eq_some_iff.mp h
    cases hsegments : rest ++ [name] with
    | nil => exact absurd hsegments (by simp)
    | cons next rest' =>
      rw [List.cons_append, hsegments, descend, hm, ← hsegments]
      · exact ih hrest
      · exact fun hnil => by cases hnil

/-- Modules come before imports, and entries of their own before everything else. -/
theorem resolveFrom_of_entryAt? (h : g.entryAt? root path ns name = some x) (fuel : Nat)
    (skip : Option SymbolId) :
    g.resolveFrom ns (fuel + 1) skip root (path ++ [name]) = .found x := by
  obtain ⟨q, hq, hx⟩ := exists_of_entryAt? h
  rw [resolveFrom, descend_of_moduleAt? skip hq]
  simp only [itemIn, hx, Lookup.orElse]

/-! ### A new unit -/

/-- Nothing has been declared in the scope, nor in its private partition. -/
structure Vacant (g : Graph) (q : ScopeId) : Prop where
  table : (g.scope q).table = {}
  modules : ∀ name, (g.scope q).modules.find? name = none
  member : (g.scope q).member = none
  inner : ∀ {inner}, (g.scope q).inner = some inner → (g.scope inner).table = {}

namespace Vacant

variable {q : ScopeId} (h : g.Vacant q)

include h

theorem get?_inner (ns : Namespace) (name : String) :
    ((g.scope q).inner.bind fun inner => (g.scope inner).table.get? ns name) = none := by
  refine Option.bind_eq_none_iff.mpr fun inner hinner => ?_
  rw [h.inner hinner, Table.get?_empty]

theorem visibleImport? (name : String) (skip : Option SymbolId) :
    g.visibleImport? q name skip = none := by
  have hinner : ((if (g.scope q).isActive then (g.scope q).inner else none).bind fun inner =>
      (g.scope inner).table.get? .imported name) = none := by
    split
    · exact h.get?_inner _ _
    · rfl
  simp only [Graph.visibleImport?, h.table, Table.get?_empty, hinner, Option.orElse_eq_orElse,
    Option.orElse_none, Option.filter_none]

theorem itemIn (name : String) (ns : Namespace) : g.itemIn q name ns = .notFound := by
  simp only [Graph.itemIn, h.table, Table.get?_empty, h.get?_inner, ite_self]

/-- No path leads from the scope to anything. -/
theorem resolveFrom (path : List String) (name : String) (ns : Namespace) (fuel : Nat)
    (skip : Option SymbolId) :
    g.resolveFrom ns (fuel + 1) skip q (path ++ [name]) = .notFound := by
  cases path with
  | nil =>
    rw [List.nil_append, Graph.resolveFrom, descend]
    simp only [h.itemIn, h.visibleImport?, Lookup.orElse]
  | cons segment rest =>
    have hlost : g.descend skip q (segment :: rest ++ [name]) = .lost := by
      rw [List.cons_append, descend]
      · rw [h.modules, h.visibleImport?]
      · exact fun hnil => by simp at hnil
    rw [Graph.resolveFrom, hlost]

theorem searchMember (name : String) (ns : Namespace) (fuel : Nat) (viaSuper : Bool) :
    g.searchMember name (some ns) (fuel + 1) q viaSuper = .notFound := by
  have hown : g.searchOwn q name (some ns) viaSuper = .notFound := by
    simp only [searchOwn, Table.find?, h.table, Table.get?_empty, h.get?_inner, h.member,
      Option.bind_none]
  have hsuper : g.superScope? q = none := by
    rw [superScope?, memberInfo?, h.member, Option.bind_none]
  rw [Graph.searchMember, hown, hsuper]
  rfl

end Vacant

/-- A unit that has been entered and in which nothing has been declared yet. -/
def openUnit (g : Graph) : ScopeId × Graph :=
  let (unit, g) := g.newScope .unit (some global)
  (unit, g.enter unit)

theorem openUnit_eq (g : Graph) : g.openUnit =
    (⟨g.scopes.size⟩, (g.newScope .unit (some global)).2.enter ⟨g.scopes.size⟩) := rfl

theorem scope_openUnit_of_ne (hq : q ≠ ⟨g.scopes.size⟩) :
    g.openUnit.2.scope q = (g.newScope .unit (some global)).2.scope q := by
  rw [openUnit_eq, enter, scope_modifyScope_of_ne hq]

theorem scope_openUnit_of_lt (hq : q.index < g.scopes.size) : g.openUnit.2.scope q = g.scope q := by
  rw [scope_openUnit_of_ne, scope_newScope_of_lt g _ _ hq]
  rintro rfl
  exact Nat.lt_irrefl _ hq

theorem scope_openUnit_self (g : Graph) : g.openUnit.2.scope g.openUnit.1 =
    { kind := .unit, parent := some global, inner := some ⟨g.scopes.size + 1⟩, active := 1 } := by
  have hlt : (⟨g.scopes.size⟩ : ScopeId).index <
      (g.newScope .unit (some global)).2.scopes.size := by
    rw [size_scopes_newScope]
    exact Nat.lt_add_of_pos_right (by decide)
  rw [openUnit_eq, enter]
  dsimp only
  rw [scope_modifyScope_self hlt, scope_newScope, if_pos rfl]
  rfl

/-- Opening a unit is what every analysis begins with. -/
theorem openUnit_steps (hg : g.Coherent) : Steps ∅ g g.openUnit.2 :=
  .tail (.single (Site.newUnit hg).1) (.amendScope (.marks _ _ _ _))

theorem vacant_openUnit (g : Graph) : g.openUnit.2.Vacant g.openUnit.1 := by
  refine ⟨?_, fun name => ?_, ?_, fun {inner} hinner => ?_⟩
  · rw [scope_openUnit_self]
  · rw [scope_openUnit_self]
    rfl
  · rw [scope_openUnit_self]
  · rw [scope_openUnit_self] at hinner
    cases hinner
    rw [scope_openUnit_of_ne fun heq => Nat.succ_ne_self _ (congrArg ScopeId.index heq)]
    rw [scope_newScope, if_neg (Nat.succ_ne_self _), if_pos ⟨rfl, rfl⟩]

theorem entryAt?_openUnit (hg : g.Nested) (path : List String) (ns : Namespace) (name : String) :
    g.openUnit.2.entryAt? global path ns name = g.entryAt? global path ns name := by
  have hsame : ∀ path q, g.moduleAt? global path = some q → g.openUnit.2.scope q = g.scope q :=
    fun _ _ hq => scope_openUnit_of_lt (outlet_of_moduleAt? hg hq).lt_size
  rw [entryAt?, moduleAt?_congr fun path q hq => by rw [hsame path q hq], entryAt?]
  exact Option.bind_congr fun q hq => by rw [hsame path q hq]

theorem PrivateTo.lt_size (h : g.PrivateTo x p) : p.index < g.scopes.size :=
  lt_size_of_kind fun hkind => by
    have hpartitioned := h.isPartitioned
    rw [hkind] at hpartitioned
    cases hpartitioned

/-- What was private stays so when a unit is opened. -/
theorem PrivateTo.openUnit (h : g.PrivateTo x p) : g.openUnit.2.PrivateTo x p := by
  obtain ⟨q, hscope, howner⟩ := h.owned
  have hq : q.index < g.scopes.size := by
    refine Nat.lt_of_not_le fun hle => ?_
    rw [owner_of_outer_eq_none (by rw [scope_of_size_le hle]; rfl)] at howner
    exact Nat.not_le_of_lt h.lt_size (howner ▸ hle)
  refine ⟨h.isPrivate, ⟨q, hscope, ?_⟩, ?_⟩
  · rw [owner, scope_openUnit_of_lt hq]
    exact howner
  · rw [scope_openUnit_of_lt h.lt_size]
    exact h.isPartitioned

/-- Outward from a new unit there is the global scope and nothing else. -/
theorem outward_openUnit (hg : g.openUnit.2.Nested) (h : g.openUnit.2.Outward g.openUnit.1 q) :
    q = g.openUnit.1 ∨ q = global := by
  have hglobal : g.openUnit.2.outward? g.openUnit.1 = some global := by
    rw [outward?, scope_openUnit_self, Option.map_some, owner_of_outer_eq_none hg.outer_global]
  rcases Relation.ReflTransGen.cases_head h with rfl | ⟨r, hr, hrest⟩
  · exact .inl rfl
  · rw [hglobal] at hr
    cases hr
    rcases Relation.ReflTransGen.cases_head hrest with rfl | ⟨r, hr, -⟩
    · exact .inr rfl
    · exact absurd (hg.outward?_lt hr) (Nat.not_lt_zero _)

/-- Of the roots at which a path may start, a new unit has nothing to offer. -/
theorem resolveFirst_openUnit (h : g.openUnit.2.entryAt? global path ns name = some x) :
    ∀ roots : List ScopeId, (∀ r ∈ roots, r = g.openUnit.1 ∨ r = global) → global ∈ roots →
      g.openUnit.2.resolveFirst ns (path ++ [name]) roots = .found x
  | [], _, hmem => absurd hmem List.not_mem_nil
  | root :: rest, hroots, hmem => by
    rw [resolveFirst]
    by_cases hroot : root = global
    · rw [hroot, resolveFrom_of_entryAt? h]
      rfl
    · rw [(hroots root List.mem_cons_self).resolve_right hroot, (vacant_openUnit g).resolveFrom]
      exact resolveFirst_openUnit h rest (fun r hr => hroots r (List.mem_cons_of_mem _ hr))
        ((List.mem_cons.mp hmem).resolve_left fun heq => hroot heq.symm)

/-- A search from a new unit goes on to the global scope. -/
theorem peek_openUnit (hg : g.openUnit.2.Nested)
    (h : (g.openUnit.2.scope global).table.get? ns name = some x) :
    g.openUnit.2.peek g.openUnit.1 name (some ns) = .found x := by
  have hrestricted : (g.openUnit.2.scope global).isRestricted = false := by
    rw [Scope.isRestricted, hg.member_of_isRoot (by rw [hg.kind_global]; rfl)]
    rfl
  have hglobal : g.openUnit.2.search name (some ns) maxDepth global = .found x := by
    simp only [maxDepth, search, searchMember, searchOwn, Table.find?, h, restrict, hrestricted,
      Lookup.orElse, Bool.false_eq_true, if_false]
  rw [peek, search, (vacant_openUnit g).searchMember, scope_openUnit_self]
  simp only [Lookup.orElse, Bool.false_eq_true, if_false, hglobal]

/-- A new unit finds every entry of the global tree by its path. -/
theorem lookupPath_openUnit (hg : g.Coherent) (h : g.entryAt? global path ns name = some x)
    (rooted : Bool) :
    (g.openUnit.2.lookupPath g.openUnit.1 ⟨path ++ [name], rooted⟩ ns).1 = .found x := by
  have hopened := (hg.steps (openUnit_steps hg)).nested
  rw [← entryAt?_openUnit hg.nested] at h
  rw [lookupPath, if_neg (by simp)]
  split
  next hsingle =>
    obtain ⟨-, rfl⟩ : rooted = false ∧ path = [] := by simpa [QualName.isSingle] using hsingle
    have hdirect := (lookup_fst _ _ _).trans (peek_openUnit hopened h)
    simp only [lookupSingle, QualName.last, List.nil_append, List.getLast?_singleton,
      Option.getD_some, hdirect]
  next =>
    refine resolveFirst_openUnit h _ (fun r hr => ?_) (mem_pathRoots_iff.mpr (.inr rfl))
    refine (outward_of_mem_pathRoots hr).elim (fun hout => outward_openUnit hopened ?_) .inr
    rwa [owner_of_outer_eq_none (by rw [scope_openUnit_self])] at hout

end Graph

end Scoping
