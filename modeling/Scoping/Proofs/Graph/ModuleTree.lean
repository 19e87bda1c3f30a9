import Mathlib.Data.List.Induction
import Mathlib.Data.List.Nodup
import Scoping.Proofs.Graph.Regular

/-!
# Trees of modules

From a root, which is no module itself, every path of names leads to at most one scope, and no two
paths lead to the same one (`Graph.moduleAt?_inj`). `Graph.modulePaths` lists the paths in the order
in which a unit is published, each of them once.
-/

namespace Scoping

namespace Graph

variable {g g' : Graph} {root q : ScopeId} {path path' : List String} {name : String}

/-- The scope that a path of modules leads to. -/
def moduleAt? (g : Graph) (root : ScopeId) (path : List String) : Option ScopeId :=
  path.foldlM (fun q name => (g.scope q).modules.find? name) root

/-- The entry of the table that a path of modules leads to. -/
def entryAt? (g : Graph) (root : ScopeId) (path : List String) (ns : Namespace) (name : String) :
    Option SymbolId :=
  (g.moduleAt? root path).bind fun q => (g.scope q).table.get? ns name

@[simp]
theorem moduleAt?_nil : g.moduleAt? root [] = some root := rfl

theorem moduleAt?_cons : g.moduleAt? root (name :: path) =
    ((g.scope root).modules.find? name).bind fun q => g.moduleAt? q path := rfl

theorem moduleAt?_concat : g.moduleAt? root (path ++ [name]) =
    (g.moduleAt? root path).bind fun q => (g.scope q).modules.find? name := by
  rw [moduleAt?, List.foldlM_append]
  exact Option.bind_congr fun q _ => by rw [List.foldlM_cons, Option.bind_eq_bind]; simp

theorem moduleAt?_concat_eq_some {m : ScopeId} (h : g.moduleAt? root (path ++ [name]) = some m) :
    ∃ q, g.moduleAt? root path = some q ∧ (g.scope q).modules.find? name = some m := by
  rw [moduleAt?_concat] at h
  exact Option.bind_eq_some_iff.mp h

theorem entryAt?_of_moduleAt? (h : g.moduleAt? root path = some q) (ns : Namespace)
    (name : String) : g.entryAt? root path ns name = (g.scope q).table.get? ns name := by
  rw [entryAt?, h, Option.bind_some]

theorem exists_of_entryAt? {ns : Namespace} {x : SymbolId}
    (h : g.entryAt? root path ns name = some x) :
    ∃ q, g.moduleAt? root path = some q ∧ (g.scope q).table.get? ns name = some x :=
  Option.bind_eq_some_iff.mp h

/-! ### Paths and scopes -/

/-- All modules of a tree are in the same unit, or outside all units, as its root is. -/
theorem inside_moduleAt?_iff (hg : g.Nested) (h : g.moduleAt? root path = some q) :
    g.Inside q ↔ g.Inside root := by
  induction path using List.reverseRec generalizing q with
  | nil =>
    cases h
    exact Iff.rfl
  | append_singleton path name ih =>
    obtain ⟨p, hp, hq⟩ := moduleAt?_concat_eq_some h
    obtain ⟨hparent, hkind⟩ := hg.module (NameMap.mem_entries_of_find? hq)
    exact (hg.inside_module_iff hparent hkind).trans (ih hp)

/-- All scopes of a tree but its root are modules. -/
theorem kind_moduleAt? (hg : g.Nested) (h : g.moduleAt? root path = some q) :
    q = root ∨ (g.scope q).kind = .module := by
  induction path using List.reverseRec with
  | nil =>
    cases h
    exact .inl rfl
  | append_singleton path name =>
    obtain ⟨p, -, hq⟩ := moduleAt?_concat_eq_some h
    exact .inr (hg.module (NameMap.mem_entries_of_find? hq)).2

/-- Different paths lead to different scopes. -/
theorem moduleAt?_inj (hg : g.Nested) (hbranch : g.Branching)
    (hroot : (g.scope root).kind ≠ .module) (h : g.moduleAt? root path = some q)
    (h' : g.moduleAt? root path' = some q) : path = path' := by
  -- along a path, the parents lead back to the root
  induction path using List.reverseRec generalizing q path' with
  | nil =>
    cases h
    induction path' using List.reverseRec with
    | nil => rfl
    | append_singleton path' name' =>
      obtain ⟨p, -, hq⟩ := moduleAt?_concat_eq_some h'
      exact absurd (hg.module (NameMap.mem_entries_of_find? hq)).2 hroot
  | append_singleton path name ih =>
    obtain ⟨p, hp, hq⟩ := moduleAt?_concat_eq_some h
    obtain ⟨hparent, hkind⟩ := hg.module (NameMap.mem_entries_of_find? hq)
    induction path' using List.reverseRec with
    | nil =>
      cases h'
      exact absurd hkind hroot
    | append_singleton path' name' =>
      obtain ⟨p', hp', hq'⟩ := moduleAt?_concat_eq_some h'
      have hsame : p = p' := by
        have hparent' := (hg.module (NameMap.mem_entries_of_find? hq')).1
        rw [hparent] at hparent'
        exact Option.some.inj hparent'
      subst hsame
      rw [ih hp hp', hbranch.inj hq hq']

/-- A change that spares the modules of the scopes of a tree spares the tree. -/
theorem moduleAt?_congr (h : ∀ path q, g.moduleAt? root path = some q →
    (g'.scope q).modules = (g.scope q).modules) (path : List String) :
    g'.moduleAt? root path = g.moduleAt? root path := by
  induction path using List.reverseRec with
  | nil => rfl
  | append_singleton path name ih =>
    rw [moduleAt?_concat, moduleAt?_concat, ih]
    exact Option.bind_congr fun q hq => by rw [h path q hq]

/-! ### All paths -/

/-- The paths below a scope, as far as the fuel reaches: those of its own modules first, and then
those below them, below the last module first. -/
def modulePaths (g : Graph) : Nat → ScopeId → List (List String)
  | 0, _ => []
  | fuel + 1, q =>
    (g.scope q).modules.entries.map (fun entry => [entry.1]) ++
      (g.scope q).modules.entries.reverse.flatMap fun entry =>
        (g.modulePaths fuel entry.2).map (entry.1 :: ·)

/-- A module was opened after the scope that it is in. -/
theorem index_lt_of_mem_modules (hg : g.Nested) {m : ScopeId}
    (h : (name, m) ∈ (g.scope q).modules.entries) : q.index < m.index :=
  hg.parent_lt (hg.module h).1

theorem modules_entries_of_size_le (h : g.scopes.size ≤ q.index) :
    (g.scope q).modules.entries = [] := by
  rw [scope_of_size_le h]
  rfl

/-- Fuel for all scopes that were opened later reaches everything. -/
theorem modulePaths_succ (hg : g.Nested) : ∀ (fuel : Nat) (q : ScopeId),
    g.scopes.size ≤ q.index + fuel → g.modulePaths (fuel + 1) q = g.modulePaths fuel q
  | 0, q, h => by
    have hnone : (g.scope q).modules.entries = [] := modules_entries_of_size_le h
    simp [modulePaths, hnone]
  | fuel + 1, q, h => by
    rw [modulePaths, modulePaths]
    congr 1
    refine List.flatMap_congr fun entry hentry => ?_
    have hlt := index_lt_of_mem_modules hg (List.mem_reverse.mp hentry)
    rw [modulePaths_succ hg fuel entry.2 (by omega)]

theorem modulePaths_of_le (hg : g.Nested) {fuel fuel' : Nat} (hle : fuel ≤ fuel')
    (h : g.scopes.size ≤ q.index + fuel) : g.modulePaths fuel' q = g.modulePaths fuel q := by
  induction hle with
  | refl => rfl
  | @step fuel' hle ih =>
    rw [modulePaths_succ hg fuel' q (Nat.le_trans h (Nat.add_le_add_left hle _)), ih]

/-- A change that spares the modules of the scopes of a tree spares its paths. -/
theorem modulePaths_congr (hbranch : g.Branching) {fuel : Nat} (h : ∀ path q,
    g.moduleAt? root path = some q → (g'.scope q).modules = (g.scope q).modules) :
    g'.modulePaths fuel root = g.modulePaths fuel root := by
  induction fuel generalizing root with
  | zero => rfl
  | succ fuel ih =>
    rw [modulePaths, modulePaths, h [] root rfl]
    congr 1
    refine List.flatMap_congr fun entry hentry => ?_
    have hfind := NameMap.find?_of_mem_entries (hbranch.nodup root) (List.mem_reverse.mp hentry)
    rw [ih fun path q hq => h (entry.1 :: path) q ?_]
    rw [moduleAt?_cons, hfind, Option.bind_some, hq]

/-- The paths are those that lead somewhere. -/
theorem mem_modulePaths_iff (hg : g.Nested) (hbranch : g.Branching) : ∀ (fuel : Nat)
    (q : ScopeId) (path : List String), g.scopes.size ≤ q.index + fuel →
    (path ∈ g.modulePaths fuel q ↔ path ≠ [] ∧ g.moduleAt? q path ≠ none)
  | 0, q, path, h => by
    have hempty : (g.scope q).modules.entries = [] := modules_entries_of_size_le h
    have hnone : ∀ name, (g.scope q).modules.find? name = none := by
      intro name
      rw [NameMap.find?, hempty]
      rfl
    cases path with
    | nil => simp [modulePaths]
    | cons name path => simp [modulePaths, moduleAt?_cons, hnone]
  | fuel + 1, q, path, h => by
    have hbelow : ∀ entry ∈ (g.scope q).modules.entries, ∀ path,
        path ∈ g.modulePaths fuel entry.2 ↔ path ≠ [] ∧ g.moduleAt? entry.2 path ≠ none := by
      intro entry hentry path
      have hlt := index_lt_of_mem_modules hg hentry
      exact mem_modulePaths_iff hg hbranch fuel entry.2 path (by omega)
    rw [modulePaths, List.mem_append, List.mem_map, List.mem_flatMap]
    simp only [List.mem_reverse, List.mem_map]
    constructor
    · rintro (⟨⟨name, m⟩, hentry, rfl⟩ | ⟨⟨name, m⟩, hentry, rest, hrest, rfl⟩)
      · have hfind := NameMap.find?_of_mem_entries (hbranch.nodup q) hentry
        simp [moduleAt?_cons, hfind]
      · have hfind := NameMap.find?_of_mem_entries (hbranch.nodup q) hentry
        simpa [moduleAt?_cons, hfind] using ((hbelow _ hentry rest).mp hrest).2
    · rintro ⟨hne, hsome⟩
      obtain _ | ⟨name, rest⟩ := path
      · exact absurd rfl hne
      · rw [moduleAt?_cons] at hsome
        cases hfind : (g.scope q).modules.find? name with
        | none =>
          rw [hfind] at hsome
          exact absurd rfl hsome
        | some m =>
          have hentry := NameMap.mem_entries_of_find? hfind
          rw [hfind] at hsome
          by_cases hrest : rest = []
          · subst hrest
            exact .inl ⟨(name, m), hentry, rfl⟩
          · exact .inr ⟨(name, m), hentry, rest, (hbelow _ hentry rest).mpr ⟨hrest, hsome⟩, rfl⟩

theorem ne_nil_of_mem_modulePaths {fuel : Nat} (h : path ∈ g.modulePaths fuel q) :
    path ≠ [] := by
  cases fuel with
  | zero => cases h
  | succ fuel =>
    rw [modulePaths, List.mem_append, List.mem_flatMap] at h
    rcases h with h | ⟨entry, -, h⟩
    · obtain ⟨entry, -, rfl⟩ := List.mem_map.mp h
      exact List.cons_ne_nil _ _
    · obtain ⟨rest, -, rfl⟩ := List.mem_map.mp h
      exact List.cons_ne_nil _ _

/-- Every path is listed once. -/
theorem nodup_modulePaths (hbranch : g.Branching) : ∀ (fuel : Nat) (q : ScopeId),
    (g.modulePaths fuel q).Nodup
  | 0, _ => List.nodup_nil
  | fuel + 1, q => by
    have hkeys : ((g.scope q).modules.entries.map Prod.fst).Nodup := hbranch.nodup q
    rw [modulePaths, List.nodup_append]
    refine ⟨?_, ?_, ?_⟩
    · have hnodup := hkeys.map (f := fun name => [name]) fun _ _ h => List.singleton_inj.mp h
      rwa [List.map_map] at hnodup
    · rw [List.nodup_flatMap]
      refine ⟨fun entry _ => (nodup_modulePaths hbranch fuel entry.2).map
        fun _ _ h => (List.cons.inj h).2, ?_⟩
      rw [List.pairwise_reverse]
      refine (List.pairwise_map.mp hkeys).imp fun {a b} hne => ?_
      rintro path hpath hpath'
      obtain ⟨rest, -, rfl⟩ := List.mem_map.mp hpath
      obtain ⟨rest', -, heq⟩ := List.mem_map.mp hpath'
      exact hne (List.cons.inj heq).1
    · -- the paths below a module are longer than its own
      rintro path hpath _ hpath' rfl
      obtain ⟨entry, -, rfl⟩ := List.mem_map.mp hpath
      obtain ⟨entry', -, hbelow⟩ := List.mem_flatMap.mp hpath'
      obtain ⟨rest, hrest, heq⟩ := List.mem_map.mp hbelow
      exact ne_nil_of_mem_modulePaths hrest (List.cons.inj heq).2

end Graph

end Scoping
