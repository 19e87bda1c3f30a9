import Scoping.Proofs.Graph.ModuleTree

/-!
# Publishing as a merge

Publishing a unit merges its tree of modules into the tree of the global scope, table by table, and
an earlier entry wins (`Graph.exportUnit_merge`). A second publication of the same unit changes
nothing and finds the same conflicts (`Graph.exportUnit_exportUnit`).
-/

namespace Scoping

namespace Graph

variable {g g' : Graph} {unit src dst : ScopeId} {c : ExportConflict}
  {acc : List ExportConflict × Graph} {path : List String} {earlier : Option SymbolId}
  {name : String} {x : SymbolId}

/-! ### One table -/

theorem mem_publicEntries_iff (h : (g.scope src).table.Functional) {ns : Namespace} :
    (ns, name, x) ∈ g.publicEntries src ↔
      ns ≠ .internal ∧ (g.scope src).table.get? ns name = some x := by
  have hentry : (name, x) ∈ ((g.scope src).table.space ns).entries ↔
      (g.scope src).table.get? ns name = some x :=
    ⟨NameMap.find?_of_mem_entries (h ns), NameMap.mem_entries_of_find?⟩
  rw [← hentry]
  cases ns <;> simp [publicEntries]

/-- The conflict of a symbol with an earlier entry, if there is one. -/
def clash? (g : Graph) (earlier : Option SymbolId) (x : SymbolId) : Option ExportConflict :=
  earlier.bind fun old => if old = x then none else some ⟨x, old, exportReason (g.symbol old)⟩

@[simp]
theorem clash?_none (x : SymbolId) : g.clash? none x = none := rfl

@[simp]
theorem clash?_self (x : SymbolId) : g.clash? (some x) x = none := if_pos rfl

theorem clash?_congr (h : g'.symbols = g.symbols) (earlier : Option SymbolId) (x : SymbolId) :
    g'.clash? earlier x = g.clash? earlier x := by
  simp only [clash?, symbol, h]

/-- A key that was free and has got the symbol itself makes no conflict. -/
theorem clash?_or_ite {p : Prop} [Decidable p] :
    g.clash? (earlier.or (if p then some x else none)) x = g.clash? earlier x := by
  cases earlier with
  | some y => rfl
  | none => split <;> simp

/-- Nothing but the table of `dst` differs. -/
structure Refills (dst : ScopeId) (g g' : Graph) : Prop where
  symbols : g'.symbols = g.symbols
  size : g'.scopes.size = g.scopes.size
  off : ∀ q, q ≠ dst → g'.scope q = g.scope q
  rest : { g'.scope dst with table := (g.scope dst).table } = g.scope dst

namespace Refills

theorem refl (g : Graph) : Refills dst g g := ⟨rfl, rfl, fun _ _ => rfl, rfl⟩

theorem trans {g'' : Graph} (h : Refills dst g g') (h' : Refills dst g' g'') :
    Refills dst g g'' where
  symbols := h'.symbols.trans h.symbols
  size := h'.size.trans h.size
  off q hq := (h'.off q hq).trans (h.off q hq)
  rest := by rw [← h.rest, ← h'.rest]

theorem modules (h : Refills dst g g') (q : ScopeId) :
    (g'.scope q).modules = (g.scope q).modules := by
  by_cases hq : q = dst
  · subst hq
    have hrest := congrArg Scope.modules h.rest
    exact hrest
  · rw [h.off q hq]

theorem moduleAt?_eq (h : Refills dst g g') (root : ScopeId) (path : List String) :
    g'.moduleAt? root path = g.moduleAt? root path :=
  moduleAt?_congr (fun _ q _ => h.modules q) path

theorem branching (h : Refills dst g g') (hg : g.Branching) : g'.Branching :=
  hg.congr h.size.ge h.modules

end Refills

/-- The place of an entry in a table. -/
def key (entry : Namespace × String × SymbolId) : Namespace × String := (entry.1, entry.2.1)

/-- What publishing some entries of the table `t` in a scope does: free keys are filled, and the
others keep their entries and are reported. -/
structure Fills (dst : ScopeId) (t : Table) (entries : List (Namespace × String × SymbolId))
    (acc acc' : List ExportConflict × Graph) : Prop extends Refills dst acc.2 acc'.2 where
  get?_eq : ∀ ns name, (acc'.2.scope dst).table.get? ns name =
    ((acc.2.scope dst).table.get? ns name).or
      (if (ns, name) ∈ entries.map key then t.get? ns name else none)
  conflicts : acc'.1 = acc.1 ++ entries.filterMap fun entry =>
    acc.2.clash? ((acc.2.scope dst).table.get? entry.1 entry.2.1) entry.2.2
  still : (∀ entry ∈ entries, (acc.2.scope dst).table.get? entry.1 entry.2.1 ≠ none) →
    acc'.2 = acc.2

variable {t : Table}

theorem or_ite_none {p q : Prop} [Decidable p] [Decidable q] (o : Option SymbolId) :
    (if p then o else none).or (if q then o else none) = if p ∨ q then o else none := by
  by_cases hp : p <;> by_cases hq : q <;> simp [hp, hq]

theorem fills_nil (acc : List ExportConflict × Graph) : Fills dst t [] acc acc where
  toRefills := .refl _
  get?_eq := by simp
  conflicts := by simp
  still _ := rfl

/-- One entry fills its key where this is free, and else is reported unless it is there already. -/
theorem exportEntry_fills (hdst : dst.index < acc.2.scopes.size)
    {entry : Namespace × String × SymbolId} (ht : t.get? entry.1 entry.2.1 = some entry.2.2) :
    Fills dst t [entry] acc (exportEntry dst acc entry) := by
  obtain ⟨ns, name, x⟩ := entry
  obtain ⟨conflicts, g⟩ := acc
  cases hold : (g.scope dst).table.get? ns name with
  | none =>
    have heq : exportEntry dst (conflicts, g) (ns, name, x) = (conflicts,
        g.modifyScope dst fun s => { s with table := s.table.insert ns name x }) := by
      simp only [exportEntry, hold]
    rw [heq]
    refine ⟨⟨rfl, size_scopes_modifyScope _ _ _, fun q hq => scope_modifyScope_of_ne hq _, ?_⟩,
      fun ns' name' => ?_, by simp [hold], fun htaken => ?_⟩
    · rw [scope_modifyScope_self hdst]
    · rw [scope_modifyScope_self hdst, Table.get?_insert hold]
      by_cases hkey : ns' = ns ∧ name' = name
      · obtain ⟨rfl, rfl⟩ := hkey
        simp [hold, key, show t.get? ns' name' = some x from ht]
      · simp [hkey, key]
    · exact absurd hold (htaken _ (List.mem_singleton_self _))
  | some old =>
    have heq : exportEntry dst (conflicts, g) (ns, name, x) =
        (conflicts ++ (g.clash? (some old) x).toList, g) := by
      simp only [exportEntry, hold, clash?, Option.bind_some]
      split <;> simp
    rw [heq]
    refine ⟨.refl g, fun ns' name' => ?_, ?_, fun _ => rfl⟩
    · by_cases hkey : ns' = ns ∧ name' = name
      · obtain ⟨rfl, rfl⟩ := hkey
        simp [hold]
      · simp [hkey, key]
    · simp only [List.filterMap_cons, List.filterMap_nil, hold]
      cases g.clash? (some old) x <;> rfl

/-- One entry more, from the same table as the others. -/
theorem Fills.cons {acc acc₁ acc₂ : List ExportConflict × Graph}
    {entry : Namespace × String × SymbolId} {entries : List (Namespace × String × SymbolId)}
    (ht : ∀ e ∈ entries, t.get? e.1 e.2.1 = some e.2.2) (h : Fills dst t [entry] acc acc₁)
    (h' : Fills dst t entries acc₁ acc₂) : Fills dst t (entry :: entries) acc acc₂ := by
  refine ⟨h.toRefills.trans h'.toRefills, fun ns name => ?_, ?_, fun htaken => ?_⟩
  · simp only [h'.get?_eq, h.get?_eq, Option.or_assoc, or_ite_none, List.map_cons, List.map_nil,
      List.mem_cons, List.not_mem_nil, or_false]
  · have hrest : ∀ e ∈ entries, acc₁.2.clash? ((acc₁.2.scope dst).table.get? e.1 e.2.1) e.2.2 =
        acc.2.clash? ((acc.2.scope dst).table.get? e.1 e.2.1) e.2.2 := by
      intro e he
      rw [clash?_congr h.symbols, h.get?_eq, ht e he, clash?_or_ite]
    rw [h'.conflicts, h.conflicts, List.filterMap_congr hrest, List.append_assoc,
      ← List.filterMap_append]
    rfl
  · have hfirst := h.still fun e he => htaken e (by rw [List.mem_singleton.mp he]; simp)
    rw [h'.still fun e he => ?_, hfirst]
    rw [hfirst]
    exact htaken e (List.mem_cons_of_mem _ he)

theorem foldl_exportEntry_fills : ∀ (entries : List (Namespace × String × SymbolId))
    (acc : List ExportConflict × Graph), dst.index < acc.2.scopes.size →
    (∀ e ∈ entries, t.get? e.1 e.2.1 = some e.2.2) →
    Fills dst t entries acc (entries.foldl (exportEntry dst) acc)
  | [], acc, _, _ => fills_nil acc
  | entry :: entries, acc, hdst, ht => by
    obtain ⟨hentry, hrest⟩ := List.forall_mem_cons.mp ht
    have hfirst := exportEntry_fills hdst hentry
    exact .cons hrest hfirst (foldl_exportEntry_fills entries _ (by rwa [hfirst.size]) hrest)

/-- A whole table is published in `dst`. -/
theorem exportTable_fills (hdst : dst.index < acc.2.scopes.size)
    (hsrc : (acc.2.scope src).table.Functional) :
    Fills dst (acc.2.scope src).table (acc.2.publicEntries src) acc (exportTable acc src dst) := by
  refine foldl_exportEntry_fills _ acc hdst ?_
  rintro ⟨ns, name, x⟩ he
  exact ((mem_publicEntries_iff hsrc).mp he).2

theorem get?_exportTable (hdst : dst.index < acc.2.scopes.size)
    (hsrc : (acc.2.scope src).table.Functional) (ns : Namespace) (name : String) :
    ((exportTable acc src dst).2.scope dst).table.get? ns name =
      ((acc.2.scope dst).table.get? ns name).or
        (if ns ≠ .internal then (acc.2.scope src).table.get? ns name else none) := by
  have hkey : (ns, name) ∈ (acc.2.publicEntries src).map key ↔
      ns ≠ .internal ∧ ((acc.2.scope src).table.get? ns name).isSome := by
    simp [key, mem_publicEntries_iff hsrc, Option.isSome_iff_exists]
  rw [(exportTable_fills hdst hsrc).get?_eq]
  simp only [hkey]
  cases (acc.2.scope src).table.get? ns name <;> simp

/-! ### Opening modules -/

theorem outlet_of_moduleAt? (hg : g.Nested) (h : g.moduleAt? global path = some dst) :
    g.Outlet dst := by
  refine ⟨fun hin => hg.not_inside_global ((inside_moduleAt?_iff hg h).mp hin), ?_⟩
  rcases kind_moduleAt? hg h with rfl | hkind
  · rw [hg.kind_global]
    rfl
  · rw [hkind]
    rfl

/-- Opening a module adds one path to the global tree, unless it was there. -/
theorem moduleAt?_subModule (hg : g.Nested) (hbranch : g.Branching)
    (hdst : g.moduleAt? global path = some dst) (name : String) (path' : List String) :
    (g.subModule dst name).2.moduleAt? global path' =
      if path' = path ++ [name] then some (g.subModule dst name).1
      else g.moduleAt? global path' := by
  cases hfind : (g.scope dst).modules.find? name with
  | some m =>
    rw [subModule_of_find? hfind]
    split
    next heq => rw [heq, moduleAt?_concat, hdst, Option.bind_some, hfind]
    next => rfl
  | none =>
    have hnew : (g.subModule dst name).1 = ⟨g.scopes.size⟩ := by
      simp only [subModule, hfind, newScope_fst]
    have hglobal : (g.scope global).kind ≠ .module := by
      rw [hg.kind_global]
      decide
    have hlt := (outlet_of_moduleAt? hg hdst).lt_size
    have hmodules : ∀ q n, ((g.subModule dst name).2.scope q).modules.find? n =
        if q = dst ∧ n = name then some ⟨g.scopes.size⟩ else (g.scope q).modules.find? n := by
      intro q n
      by_cases hq : q = dst
      · subst hq
        rw [scope_subModule hfind hlt, if_pos rfl, NameMap.find?_set]
        simp only [true_and]
      · rw [(modules_subModule hfind q).resolve_right fun h => hq h.1, if_neg fun h => hq h.1]
    rw [hnew]
    induction path' using List.reverseRec with
    | nil => simp
    | append_singleton path' n ih =>
      rw [moduleAt?_concat, ih, moduleAt?_concat]
      by_cases hpath : path' = path ++ [name]
      · -- the new module has no modules
        have hnone : g.moduleAt? global (path ++ [name]) = none := by
          rw [moduleAt?_concat, hdst, Option.bind_some, hfind]
        have hblank : g.scope ⟨g.scopes.size⟩ = .blank :=
          scope_of_size_le (Nat.le_refl g.scopes.size)
        have hempty : (g.scope ⟨g.scopes.size⟩).modules.find? n = none := by
          rw [hblank]
          rfl
        have hne : (⟨g.scopes.size⟩ : ScopeId) ≠ dst := by
          rintro rfl
          exact Nat.lt_irrefl _ hlt
        have hlonger : path' ++ [n] ≠ path ++ [name] := by
          intro heq
          have hlength := congrArg List.length heq
          rw [hpath] at hlength
          simp at hlength
        rw [if_pos hpath, if_neg hlonger, Option.bind_some, hmodules, if_neg fun h => hne h.1,
          hempty, hpath, hnone, Option.bind_none]
      · rw [if_neg hpath]
        cases hq : g.moduleAt? global path' with
        | none =>
          have hne : path' ++ [n] ≠ path ++ [name] := by
            intro heq
            rw [List.append_inj_left' heq rfl, hdst] at hq
            cases hq
          rw [if_neg hne]
          rfl
        | some q =>
          -- only one path leads to `dst`
          have hiff : q = dst ∧ n = name ↔ path' ++ [n] = path ++ [name] := by
            constructor
            · rintro ⟨rfl, rfl⟩
              rw [moduleAt?_inj hg hbranch hglobal hq hdst]
            · intro heq
              obtain ⟨rfl, hn⟩ := List.append_inj' heq rfl
              exact ⟨Option.some.inj (hq.symm.trans hdst), List.singleton_inj.mp hn⟩
          rw [Option.bind_some, hmodules]
          exact if_congr hiff rfl rfl

/-- No path of the global tree is lost. -/
def Deepens (g g' : Graph) : Prop :=
  ∀ path q, g.moduleAt? global path = some q → g'.moduleAt? global path = some q

theorem deepens_subModule (hg : g.Nested) (hbranch : g.Branching)
    (hdst : g.moduleAt? global path = some dst) (name : String) :
    g.Deepens (g.subModule dst name).2 := by
  intro path' q hq
  rw [moduleAt?_subModule hg hbranch hdst]
  split
  next heq =>
    rw [heq, moduleAt?_concat, hdst, Option.bind_some] at hq
    simp only [subModule, hq]
  next => exact hq

theorem deepens_exportTable (hg : acc.2.Coherent) (hdst : acc.2.moduleAt? global path = some dst)
    (src : ScopeId) : acc.2.Deepens (exportTable acc src dst).2 := by
  intro path' q hq
  have houtlet := outlet_of_moduleAt? hg.nested hdst
  rw [(exportTable_fills houtlet.lt_size (hg.functional src)).moduleAt?_eq, hq]

/-! ### Trees while they are merged -/

/-- What a unit has for the global tree at a path, all but the entries for internal use, and the
conflicts that arise. -/
def clashesAt (g : Graph) (unit : ScopeId) (path : List String) : List ExportConflict :=
  ((g.moduleAt? unit path).elim [] g.publicEntries).filterMap fun entry =>
    g.clash? (g.entryAt? global path entry.1 entry.2.1) entry.2.2

/-- Nothing of a unit is missing in the global tree. -/
def Present (g : Graph) (unit : ScopeId) : Prop :=
  ∀ path src, g.moduleAt? unit path = some src → g.moduleAt? global path ≠ none ∧
    ∀ ns name x, ns ≠ .internal → (g.scope src).table.get? ns name = some x →
      g.entryAt? global path ns name ≠ none

/-- The paths in `paths` have been merged into the global tree of `g`, other paths of the unit may
have been opened, and nothing else has happened. -/
structure Merged (g : Graph) (unit : ScopeId) (paths : List (List String))
    (acc : List ExportConflict × Graph) : Prop where
  publishes : Publishes g acc.2
  branching : acc.2.Branching
  symbols : acc.2.symbols = g.symbols
  size_le : g.scopes.size ≤ acc.2.scopes.size
  rest : ∀ q, q.index < g.scopes.size →
    { acc.2.scope q with table := (g.scope q).table, modules := (g.scope q).modules } = g.scope q
  off : ∀ q, q.index < g.scopes.size → (∀ path, g.moduleAt? global path ≠ some q) →
    acc.2.scope q = g.scope q
  blank : ∀ q, g.scopes.size ≤ q.index → (∀ path, acc.2.moduleAt? global path ≠ some q) →
    (acc.2.scope q).table = {}
  keeps : ∀ path q, g.moduleAt? global path = some q → acc.2.moduleAt? global path = some q
  older : ∀ path q, acc.2.moduleAt? global path = some q → q.index < g.scopes.size →
    g.moduleAt? global path = some q
  opened : ∀ path, acc.2.moduleAt? global path ≠ none →
    g.moduleAt? global path ≠ none ∨ g.moduleAt? unit path ≠ none
  reached : ∀ path ∈ paths, acc.2.moduleAt? global path ≠ none
  entry : ∀ path ns name, acc.2.entryAt? global path ns name =
    (g.entryAt? global path ns name).or
      (if ns ≠ .internal ∧ path ∈ paths then g.entryAt? unit path ns name else none)
  conflicts : acc.1 = paths.flatMap (g.clashesAt unit)
  still : g.Present unit → acc.2 = g

/-- Before anything is merged. -/
theorem merged_nil (hbranch : g.Branching) : Merged g unit [] ([], g) where
  publishes := .refl
  branching := hbranch
  symbols := rfl
  size_le := Nat.le_refl _
  rest _ _ := rfl
  off _ _ _ := rfl
  blank q hq _ := by
    rw [scope_of_size_le hq]
    rfl
  keeps _ _ h := h
  older _ _ h _ := h
  opened _ h := .inl h
  reached _ h := absurd h List.not_mem_nil
  entry path ns name := by simp
  conflicts := rfl
  still _ := rfl

/-- The scopes that are published are units and their modules. -/
theorem inside_of_moduleAt?_unit (hg : g.Nested) (hunit : (g.scope unit).kind = .unit)
    (h : g.moduleAt? unit path = some src) :
    g.Inside src ∧ ((g.scope src).kind = .unit ∨ (g.scope src).kind = .module) := by
  have houter : (g.scope unit).outer = none :=
    hg.outer_of_kind fun hkind => by rw [hunit] at hkind; cases hkind
  have hinside : g.Inside unit := ⟨unit, by rw [owner_of_outer_eq_none houter]; exact .refl, hunit⟩
  refine ⟨(inside_moduleAt?_iff hg h).mpr hinside, ?_⟩
  exact (kind_moduleAt? hg h).imp_left fun heq : src = unit => heq ▸ hunit

namespace Merged

variable {paths : List (List String)} {path : List String} {acc : List ExportConflict × Graph}

section

variable (hg : g.Coherent) (h : Merged g unit paths acc)

include hg h

theorem coherent : acc.2.Coherent := (h.publishes.spec hg).1

/-- The scopes of the unit are as they were. -/
theorem scope_unit (hunit : (g.scope unit).kind = .unit)
    (hsrc : g.moduleAt? unit path = some src) : acc.2.scope src = g.scope src := by
  have hinside := (inside_of_moduleAt?_unit hg.nested hunit hsrc).1
  refine h.off src hinside.lt_size fun path' hpath' => ?_
  exact (outlet_of_moduleAt? hg.nested hpath').not_inside hinside

/-- A module of the unit is opened in the global tree. -/
theorem openModule (name : String) (hdst : acc.2.moduleAt? global path = some dst)
    (hsub : g.moduleAt? unit (path ++ [name]) ≠ none) :
    Merged g unit paths (acc.1, (acc.2.subModule dst name).2) := by
  cases hfind : (acc.2.scope dst).modules.find? name with
  | some m => rwa [subModule_of_find? hfind]
  | none =>
    have hg' := (h.coherent hg).nested
    have hmodule := moduleAt?_subModule hg' h.branching hdst name
    have hnew : (acc.2.subModule dst name).1 = ⟨acc.2.scopes.size⟩ := by
      simp only [subModule, hfind, newScope_fst]
    have htable : ∀ q, ((acc.2.subModule dst name).2.scope q).table = (acc.2.scope q).table :=
      scope_subModule_congr Scope.table (fun _ _ _ _ _ => rfl) (fun _ _ _ => rfl) dst name
    have hnone : acc.2.moduleAt? global (path ++ [name]) = none := by
      rw [moduleAt?_concat, hdst, Option.bind_some, hfind]
    have hkeeps := deepens_subModule hg' h.branching hdst name
    have hentry : ∀ path' ns n, (acc.2.subModule dst name).2.entryAt? global path' ns n =
        acc.2.entryAt? global path' ns n := by
      intro path' ns n
      rw [entryAt?, entryAt?, hmodule]
      split
      next heq =>
        have hblank : acc.2.scope ⟨acc.2.scopes.size⟩ = .blank :=
          scope_of_size_le (Nat.le_refl acc.2.scopes.size)
        rw [heq, hnone, hnew, Option.bind_some, htable, hblank]
        cases ns <;> rfl
      next => exact Option.bind_congr fun q _ => by rw [htable]
    have hscope : ∀ q, q.index < g.scopes.size → (acc.2.subModule dst name).2.scope q =
        if q = dst then
          { acc.2.scope q with
            modules := (acc.2.scope q).modules.set name ⟨acc.2.scopes.size⟩ }
        else acc.2.scope q := fun q hq => scope_subModule hfind (Nat.lt_of_lt_of_le hq h.size_le)
    refine ⟨h.publishes.tail (.openModule name (outlet_of_moduleAt? hg' hdst)),
      h.branching.subModule dst name, ?_, ?_, fun q hq => ?_, fun q hq hoff => ?_,
      fun q hq hoff => ?_, fun path' q hq => hkeeps path' q (h.keeps path' q hq),
      fun path' q hq hlt => ?_, fun path' hpath' => ?_, fun path' hpath' => ?_,
      fun path' ns n => ?_, h.conflicts, fun hpub => ?_⟩
    · rw [← h.symbols]
      simp only [subModule, hfind]
      rfl
    · refine Nat.le_trans h.size_le ?_
      simp only [subModule, hfind, size_scopes_modifyScope, size_scopes_newScope]
      omega
    · have hrest := h.rest q hq
      rw [hscope q hq]
      split
      · exact hrest
      · exact hrest
    · rw [hscope q hq, if_neg, h.off q hq hoff]
      rintro rfl
      exact hoff path (h.older path q hdst hq)
    · rw [htable]
      exact h.blank q hq fun path' hpath' => hoff path' (hkeeps path' q hpath')
    · rw [hmodule] at hq
      split at hq
      · rw [hnew] at hq
        cases hq
        exact absurd hlt (Nat.not_lt_of_le h.size_le)
      · exact h.older path' q hq hlt
    · rw [hmodule] at hpath'
      split at hpath'
      next heq =>
        rw [heq]
        exact .inr hsub
      next => exact h.opened path' hpath'
    · obtain ⟨q, hq⟩ := Option.ne_none_iff_exists'.mp (h.reached path' hpath')
      rw [hkeeps path' q hq]
      exact Option.some_ne_none q
    · rw [hentry]
      exact h.entry path' ns n
    · obtain ⟨src, hsrc⟩ := Option.ne_none_iff_exists'.mp hsub
      have hthere := (hpub _ _ hsrc).1
      rw [← h.still hpub, hnone] at hthere
      exact absurd rfl hthere

/-- The new path is there afterwards. -/
theorem moduleAt?_openModule (name : String) (hdst : acc.2.moduleAt? global path = some dst) :
    (acc.2.subModule dst name).2.moduleAt? global (path ++ [name]) =
      some (acc.2.subModule dst name).1 := by
  rw [moduleAt?_subModule (h.coherent hg).nested h.branching hdst, if_pos rfl]

omit hg in
/-- Merging more does not change the conflicts of a path. -/
theorem clash?_eq {ns : Namespace} {n : String} {x : SymbolId}
    (hx : g.entryAt? unit path ns n = some x) :
    g.clash? (acc.2.entryAt? global path ns n) x = g.clash? (g.entryAt? global path ns n) x := by
  rw [h.entry, hx]
  exact clash?_or_ite

/-- A table of the unit is merged into the global tree. -/
theorem exportTable (hunit : (g.scope unit).kind = .unit)
    (hsrc : g.moduleAt? unit path = some src) (hdst : acc.2.moduleAt? global path = some dst) :
    Merged g unit (paths ++ [path]) (Graph.exportTable acc src dst) := by
  have hg' := h.coherent hg
  have houtlet := outlet_of_moduleAt? hg'.nested hdst
  have hscope := h.scope_unit hg hunit hsrc
  have hroute : acc.2.Route src dst := by
    obtain ⟨hinside, hkind⟩ := inside_of_moduleAt?_unit hg.nested hunit hsrc
    exact ⟨⟨(h.publishes.spec hg).2.inside hg.nested hinside, by rwa [hscope]⟩, houtlet⟩
  have hentries : acc.2.publicEntries src = g.publicEntries src := by
    simp only [publicEntries, hscope]
  have hfills := exportTable_fills houtlet.lt_size (hg'.functional src)
  rw [hentries] at hfills
  have hmodule := hfills.moduleAt?_eq global
  have hmem : ∀ {ns n x}, (ns, n, x) ∈ g.publicEntries src ↔
      ns ≠ .internal ∧ g.entryAt? unit path ns n = some x := by
    intro ns n x
    rw [mem_publicEntries_iff (hg.functional src), entryAt?_of_moduleAt? hsrc]
  have hold : ∀ ns n, acc.2.entryAt? global path ns n = (acc.2.scope dst).table.get? ns n :=
    entryAt?_of_moduleAt? hdst
  refine ⟨h.publishes.trans (exportTable_publishes acc hg' hroute),
    hfills.toRefills.branching h.branching, hfills.symbols.trans h.symbols,
    by rw [hfills.size]; exact h.size_le, fun q hq => ?_, fun q hq hoff => ?_,
    fun q hq hoff => ?_, fun path' q hq => ?_, fun path' q hq hlt => ?_, fun path' hpath' => ?_,
    fun path' hpath' => ?_, fun path' ns n => ?_, ?_, fun hpub => ?_⟩
  · by_cases hdst' : q = dst
    · subst hdst'
      have hrest := h.rest q hq
      rw [← hfills.rest] at hrest
      exact hrest
    · rw [hfills.off q hdst']
      exact h.rest q hq
  · rw [hfills.off q, h.off q hq hoff]
    rintro rfl
    exact hoff path (h.older path q hdst hq)
  · simp only [hmodule] at hoff
    rw [hfills.off q]
    · exact h.blank q hq hoff
    · rintro rfl
      exact hoff path hdst
  · rw [hmodule]
    exact h.keeps path' q hq
  · rw [hmodule] at hq
    exact h.older path' q hq hlt
  · rw [hmodule] at hpath'
    exact h.opened path' hpath'
  · rw [hmodule]
    rcases List.mem_append.mp hpath' with hpath' | hpath'
    · exact h.reached path' hpath'
    · rw [List.mem_singleton.mp hpath', hdst]
      exact Option.some_ne_none dst
  · by_cases hpath : path' = path
    · subst hpath
      rw [entryAt?, hmodule, hdst, Option.bind_some,
        get?_exportTable houtlet.lt_size (hg'.functional src), hscope, ← hold, h.entry,
        ← entryAt?_of_moduleAt? hsrc, Option.or_assoc, or_ite_none]
      simp [or_iff_right_of_imp And.left]
    · have hsame : (Graph.exportTable acc src dst).2.entryAt? global path' ns n =
          acc.2.entryAt? global path' ns n := by
        rw [entryAt?, entryAt?, hmodule]
        refine Option.bind_congr fun q hq => ?_
        rw [hfills.off q]
        rintro rfl
        exact hpath (moduleAt?_inj hg'.nested h.branching
          (by rw [hg'.nested.kind_global]; decide) hq hdst)
      rw [hsame, h.entry]
      simp [hpath]
  · have hclash : ∀ e ∈ g.publicEntries src,
        acc.2.clash? ((acc.2.scope dst).table.get? e.1 e.2.1) e.2.2 =
          g.clash? (g.entryAt? global path e.1 e.2.1) e.2.2 := by
      rintro ⟨ns, n, x⟩ he
      have hx := (hmem.mp he).2
      rw [clash?_congr h.symbols, ← hold]
      exact h.clash?_eq hx
    rw [hfills.conflicts, h.conflicts, List.filterMap_congr hclash, List.flatMap_append,
      List.flatMap_singleton, clashesAt, hsrc]
    rfl
  · have hacc := h.still hpub
    rw [hfills.still, hacc]
    rintro ⟨ns, n, x⟩ he
    obtain ⟨hns, hx⟩ := hmem.mp he
    rw [entryAt?_of_moduleAt? hsrc] at hx
    rw [← hold, hacc]
    exact (hpub path src hsrc).2 ns n x hns hx

end

/-- A module of the unit, at the end of `path`, and where it has got to. -/
structure Leads (g : Graph) (path : List String) (entry : String × ScopeId)
    (pair : ScopeId × ScopeId) : Prop where
  src : pair.1 = entry.2
  dst : g.moduleAt? global (path ++ [entry.1]) = some pair.2

theorem Leads.deepens {entry : String × ScopeId} {pair : ScopeId × ScopeId} (h : g.Deepens g')
    (hleads : Leads g path entry pair) : Leads g' path entry pair :=
  ⟨hleads.src, h _ _ hleads.dst⟩

section

variable (hg : g.Coherent) (hunit : (g.scope unit).kind = .unit)
  (hsrc : g.moduleAt? unit path = some src)

include hg hunit hsrc

/-- The modules of one scope of the unit are merged, one after the other; the pairs remember where
they have got to. -/
theorem exportModule_foldl : ∀ (entries done : List (String × ScopeId))
    {paths : List (List String)} {pairs : List (ScopeId × ScopeId)}
    {acc : List ExportConflict × Graph},
    Merged g unit paths acc → acc.2.moduleAt? global path = some dst →
    List.Forall₂ (Leads acc.2 path) done.reverse pairs →
    (∀ e ∈ entries, (g.scope src).modules.find? e.1 = some e.2) →
    Merged g unit (paths ++ entries.map fun e => path ++ [e.1])
        (entries.foldl (exportModule dst) (pairs, acc)).2 ∧
      acc.2.Deepens (entries.foldl (exportModule dst) (pairs, acc)).2.2 ∧
      List.Forall₂ (Leads (entries.foldl (exportModule dst) (pairs, acc)).2.2 path)
        (done ++ entries).reverse (entries.foldl (exportModule dst) (pairs, acc)).1
  | [], done, paths, pairs, acc, h, _, hpairs, _ => by
    simp only [List.map_nil, List.append_nil, List.foldl_nil]
    exact ⟨h, fun _ _ hq => hq, hpairs⟩
  | (name, m) :: entries, done, paths, pairs, acc, h, hdst, hpairs, hentries => by
    have hm : g.moduleAt? unit (path ++ [name]) = some m := by
      rw [moduleAt?_concat, hsrc, Option.bind_some]
      exact hentries (name, m) List.mem_cons_self
    have hopen := h.openModule hg name hdst (by rw [hm]; exact Option.some_ne_none m)
    have htarget := h.moduleAt?_openModule hg name hdst
    have htable := hopen.exportTable hg hunit hm htarget
    have hdeepens : acc.2.Deepens (exportModule dst (pairs, acc) (name, m)).2.2 := fun path' q hq =>
      deepens_exportTable (hopen.coherent hg) htarget m path' q
        (deepens_subModule (h.coherent hg).nested h.branching hdst name path' q hq)
    have hpairs' : List.Forall₂ (Leads (exportModule dst (pairs, acc) (name, m)).2.2 path)
        (done ++ [(name, m)]).reverse (exportModule dst (pairs, acc) (name, m)).1 := by
      rw [List.reverse_append]
      exact .cons ⟨rfl, deepens_exportTable (hopen.coherent hg) htarget m _ _ htarget⟩
        (hpairs.imp fun _ _ => .deepens hdeepens)
    obtain ⟨hmerged, hdeepens', hall⟩ := exportModule_foldl entries (done ++ [(name, m)]) htable
      (hdeepens path dst hdst) hpairs' fun e he => hentries e (List.mem_cons_of_mem _ he)
    rw [List.append_assoc] at hmerged hall
    exact ⟨hmerged, fun path' q hq => hdeepens' path' q (hdeepens path' q hq), hall⟩

omit hg hunit in
/-- What lies below some modules of one scope is merged, module by module. -/
theorem below_foldl {step : List ExportConflict × Graph → ScopeId × ScopeId →
    List ExportConflict × Graph} {below : ScopeId → List (List String)}
    (hstep : ∀ {path : List String} {src dst : ScopeId} {paths : List (List String)}
      {acc : List ExportConflict × Graph}, g.moduleAt? unit path = some src →
      Merged g unit paths acc → acc.2.moduleAt? global path = some dst →
      Merged g unit (paths ++ (below src).map (path ++ ·)) (step acc (src, dst)) ∧
        acc.2.Deepens (step acc (src, dst)).2) :
    ∀ {entries : List (String × ScopeId)} {pairs : List (ScopeId × ScopeId)}
      {paths : List (List String)} {acc : List ExportConflict × Graph},
      List.Forall₂ (Leads acc.2 path) entries pairs → Merged g unit paths acc →
      (∀ e ∈ entries, (g.scope src).modules.find? e.1 = some e.2) →
      Merged g unit (paths ++ entries.flatMap fun e => (below e.2).map (path ++ e.1 :: ·))
          (pairs.foldl step acc) ∧
        acc.2.Deepens (pairs.foldl step acc).2 := by
  intro entries pairs
  induction entries generalizing pairs with
  | nil =>
    intro paths acc hpairs h _
    cases hpairs
    simp only [List.flatMap_nil, List.append_nil, List.foldl_nil]
    exact ⟨h, fun _ _ hq => hq⟩
  | cons entry entries ih =>
    intro paths acc hpairs h hentries
    obtain ⟨name, m⟩ := entry
    cases hpairs with
    | @cons _ pair _ pairs hfirst hrest =>
      obtain ⟨m', target⟩ := pair
      obtain rfl : m = m' := hfirst.src.symm
      have hm : g.moduleAt? unit (path ++ [name]) = some m := by
        rw [moduleAt?_concat, hsrc, Option.bind_some]
        exact hentries (name, m) List.mem_cons_self
      obtain ⟨hmerged, hdeepens⟩ := hstep hm h hfirst.dst
      obtain ⟨hall, hdeepens'⟩ := ih (hrest.imp fun _ _ => .deepens hdeepens) hmerged
        fun e he => hentries e (List.mem_cons_of_mem _ he)
      refine ⟨?_, fun path' q hq => hdeepens' path' q (hdeepens path' q hq)⟩
      rw [List.append_assoc] at hall
      simpa [List.flatMap_cons] using hall

end

/-- All that lies below a scope of the unit is merged, as far as the fuel reaches. -/
theorem exportModules (hg : g.Coherent) (hunit : (g.scope unit).kind = .unit)
    (hbranch : g.Branching) : ∀ (fuel : Nat) {path : List String}
    {src dst : ScopeId} {paths : List (List String)} {acc : List ExportConflict × Graph},
    g.moduleAt? unit path = some src → Merged g unit paths acc →
    acc.2.moduleAt? global path = some dst →
    Merged g unit (paths ++ (g.modulePaths fuel src).map (path ++ ·))
        (Graph.exportModules fuel acc (src, dst)) ∧
      acc.2.Deepens (Graph.exportModules fuel acc (src, dst)).2
  | 0, path, src, dst, paths, acc, hsrc, h, hdst => by
    simp only [modulePaths, List.map_nil, List.append_nil, Graph.exportModules]
    exact ⟨h, fun _ _ hq => hq⟩
  | fuel + 1, path, src, dst, paths, acc, hsrc, h, hdst => by
    have hentries : ∀ e ∈ (g.scope src).modules.entries,
        (g.scope src).modules.find? e.1 = some e.2 := fun e he =>
      NameMap.find?_of_mem_entries (hbranch.nodup src) he
    rw [Graph.exportModules, h.scope_unit hg hunit hsrc, modulePaths]
    obtain ⟨hmodules, hdeepens, hpairs⟩ := exportModule_foldl hg hunit hsrc
      (g.scope src).modules.entries [] h hdst .nil hentries
    obtain ⟨hbelow, hdeepens'⟩ := below_foldl hsrc (exportModules hg hunit hbranch fuel) hpairs
      hmodules fun e he => hentries e (List.mem_reverse.mp he)
    refine ⟨?_, fun path' q hq => hdeepens' path' q (hdeepens path' q hq)⟩
    rw [List.append_assoc] at hbelow
    simpa [List.map_flatMap, Function.comp_def] using hbelow

end Merged

/-! ### A whole unit -/

section Unit

variable (hg : g.Coherent) (hbranch : g.Branching) (hunit : (g.scope unit).kind = .unit)

include hg hbranch

theorem mem_paths_iff (unit : ScopeId) (path : List String) :
    path ∈ [] :: g.modulePaths g.scopes.size unit ↔ g.moduleAt? unit path ≠ none := by
  rw [List.mem_cons, mem_modulePaths_iff hg.nested hbranch _ _ _ (Nat.le_add_left _ _)]
  by_cases hpath : path = []
  · simp [hpath]
  · simp [hpath]

include hunit

theorem exportUnit_merged :
    Merged g unit ([] :: g.modulePaths g.scopes.size unit) (g.exportUnit unit) := by
  have htable := (merged_nil hbranch).exportTable hg hunit moduleAt?_nil moduleAt?_nil
  have hmodules := (Merged.exportModules hg hunit hbranch g.scopes.size moduleAt?_nil htable
    moduleAt?_nil).1
  simpa [exportUnit] using hmodules

end Unit

/-- The graph `g'` is `g` after a merge of the tree of modules of a unit into the global tree, with
the given conflicts. -/
structure Merge (g : Graph) (unit : ScopeId) (conflicts : List ExportConflict) (g' : Graph) :
    Prop where
  /-- The paths of the global tree and those of the unit are the paths of the new global tree. -/
  moduleAt?_iff : ∀ path, g'.moduleAt? global path ≠ none ↔
    g.moduleAt? global path ≠ none ∨ g.moduleAt? unit path ≠ none
  keeps : ∀ path q, g.moduleAt? global path = some q → g'.moduleAt? global path = some q
  /-- At every path and key, the earlier entry wins. -/
  entry : ∀ path ns name, g'.entryAt? global path ns name = (g.entryAt? global path ns name).or
    (if ns = .internal then none else g.entryAt? unit path ns name)
  symbols : g'.symbols = g.symbols
  /-- A scope that is not in the global tree does not change. -/
  off : ∀ q, q.index < g.scopes.size → (∀ path, g.moduleAt? global path ≠ some q) →
    g'.scope q = g.scope q
  /-- The others get entries and modules, and nothing else. -/
  rest : ∀ q, q.index < g.scopes.size →
    { g'.scope q with table := (g.scope q).table, modules := (g.scope q).modules } = g.scope q
  /-- What is in a private partition is entered nowhere. -/
  hidden : ∀ p ns name x q, (g'.scope p).table.get? ns name = some x →
    (g.symbol x).scope = some q → (g.scope q).kind = .inner →
    (g.scope p).table.get? ns name = some x
  mem_conflicts_iff : ∀ c, c ∈ conflicts ↔ ∃ path ns name, ns ≠ .internal ∧
    g.entryAt? unit path ns name = some c.symbol ∧
    g.entryAt? global path ns name = some c.existing ∧ c.existing ≠ c.symbol ∧
    c.reason = exportReason (g.symbol c.existing)
  /-- No symbol of the unit is in two conflicts. -/
  once : (conflicts.map (·.symbol)).Nodup

theorem clash?_eq_some_iff :
    g.clash? earlier x = some c ↔ x = c.symbol ∧ earlier = some c.existing ∧
      c.existing ≠ c.symbol ∧ c.reason = exportReason (g.symbol c.existing) := by
  cases earlier with
  | none => simp
  | some old =>
    rw [clash?, Option.bind_some]
    split
    next heq =>
      constructor
      · intro h
        cases h
      · rintro ⟨hx, hold, hne, -⟩
        exact absurd ((Option.some.inj hold).symm.trans (heq.trans hx)) hne
    next hne =>
      constructor
      · intro h
        cases h
        exact ⟨rfl, rfl, hne, rfl⟩
      · rintro ⟨rfl, hold, -, hreason⟩
        rw [Option.some.inj hold, ← hreason]

theorem mem_clashesAt_iff (hg : g.Coherent) :
    c ∈ g.clashesAt unit path ↔ ∃ ns name, ns ≠ .internal ∧
      g.entryAt? unit path ns name = some c.symbol ∧
      g.entryAt? global path ns name = some c.existing ∧ c.existing ≠ c.symbol ∧
      c.reason = exportReason (g.symbol c.existing) := by
  have hmem : ∀ ns name x, (ns, name, x) ∈ (g.moduleAt? unit path).elim [] g.publicEntries ↔
      ns ≠ .internal ∧ g.entryAt? unit path ns name = some x := by
    intro ns name x
    cases hsrc : g.moduleAt? unit path with
    | none => simp [entryAt?, hsrc]
    | some src =>
      rw [entryAt?_of_moduleAt? hsrc]
      exact mem_publicEntries_iff (hg.functional src)
  rw [clashesAt, List.mem_filterMap]
  constructor
  · rintro ⟨⟨ns, name, x⟩, he, hc⟩
    obtain ⟨hns, hx⟩ := (hmem ns name x).mp he
    obtain ⟨rfl, hrest⟩ := clash?_eq_some_iff.mp hc
    exact ⟨ns, name, hns, hx, hrest⟩
  · rintro ⟨ns, name, hns, hx, hrest⟩
    exact ⟨(ns, name, c.symbol), (hmem ns name c.symbol).mpr ⟨hns, hx⟩,
      clash?_eq_some_iff.mpr ⟨rfl, hrest⟩⟩

/-- The symbols that one table publishes are different, since a symbol has one name and one
namespace. -/
theorem pairwise_publicEntries (hg : g.Coherent) (src : ScopeId) :
    (g.publicEntries src).Pairwise fun e e' => e.2.2 ≠ e'.2.2 := by
  have hkey : ∀ {ns name x}, (name, x) ∈ ((g.scope src).table.space ns).entries →
      (g.symbol x).ns = ns ∧ (g.symbol x).name = name := fun {ns name x} h =>
    (hg.entry (NameMap.find?_of_mem_entries (hg.functional src ns) h)).2
  rw [publicEntries, List.pairwise_flatMap]
  constructor
  · intro ns _
    rw [List.pairwise_map]
    have hnames : ((g.scope src).table.space ns).entries.Pairwise fun e e' => e.1 ≠ e'.1 :=
      List.pairwise_map.mp (hg.functional src ns)
    refine hnames.imp_of_mem fun {e e'} he he' hne hsame => hne ?_
    rw [← (hkey he).2, ← (hkey he').2]
    exact congrArg (fun x => (g.symbol x).name) hsame
  · have hspaces : [Namespace.value, .type, .imported].Pairwise (· ≠ ·) := by decide
    refine hspaces.imp fun {ns ns'} hne e he e' he' hsame => hne ?_
    obtain ⟨entry, hentry, rfl⟩ := List.mem_map.mp he
    obtain ⟨entry', hentry', rfl⟩ := List.mem_map.mp he'
    rw [← (hkey hentry).1, ← (hkey hentry').1]
    exact congrArg (fun x => (g.symbol x).ns) hsame

/-- Every symbol of a unit is published from one table only. -/
theorem nodup_clashes (hg : g.Coherent) (hbranch : g.Branching)
    (hunit : (g.scope unit).kind = .unit) {paths : List (List String)} (hpaths : paths.Nodup) :
    ((paths.flatMap (g.clashesAt unit)).map (·.symbol)).Nodup := by
  have hroot : (g.scope unit).kind ≠ .module := by
    rw [hunit]
    decide
  rw [List.Nodup, List.pairwise_map, List.pairwise_flatMap]
  constructor
  · intro path _
    rw [clashesAt, List.pairwise_filterMap]
    cases g.moduleAt? unit path with
    | none => exact List.Pairwise.nil
    | some src =>
      refine (pairwise_publicEntries hg src).imp fun {e e'} hne c hc c' hc' hsame => hne ?_
      rw [(clash?_eq_some_iff.mp hc).1, (clash?_eq_some_iff.mp hc').1, hsame]
  · refine hpaths.imp fun {path path'} hne c hc c' hc' hsame => hne ?_
    obtain ⟨ns, name, -, hx, -⟩ := (mem_clashesAt_iff hg).mp hc
    obtain ⟨ns', name', -, hx', -⟩ := (mem_clashesAt_iff hg).mp hc'
    obtain ⟨src, hsrc, hx⟩ := exists_of_entryAt? hx
    obtain ⟨src', hsrc', hx'⟩ := exists_of_entryAt? hx'
    have hhome := hg.home (inside_of_moduleAt?_unit hg.nested hunit hsrc).1 hx
    have hhome' := hg.home (inside_of_moduleAt?_unit hg.nested hunit hsrc').1 hx'
    rw [← hsame, hhome] at hhome'
    rw [← Option.some.inj hhome'] at hsrc'
    exact moduleAt?_inj hg.nested hbranch hroot hsrc hsrc'

/-- Publishing a unit is an exact merge. -/
theorem exportUnit_merge (hg : g.Coherent) (hbranch : g.Branching)
    (hunit : (g.scope unit).kind = .unit) :
    g.Merge unit (g.exportUnit unit).1 (g.exportUnit unit).2 := by
  have h := exportUnit_merged hg hbranch hunit
  have hpaths := mem_paths_iff hg hbranch unit
  refine ⟨fun path => ⟨h.opened path, ?_⟩, h.keeps, fun path ns name => ?_, h.symbols, h.off,
    h.rest, fun p ns name x q hx hscope hkind => ?_, fun c => ?_, ?_⟩
  · rintro (hglobal | hsrc)
    · obtain ⟨q, hq⟩ := Option.ne_none_iff_exists'.mp hglobal
      rw [h.keeps path q hq]
      exact Option.some_ne_none q
    · exact h.reached path ((hpaths path).mpr hsrc)
  · rw [h.entry]
    simp only [hpaths]
    cases hsrc : g.moduleAt? unit path with
    | none => simp [entryAt?, hsrc]
    | some src => by_cases hns : ns = .internal <;> simp [hns]
  · -- a scope of the new tree, or one outside of it
    by_cases htree : ∃ path, (g.exportUnit unit).2.moduleAt? global path = some p
    · obtain ⟨path, hp⟩ := htree
      rw [← entryAt?_of_moduleAt? hp, h.entry, Option.or_eq_some_iff] at hx
      rcases hx with hx | ⟨-, hx⟩
      · obtain ⟨p', hp', hx⟩ := exists_of_entryAt? hx
        rw [h.keeps path p' hp'] at hp
        rwa [← Option.some.inj hp]
      · obtain ⟨src, hsrc, hx⟩ := exists_of_entryAt? (Option.ite_none_right_eq_some.mp hx).2
        obtain ⟨hinside, hroot⟩ := inside_of_moduleAt?_unit hg.nested hunit hsrc
        rw [hg.home hinside hx] at hscope
        cases hscope
        rw [hkind] at hroot
        rcases hroot with heq | heq <;> cases heq
    · by_cases hlt : p.index < g.scopes.size
      · rwa [h.off p hlt fun path hp => htree ⟨path, h.keeps path p hp⟩] at hx
      · rw [h.blank p (Nat.le_of_not_lt hlt) fun path hp => htree ⟨path, hp⟩] at hx
        cases ns <;> cases hx
  · rw [h.conflicts, List.mem_flatMap]
    constructor
    · rintro ⟨path, -, hc⟩
      exact ⟨path, (mem_clashesAt_iff hg).mp hc⟩
    · rintro ⟨path, hc⟩
      refine ⟨path, (hpaths path).mpr ?_, (mem_clashesAt_iff hg).mpr hc⟩
      obtain ⟨ns, name, -, hx, -⟩ := hc
      obtain ⟨src, hsrc, -⟩ := exists_of_entryAt? hx
      rw [hsrc]
      exact Option.some_ne_none src
  · rw [h.conflicts]
    refine nodup_clashes hg hbranch hunit (List.nodup_cons.mpr ⟨fun hmem => ?_,
      nodup_modulePaths hbranch _ _⟩)
    exact ne_nil_of_mem_modulePaths hmem rfl

/-- A second publication of a unit finds everything in its place. -/
theorem exportUnit_exportUnit (hg : g.Coherent) (hbranch : g.Branching)
    (hunit : (g.scope unit).kind = .unit) :
    (g.exportUnit unit).2.exportUnit unit = g.exportUnit unit := by
  have h := exportUnit_merged hg hbranch hunit
  have hpaths := mem_paths_iff hg hbranch unit
  have hscope : ∀ path src, g.moduleAt? unit path = some src →
      (g.exportUnit unit).2.scope src = g.scope src := fun _ _ => h.scope_unit hg hunit
  have hmodule : ∀ path, (g.exportUnit unit).2.moduleAt? unit path = g.moduleAt? unit path :=
    moduleAt?_congr fun path q hq => by rw [hscope path q hq]
  have hg' := h.coherent hg
  have h' := exportUnit_merged hg' h.branching
    (by rw [hscope [] unit rfl, hunit] : ((g.exportUnit unit).2.scope unit).kind = .unit)
  have hgraph : ((g.exportUnit unit).2.exportUnit unit).2 = (g.exportUnit unit).2 := by
    refine h'.still fun path src hsrc => ?_
    rw [hmodule] at hsrc
    have hpath := (hpaths path).mpr (by rw [hsrc]; exact Option.some_ne_none src)
    refine ⟨h.reached path hpath, fun ns name x hns hx hnone => ?_⟩
    rw [hscope path src hsrc, ← entryAt?_of_moduleAt? hsrc] at hx
    rw [h.entry, if_pos ⟨hns, hpath⟩, hx] at hnone
    simp at hnone
  have hconflicts : ((g.exportUnit unit).2.exportUnit unit).1 = (g.exportUnit unit).1 := by
    have hlist : (g.exportUnit unit).2.modulePaths (g.exportUnit unit).2.scopes.size unit =
        g.modulePaths g.scopes.size unit := by
      rw [modulePaths_congr hbranch fun path q hq => by rw [hscope path q hq]]
      exact modulePaths_of_le hg.nested h.size_le (Nat.le_add_left _ _)
    rw [h'.conflicts, h.conflicts, hlist]
    refine List.flatMap_congr fun path _ => ?_
    rw [clashesAt, clashesAt, hmodule]
    cases hsrc : g.moduleAt? unit path with
    | none => rfl
    | some src =>
      have hentries : (g.exportUnit unit).2.publicEntries src = g.publicEntries src := by
        simp only [publicEntries, hscope path src hsrc]
      rw [Option.elim_some, Option.elim_some, hentries]
      refine List.filterMap_congr ?_
      rintro ⟨ns, name, x⟩ he
      have hx := ((mem_publicEntries_iff (hg.functional src)).mp he).2
      rw [← entryAt?_of_moduleAt? hsrc] at hx
      rw [clash?_congr h.symbols, h.clash?_eq hx]
  exact Prod.ext hconflicts hgraph

end Graph

end Scoping
