import Mathlib.Data.Option.Basic
import Scoping.Graph.Path
import Scoping.Proofs.Graph.Coherence

/-!
# Imports as qualifiers

In a path `c::r` the name `c` may be an import. The path that it stands for takes its place, and the
new path is resolved from the root scope that shows the import. If nothing is found, the search
goes on outward, where `c::r` is tried as it was written. An absolute path would be resolved in the
unit of the import and in the global scope instead; `Graph.Nearest.qualified_eq_absolute` compares
the two.
-/

namespace Scoping

/-- An answer that does not change unless it is a failure, for the first and for the second try. -/
theorem Lookup.orElse_mono {first first' : Lookup} {second second' : Unit → Lookup}
    (hfirst : first ≠ .failed → first' = first)
    (hsecond : second () ≠ .failed → second' () = second ())
    (h : first.orElse second ≠ .failed) : first'.orElse second' = first.orElse second := by
  have hne : first ≠ .failed := by
    rintro rfl
    exact h rfl
  rw [hfirst hne]
  cases first with
  | notFound => exact hsecond h
  | _ => rfl

theorem Lookup.orElse_of_ne {first : Lookup} {second : Unit → Lookup} (h : first ≠ .notFound) :
    first.orElse second = first := by
  cases first with
  | notFound => exact absurd rfl h
  | _ => rfl

namespace Graph

variable {g : Graph} {ns : Namespace} {skip : Option SymbolId} {q root : ScopeId} {link : SymbolId}

/-! ### More fuel -/

theorem followWith_mono {resolve resolve' : ScopeId → List String → Lookup}
    (hresolve : ∀ root segments, resolve root segments ≠ .failed →
      resolve' root segments = resolve root segments)
    (h : g.followWith resolve link ≠ .failed) :
    g.followWith resolve' link = g.followWith resolve link := by
  unfold followWith at h ⊢
  dsimp only at h ⊢
  split
  next => rfl
  next data hdata =>
    rw [hdata] at h
    refine Lookup.orElse_mono (hresolve _ _) (fun hglobal => ?_) h
    split
    · rfl
    next hhome =>
      rw [if_neg hhome] at hglobal
      exact hresolve _ _ hglobal

/-- An answer other than a failure stays with more fuel. -/
theorem resolveFrom_mono : ∀ {n m : Nat} (_ : n ≤ m) {skip : Option SymbolId} {root : ScopeId}
    {segments : List String}, g.resolveFrom ns n skip root segments ≠ .failed →
      g.resolveFrom ns m skip root segments = g.resolveFrom ns n skip root segments
  | 0, _, _, _, _, _, h => absurd rfl h
  | n + 1, 0, hle, _, _, _, _ => absurd hle (Nat.not_succ_le_zero n)
  | n + 1, m + 1, hle, skip, root, segments, h => by
    have hle' := Nat.le_of_succ_le_succ hle
    rw [resolveFrom] at h ⊢
    rw [resolveFrom]
    cases hdescend : g.descend skip root segments with
    | lost => rfl
    | detour link rest =>
      rw [hdescend] at h
      dsimp only at h ⊢
      cases hdata : (g.symbol link).imported? with
      | none => rfl
      | some data =>
        rw [hdata] at h
        exact resolveFrom_mono hle' h
    | item scope name =>
      rw [hdescend] at h
      refine Lookup.orElse_mono (fun _ => rfl) (fun hsecond => ?_) h
      cases hlink : g.visibleImport? scope name skip with
      | none => rfl
      | some link =>
        rw [hlink] at hsecond
        dsimp only at hsecond ⊢
        split at hsecond
        · exact absurd rfl hsecond
        next hn =>
          rw [if_neg hn, if_neg (by omega)]
          exact followWith_mono (fun _ _ => resolveFrom_mono hle') hsecond

/-! ### Setting an import aside -/

theorem visibleImport?_none_of_eq_some {name : String}
    (h : g.visibleImport? q name skip = some link) : g.visibleImport? q name none = some link := by
  unfold visibleImport? at h ⊢
  rw [Option.filter_eq_some_iff] at h ⊢
  exact ⟨h.1, by simp⟩

/-- A segment with others after it is a module or an import. -/
theorem descend_cons {segment : String} {rest : List String} (h : rest ≠ []) :
    g.descend skip root (segment :: rest) =
      match (g.scope root).modules.find? segment with
      | some next => g.descend skip next rest
      | none =>
        match g.visibleImport? root segment skip with
        | some link => .detour link rest
        | none => .lost := by
  cases rest with
  | nil => exact absurd rfl h
  | cons => rfl

theorem descend_none_of_ne_lost {skip : Option SymbolId} : ∀ (segments : List String)
    {root : ScopeId}, g.descend skip root segments ≠ .lost →
      g.descend none root segments = g.descend skip root segments
  | [], _, h => absurd rfl h
  | [_], _, _ => rfl
  | segment :: next :: rest, root, h => by
    rw [descend_cons (List.cons_ne_nil _ _)] at h ⊢
    rw [descend_cons (List.cons_ne_nil _ _)]
    cases hmodule : (g.scope root).modules.find? segment with
    | some m =>
      rw [hmodule] at h
      exact descend_none_of_ne_lost (next :: rest) h
    | none =>
      rw [hmodule] at h
      dsimp only at h ⊢
      cases hlink : g.visibleImport? root segment skip with
      | none =>
        rw [hlink] at h
        exact absurd rfl h
      | some link => rw [visibleImport?_none_of_eq_some hlink]

/-- What is found while an import is set aside is found without that, too. -/
theorem resolveFrom_none {n : Nat} {segments : List String}
    (h : g.resolveFrom ns n skip root segments ≠ .notFound) :
    g.resolveFrom ns n none root segments = g.resolveFrom ns n skip root segments := by
  cases n with
  | zero => rfl
  | succ n =>
    rw [resolveFrom] at h ⊢
    rw [resolveFrom]
    have hlost : g.descend skip root segments ≠ .lost := by
      intro hlost
      rw [hlost] at h
      exact h rfl
    rw [descend_none_of_ne_lost segments hlost]
    cases hdescend : g.descend skip root segments with
    | lost => rfl
    | detour link rest => rfl
    | item scope name =>
      rw [hdescend] at h
      dsimp only at h ⊢
      cases hitem : g.itemIn scope name ns with
      | notFound =>
        rw [hitem] at h
        cases hlink : g.visibleImport? scope name skip with
        | none =>
          rw [hlink] at h
          exact absurd rfl h
        | some link => rw [visibleImport?_none_of_eq_some hlink]
      | _ => rfl

/-! ### Qualifiers -/

/-- Of the modules and imports that have the name `c`, the import `link` of the root scope `root` is
the first that a path with the qualifier `c` meets on its way outward from `start`; the roots in
`outer` come next. -/
structure Nearest (g : Graph) (start : ScopeId) (c : String) (link : SymbolId) (root : ScopeId)
    (outer : List ScopeId) : Prop where
  roots : ∃ inner, g.pathRoots start false = inner ++ root :: outer ∧
    ∀ q ∈ inner, (g.scope q).modules.find? c = none ∧ g.lookupHere? q c (some .imported) = none
  module : (g.scope root).modules.find? c = none
  listed : g.lookupHere? root c (some .imported) = some link

/-- The path that comes about when an import of `root` is replaced, resolved from there. While the
scope is not active, its private imports are out of sight. -/
def qualified (g : Graph) (ns : Namespace) (c : String) (link : SymbolId) (root : ScopeId)
    (path : List String) : Lookup :=
  if g.visibleImport? root c none = some link then g.resolveFrom ns maxHops (some link) root path
  else .notFound

/-- The unit that an import was declared in. -/
def homeOf (g : Graph) (link : SymbolId) : ScopeId :=
  ((g.symbol link).scope.bind g.unitOf?).getD global

/-- A path that is resolved in the unit of an import and, if it is not found, in the global
scope. -/
def absolute (g : Graph) (ns : Namespace) (link : SymbolId) (path : List String) : Lookup :=
  g.resolveFirst ns path [g.homeOf link, global]

/-- A scope shows no imports but those that it lists. -/
theorem lookupHere?_of_visibleImport? {c : String} (h : g.visibleImport? q c skip = some link) :
    g.lookupHere? q c (some .imported) = some link := by
  unfold visibleImport? at h
  obtain ⟨h, -⟩ := Option.filter_eq_some_iff.mp h
  rw [Option.orElse_eq_some] at h
  rw [lookupHere?, Option.orElse_eq_some]
  refine h.imp_right fun ⟨htable, hpartition⟩ => ⟨htable, ?_⟩
  obtain ⟨inner, hinner, hentry⟩ := Option.bind_eq_some_iff.mp hpartition
  split at hinner
  · exact Option.bind_eq_some_iff.mpr ⟨inner, hinner, hentry⟩
  · cases hinner

namespace Nearest

variable {start root : ScopeId} {c : String} {link : SymbolId} {outer : List ScopeId}
  {data : ImportData} {r : List String} {path : List String}

/-- A scope without a module or an import of that name does not answer. -/
theorem resolveFrom_eq_notFound {n : Nat} {q : ScopeId} (hr : r ≠ [])
    (hmodule : (g.scope q).modules.find? c = none)
    (himport : g.visibleImport? q c none = none) :
    g.resolveFrom ns (n + 1) none q (c :: r) = .notFound := by
  rw [resolveFrom, descend_cons hr, hmodule]
  dsimp only
  rw [himport]

theorem resolveFirst_append {segments : List String} : ∀ {inner outer : List ScopeId},
    (∀ q ∈ inner, g.resolveFrom ns (maxHops + 1) none q segments = .notFound) →
    g.resolveFirst ns segments (inner ++ outer) = g.resolveFirst ns segments outer
  | [], _, _ => rfl
  | q :: inner, outer, h => by
    rw [List.cons_append, resolveFirst, h q List.mem_cons_self]
    exact resolveFirst_append fun p hp => h p (List.mem_cons_of_mem _ hp)

variable (h : g.Nearest start c link root outer)

include h

/-- The scope that shows the import replaces it, if it shows it at the moment. -/
theorem resolveFrom_eq_qualified (hdata : (g.symbol link).imported? = some data) (hr : r ≠ []) :
    g.resolveFrom ns (maxHops + 1) none root (c :: r) =
      g.qualified ns c link root (data.path.segments ++ r) := by
  unfold qualified
  split
  next hvisible =>
    rw [resolveFrom, descend_cons hr, h.module]
    dsimp only
    rw [hvisible]
    dsimp only
    rw [hdata]
  next hvisible =>
    refine resolveFrom_eq_notFound hr h.module ?_
    refine Option.eq_none_iff_forall_ne_some.mpr fun other hother => hvisible ?_
    have hlisted := lookupHere?_of_visibleImport? hother
    rw [h.listed] at hlisted
    rw [hother, ← hlisted]

/-- A path with an import for a qualifier. -/
theorem lookupPath_eq (hdata : (g.symbol link).imported? = some data) (hr : r ≠ []) :
    (g.lookupPath start ⟨c :: r, false⟩ ns).1 =
      (g.qualified ns c link root (data.path.segments ++ r)).orElse fun _ =>
        g.resolveFirst ns (c :: r) outer := by
  obtain ⟨inner, hroots, hinner⟩ := h.roots
  have hsingle : (QualName.mk (c :: r) false).isSingle = false := by
    cases r with
    | nil => exact absurd rfl hr
    | cons => simp [QualName.isSingle]
  have hlost : ∀ q ∈ inner, g.resolveFrom ns (maxHops + 1) none q (c :: r) = .notFound := by
    intro q hq
    obtain ⟨hmodule, himport⟩ := hinner q hq
    refine resolveFrom_eq_notFound hr hmodule ?_
    refine Option.eq_none_iff_forall_ne_some.mpr fun other hother => ?_
    rw [lookupHere?_of_visibleImport? hother] at himport
    cases himport
  unfold lookupPath
  rw [hsingle, hroots]
  simp only [List.isEmpty_cons, Bool.false_eq_true, if_false]
  rw [resolveFirst_append hlost, resolveFirst, h.resolveFrom_eq_qualified hdata hr]

omit h in
/-- What a path with the import for a qualifier means at the scope of the import, the path in its
place means there, too. -/
theorem qualified_eq_resolveFrom (hfound : g.qualified ns c link root path ≠ .notFound)
    (hfails : g.qualified ns c link root path ≠ .failed) :
    g.qualified ns c link root path = g.resolveFrom ns (maxHops + 1) none root path := by
  unfold qualified at hfound hfails ⊢
  split at hfound
  next hvisible =>
    rw [if_pos hvisible] at hfails ⊢
    have hnone := resolveFrom_none hfound
    rw [← hnone] at hfails
    rw [resolveFrom_mono (Nat.le_succ maxHops) hfails, hnone]
  next => exact absurd rfl hfound

/-- The import of a unit was declared there. -/
theorem homeOf_eq (hg : g.Coherent) (hkind : (g.scope root).kind = .unit) :
    g.homeOf link = root := by
  have houter : (g.scope root).outer = none :=
    hg.nested.outer_of_kind fun hinner => by rw [hkind] at hinner; cases hinner
  have howner := owner_of_outer_eq_none houter
  have hinside : g.Inside root := ⟨root, by rw [howner]; exact .refl, hkind⟩
  have hunit : ∀ {q}, g.owner q = root → g.unitOf? q = some root := by
    intro q hq
    obtain ⟨n, hn⟩ := Nat.exists_eq_succ_of_ne_zero (Nat.ne_zero_of_lt hinside.lt_size)
    rw [unitOf?, enclosing, hq, hn, enclosingWithin, List.find?_cons_of_pos (by rw [hkind]; rfl)]
  have hlisted : ∃ q, g.owner q = root ∧ (g.symbol link).scope = some q := by
    have hlisted := h.listed
    rw [lookupHere?, Option.orElse_eq_some] at hlisted
    rcases hlisted with htable | ⟨-, hpartition⟩
    · exact ⟨root, howner, hg.home hinside htable⟩
    · obtain ⟨inner, hinner, htable⟩ := Option.bind_eq_some_iff.mp hpartition
      have hown := owner_of_outer_eq_some (hg.nested.partitioned.outer_of_inner hinner)
      exact ⟨inner, hown, hg.home (hinside.of_owner_eq (by rw [hown, howner])) htable⟩
  obtain ⟨q, hq, hscope⟩ := hlisted
  rw [homeOf, hscope, Option.bind_some, hunit hq, Option.getD_some]

/-- At the top level of a unit, whatever a path with the import for a qualifier means, it means the
same as the absolute path. -/
theorem qualified_eq_absolute (hg : g.Coherent) (hkind : (g.scope root).kind = .unit)
    (hfound : g.qualified ns c link root path ≠ .notFound)
    (hfails : g.qualified ns c link root path ≠ .failed) :
    g.qualified ns c link root path = g.absolute ns link path := by
  have heq := qualified_eq_resolveFrom hfound hfails
  rw [heq] at hfound
  rw [absolute, resolveFirst, h.homeOf_eq hg hkind, Lookup.orElse_of_ne hfound, heq]

end Nearest

end Graph

end Scoping
