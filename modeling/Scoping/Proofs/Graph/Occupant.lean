import Mathlib.Data.List.Nodup
import Mathlib.Data.List.Perm.Subperm
import Scoping.Graph.Search
import Scoping.Proofs.Graph.Agreement

/-!
# Declarations and searches meet the same symbol

A declaration is compared with the first symbol of its key along the reach of its scope, a list that
grows by two nested loops. A search for the same key goes from scope to scope by recursion. Where
the links do not come back to a scope, and nothing but scopes and superclasses is on the way, both
come upon the tables in the same order (`Graph.Trail.symbol_eq_occupant`).
-/

namespace Scoping

/-- The answer shows a symbol, or that there is none. -/
structure Lookup.Shows (answer : Lookup) (x : Option SymbolId) : Prop where
  symbol : answer.symbol? = x
  ne_failed : answer ≠ .failed

namespace Lookup.Shows

variable {answer second : Lookup} {x y : Option SymbolId}

theorem notFound_iff (h : answer.Shows x) : answer = .notFound ↔ x = none := by
  obtain ⟨rfl, hne⟩ := h
  cases answer with
  | failed => exact absurd rfl hne
  | _ => simp [symbol?]

theorem orElse (h : answer.Shows x) (hsecond : second.Shows y) :
    (answer.orElse fun _ => second).Shows (x.or y) := by
  obtain ⟨rfl, hne⟩ := h
  cases answer with
  | notFound => exact hsecond
  | failed => exact absurd rfl hne
  | _ => exact ⟨rfl, hne⟩

theorem none : Lookup.notFound.Shows none := ⟨rfl, by decide⟩

end Lookup.Shows

namespace Graph

variable {g : Graph} {name : String} {ns : Namespace} {d : Nat} {p : ScopeId}
  {next : Option ScopeId} {scopes : List ScopeId}

/-! ### Trails -/

/-- The superclasses from a scope on, itself first, where `d` links have been followed to get
there. -/
inductive Line (g : Graph) : Nat → Option ScopeId → List ScopeId → Prop where
  | nil {d : Nat} : Line g d none []
  | cons {d : Nat} {p : ScopeId} {rest : List ScopeId} : d ≤ maxDepth →
    Line g (d + 1) (g.superScope? p) rest → Line g d (some p) (p :: rest)

/-- The scopes from a scope outward, each with its superclasses. -/
inductive Trail (g : Graph) : Nat → Option ScopeId → List ScopeId → Prop where
  | nil {d : Nat} : Trail g d none []
  | cons {d : Nat} {p : ScopeId} {line rest : List ScopeId} : Line g d (some p) line →
    Trail g (d + 1) (g.scope p).parent rest → Trail g d (some p) (line ++ rest)

/-- A scope at which a search for the name looks at nothing but tables and goes on outward, to a
scope that is no partition. -/
structure Open (g : Graph) (name : String) (p : ScopeId) : Prop where
  lt_size : p.index < g.scopes.size
  sealed : (g.scope p).sealed = false
  delegate : (g.scope p).delegate = none
  parent : ∀ q ∈ (g.scope p).parent, (g.scope q).outer = none
  accessor : ∀ info ∈ (g.scope p).member,
    info.getters.find? name = none ∧ info.setters.find? name = none

theorem Line.spec (h : g.Line d (some p) scopes) : d ≤ maxDepth ∧ ∃ rest, scopes = p :: rest := by
  cases h with
  | cons hd => exact ⟨hd, _, rfl⟩

/-! ### Searches -/

theorem occupant?_append (front back : List ScopeId) :
    g.occupant? (front ++ back) ns name =
      (g.occupant? front ns name).or (g.occupant? back ns name) :=
  List.findSome?_append

theorem shows_searchOwn (h : g.Open name p) (viaSuper : Bool) :
    (g.searchOwn p name (some ns) viaSuper).Shows (g.occupant? (g.withInner p) ns name) := by
  have hrestrict : ∀ x, (restrict (g.scope p) x).Shows (some x) := by
    intro x
    unfold restrict
    split <;> exact ⟨rfl, by simp⟩
  have haccessor : (g.scope p).member.bind (accessor? · name (some ns)) = none := by
    cases hmember : (g.scope p).member with
    | none => rfl
    | some info =>
      obtain ⟨hget, hset⟩ := h.accessor info hmember
      cases ns <;> simp [accessor?, hget, hset]
  simp only [searchOwn, occupant?, withInner, Table.find?, List.findSome?_cons, haccessor]
  cases (g.scope p).table.get? ns name with
  | some x => exact hrestrict x
  | none =>
    cases (g.scope p).inner with
    | none => exact .none
    | some inner =>
      simp only [Option.bind_some, Option.toList_some, List.findSome?_cons, List.findSome?_nil]
      cases (g.scope inner).table.get? ns name with
      | none => exact .none
      | some x =>
        dsimp only
        split
        · exact ⟨rfl, by simp⟩
        · exact hrestrict x

theorem Line.shows (h : g.Line d next scopes) (hopen : ∀ q ∈ scopes, g.Open name q) :
    ∀ (fuel : Nat) (viaSuper : Bool), fuel + d = maxDepth + 1 →
      (next.elim .notFound (g.searchMember name (some ns) fuel · viaSuper)).Shows
        (g.occupant? (scopes.flatMap g.withInner) ns name) := by
  induction h with
  | nil => exact fun _ _ _ => .none
  | @cons d p rest hd _ ih =>
    intro fuel viaSuper hfuel
    obtain ⟨fuel, rfl⟩ : ∃ n, fuel = n + 1 := ⟨fuel - 1, by omega⟩
    have hown : (g.searchOwn p name (some ns) viaSuper).Shows _ :=
      shows_searchOwn (hopen p List.mem_cons_self) viaSuper
    have hrest := hown.orElse
      (ih (fun q hq => hopen q (List.mem_cons_of_mem p hq)) fuel true (by omega))
    rw [List.flatMap_cons, occupant?_append]
    simp only [Option.elim_some, searchMember]
    cases hsuper : g.superScope? p <;> rwa [hsuper] at hrest

theorem Trail.shows (h : g.Trail d next scopes) (hopen : ∀ q ∈ scopes, g.Open name q) :
    ∀ fuel, fuel + d = maxDepth + 1 → (next.elim .notFound (g.search name (some ns) fuel)).Shows
      (g.occupant? (scopes.flatMap g.withInner) ns name) := by
  induction h with
  | nil => exact fun _ _ => .none
  | @cons d p line rest hline _ ih =>
    intro fuel hfuel
    obtain ⟨hd, tail, htail⟩ := hline.spec
    obtain ⟨fuel, rfl⟩ : ∃ n, fuel = n + 1 := ⟨fuel - 1, by omega⟩
    have hself : g.Open name p := hopen p (by simp [htail])
    have hmember : (g.searchMember name (some ns) (fuel + 1) p false).Shows _ :=
      hline.shows (fun q hq => hopen q (List.mem_append_left rest hq)) (fuel + 1) false hfuel
    have hrest := hmember.orElse
      ((ih (fun q hq => hopen q (List.mem_append_right line hq)) fuel (by omega)).orElse .none)
    rw [Option.or_none] at hrest
    rw [List.flatMap_append, occupant?_append]
    simp only [Option.elim_some, search, hself.sealed, hself.delegate, Bool.false_eq_true, if_false]
    cases hparent : (g.scope p).parent <;> rwa [hparent] at hrest

/-! ### The reach -/

section Reach

variable (hg : g.Partitioned)

include hg

/-- Superclasses are added in order, and none of them is a partition that came before. -/
theorem Line.reachSupers (h : g.Line d next scopes) :
    ∀ {seen : List ScopeId} {fuel : Nat}, scopes.Nodup →
      (∀ q ∈ scopes, q ∉ seen ∧ (g.scope q).outer = none) → scopes.length ≤ fuel →
      g.reachSupers fuel seen next = seen ++ scopes.flatMap g.withInner := by
  induction h with
  | nil =>
    intro seen fuel _ _ _
    rw [List.flatMap_nil, List.append_nil]
    cases fuel <;> rfl
  | @cons d p rest hd _ ih =>
    intro seen fuel hnodup hfree hfuel
    rw [List.length_cons] at hfuel
    obtain ⟨fuel, rfl⟩ : ∃ n, fuel = n + 1 := ⟨fuel - 1, by omega⟩
    obtain ⟨hp, hrest⟩ := List.nodup_cons.mp hnodup
    rw [Graph.reachSupers, if_neg (hfree p List.mem_cons_self).1, List.flatMap_cons,
      ← List.append_assoc]
    refine ih hrest (fun q hq => ?_) (by omega)
    obtain ⟨hseen, houter⟩ := hfree q (List.mem_cons_of_mem p hq)
    refine ⟨fun hmem => ?_, houter⟩
    rcases List.mem_append.mp hmem with hmem | hmem
    · exact hseen hmem
    · rcases List.mem_cons.mp hmem with rfl | hinner
      · exact hp hq
      · rw [hg.outer_of_inner (Option.mem_toList.mp hinner)] at houter
        cases houter

/-- Along a trail of open scopes the fuel suffices, and each is listed with its partition. -/
theorem Trail.reachWithin (h : g.Trail d next scopes) (hopen : ∀ q ∈ scopes, g.Open name q)
    (hsize : scopes.length ≤ g.scopes.size) : ∀ {seen : List ScopeId} {fuel : Nat}, scopes.Nodup →
    (∀ q ∈ scopes, q ∉ seen ∧ (g.scope q).outer = none) → scopes.length ≤ fuel →
    g.reachWithin fuel seen next = seen ++ scopes.flatMap g.withInner := by
  induction h with
  | nil =>
    intro seen fuel _ _ _
    rw [List.flatMap_nil, List.append_nil]
    cases fuel <;> rfl
  | @cons d p line rest hline _ ih =>
    intro seen fuel hnodup hfree hfuel
    obtain ⟨-, tail, rfl⟩ := hline.spec
    rw [List.length_append, List.length_cons] at hsize hfuel
    obtain ⟨fuel, rfl⟩ : ∃ n, fuel = n + 1 := ⟨fuel - 1, by omega⟩
    obtain ⟨hline', hrest, hdisjoint⟩ := List.nodup_append.mp hnodup
    have hp := hfree p (by simp)
    have hsupers : g.reachSupers (g.scopes.size + 1) seen (some p) = _ :=
      hline.reachSupers hg hline'
      (fun q hq => hfree q (List.mem_append_left rest hq)) (by rw [List.length_cons]; omega)
    rw [Graph.reachSupers, if_neg hp.1] at hsupers
    have hnext : g.outward? p = (g.scope p).parent := by
      have hparent := (hopen p (by simp)).parent
      unfold outward?
      cases hq : (g.scope p).parent with
      | none => rfl
      | some q => rw [Option.map_some, owner_of_outer_eq_none (hparent q hq)]
    rw [Graph.reachWithin, if_neg hp.1, hsupers, hnext, List.flatMap_append, ← List.append_assoc]
    refine ih (fun q hq => hopen q (List.mem_append_right _ hq)) (by omega) hrest (fun q hq => ?_)
      (by omega)
    obtain ⟨hseen, houter⟩ := hfree q (List.mem_append_right _ hq)
    refine ⟨fun hmem => ?_, houter⟩
    rcases List.mem_append.mp hmem with hmem | hmem
    · exact hseen hmem
    · obtain ⟨y, hy, hqy⟩ := List.mem_flatMap.mp hmem
      rcases List.mem_cons.mp hqy with rfl | hinner
      · exact hdisjoint q hy q hq rfl
      · rw [hg.outer_of_inner (Option.mem_toList.mp hinner)] at houter
        cases houter

/-- The symbol that a search comes upon is the one that a declaration would be compared with. -/
theorem Trail.symbol_eq_occupant (h : g.Trail 0 (some p) scopes) (hnodup : scopes.Nodup)
    (hopen : ∀ q ∈ scopes, g.Open name q) (ns : Namespace) :
    (g.peek p name (some ns)).symbol? = g.occupant? (g.reach p) ns name ∧
      (g.peek p name (some ns) = .notFound ↔ g.occupant? (g.reach p) ns name = none) := by
  have hsize : scopes.length ≤ g.scopes.size := by
    have hindex : (scopes.map ScopeId.index).Nodup :=
      List.Nodup.map (fun _ _ h => congrArg ScopeId.mk h) hnodup
    have hsub : scopes.map ScopeId.index ⊆ List.range g.scopes.size := fun i hi => by
      obtain ⟨q, hq, rfl⟩ := List.mem_map.mp hi
      exact List.mem_range.mpr (hopen q hq).lt_size
    simpa using (hindex.subperm hsub).length_le
  have houter : ∀ q ∈ scopes, (g.scope q).outer = none := fun q hq =>
    Option.eq_none_iff_forall_ne_some.mpr fun r hr => by
      simpa [(hopen q hq).sealed] using hg.sealed hr
  have hp : p ∈ scopes := by
    cases h with
    | cons hline =>
      obtain ⟨-, tail, rfl⟩ := hline.spec
      simp
  have hshows : (g.peek p name (some ns)).Shows _ := h.shows hopen (maxDepth + 1) rfl
  have hreach : g.reachWithin g.scopes.size [] (some p) = _ := h.reachWithin hg hopen hsize hnodup
    (fun q hq => ⟨List.not_mem_nil, houter q hq⟩) hsize
  rw [reach, owner_of_outer_eq_none (houter p hp), hreach, List.nil_append]
  exact ⟨hshows.symbol, hshows.notFound_iff⟩

end Reach

/-- A unit with a class (scope 3) that has a private method, and a class (scope 5) that extends
it. -/
def derivedMembers : Graph :=
  let g := (initial.newScope .unit (some global)).2
  let g := (g.newMemberScope ⟨0⟩ ⟨1⟩).2
  let g := (g.newMemberScope ⟨1⟩ ⟨1⟩).2
  let g := g.modifyMember ⟨5⟩ fun info => { info with super := some ⟨3⟩ }
  let g := (g.alloc (.mkDetached "m" {} {} (.fn {}))).2
  (g.declare ⟨3⟩ ⟨0⟩).2

theorem built_derivedMembers : Built derivedMembers :=
  .declare _ _ (by decide) (by decide) (by decide) (.alloc _ rfl (.setSuper _ _
    (.newMemberScope _ _ (.newMemberScope _ _ (.newScope _ _ .initial)))))

/-- The private method is what a search in the second class comes upon, although it is not for its
eyes, and what another method of that name would be compared with. -/
theorem symbol_eq_occupant_derivedMembers :
    derivedMembers.peek ⟨5⟩ "m" (some .value) = .hidden ⟨0⟩ ∧
      derivedMembers.occupant? (derivedMembers.reach ⟨5⟩) .value "m" = some ⟨0⟩ := by
  have hpeek : derivedMembers.peek ⟨5⟩ "m" (some .value) = .hidden ⟨0⟩ := by decide +kernel
  have htrail : derivedMembers.Trail 0 (some ⟨5⟩) ([⟨5⟩, ⟨3⟩] ++ ([⟨1⟩] ++ ([⟨0⟩] ++ []))) :=
    .cons (.cons (by decide) (.cons (by decide) .nil))
      (.cons (.cons (by decide) .nil) (.cons (.cons (by decide) .nil) .nil))
  have hopen : ∀ q ∈ [⟨5⟩, ⟨3⟩, ⟨1⟩, ⟨0⟩], derivedMembers.Open "m" q := by
    intro q hq
    simp only [List.mem_cons, List.not_mem_nil, or_false] at hq
    rcases hq with rfl | rfl | rfl | rfl <;> constructor <;> decide
  have hsame := (htrail.symbol_eq_occupant built_derivedMembers.partitioned (by decide)
    hopen .value).1
  rw [hpeek] at hsame
  exact ⟨hpeek, hsame.symm⟩

end Graph

end Scoping
