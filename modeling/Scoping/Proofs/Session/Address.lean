import Scoping.Proofs.Graph.Qualifier
import Scoping.Proofs.QualName
import Scoping.Proofs.Session.Merge
import Scoping.Proofs.Session.Placement

/-!
# Paths as addresses

The path of a symbol is written on the way outward, from the names of the modules around it. Read
back as a rooted name and followed inward, it leads from any scope of the unit to the symbol
(`Session.lookupPath_symbolPath`), because every module is in its parent under its own name.
-/

namespace Scoping

namespace Graph

variable {g : Graph} {p q unit : ScopeId}

/-! ### Outward and inward -/

namespace Nested

variable (hg : g.Nested)

include hg

/-- A walk outward takes fewer steps than the id of the scope that it starts from says. -/
theorem enclosingWithin_eq {a b : Nat} (ha : q.index < a) (hb : q.index < b) :
    g.enclosingWithin a q = g.enclosingWithin b q := by
  induction a generalizing b q with
  | zero => exact absurd ha (Nat.not_lt_zero _)
  | succ a ih =>
    cases b with
    | zero => exact absurd hb (Nat.not_lt_zero _)
    | succ b =>
      rw [enclosingWithin, enclosingWithin]
      cases hnext : g.outward? q with
      | none => rfl
      | some p =>
        have hlt := hg.outward?_lt hnext
        exact congrArg (q :: ·) (ih (by omega) (by omega))

theorem enclosing_of_parent (hq : (g.scope q).outer = none) (hp : (g.scope q).parent = some p) :
    g.enclosing q = q :: g.enclosing p := by
  have hnext : g.outward? q = some (g.owner p) := by rw [outward?, hp, Option.map_some]
  have hlt := hg.outward?_lt hnext
  have hsize := lt_size_of_parent hp
  rw [enclosing, owner_of_outer_eq_none hq, hg.enclosingWithin_eq hsize (Nat.lt_succ_of_lt hsize),
    enclosingWithin, hnext]
  rfl

theorem enclosing_global : g.enclosing global = [global] := by
  have hnext : g.outward? global = none := by
    refine Option.map_eq_none_iff.mpr (Option.eq_none_iff_forall_ne_some.mpr fun p hp => ?_)
    exact absurd (hg.parent_lt hp) (Nat.not_lt_zero _)
  have hsize : global.index < g.scopes.size := lt_size_of_kind (by rw [hg.kind_global]; decide)
  rw [enclosing, owner_of_outer_eq_none hg.outer_global,
    hg.enclosingWithin_eq (b := 1) hsize Nat.zero_lt_one, enclosingWithin, hnext]

/-- The names of the modules around a root lead from its unit to it. -/
theorem descend_moduleNames (skip : Option SymbolId) (hc : g.Charted) {rest : List String}
    (hrest : rest ≠ [])
    (hroot : (g.scope p).kind.isRoot = true) (hunit : g.unitOf? p = some unit) :
    g.descend skip unit (g.moduleNames p ++ rest) = g.descend skip p rest := by
  induction hn : p.index using Nat.strong_induction_on generalizing p rest with
  | _ n ih =>
    have houter : (g.scope p).outer = none :=
      hg.outer_of_kind fun h => by rw [h] at hroot; cases hroot
    cases hc p hroot with
    | global heq =>
      rw [heq, unitOf?, hg.enclosing_global] at hunit
      simp [hg.kind_global] at hunit
    | unit hkind hparent =>
      have hwalk := hg.enclosing_of_parent houter hparent
      rw [hg.enclosing_global] at hwalk
      have hself : p = unit := by simpa [unitOf?, hwalk, hkind] using hunit
      have hnone : g.moduleNames p = [] := by simp [moduleNames, hwalk, hkind, hg.kind_global]
      rw [hnone, ← hself, List.nil_append]
    | @module r name hkind hparent hname hfind =>
      have hwalk := hg.enclosing_of_parent houter hparent
      have hlt := hg.parent_lt hparent
      have hup : g.unitOf? r = some unit := by simpa [unitOf?, hwalk, hkind] using hunit
      have hnames : g.moduleNames p = g.moduleNames r ++ [name] := by
        simp [moduleNames, hwalk, hkind, hname]
      rw [hnames, List.append_assoc, ih r.index (hn ▸ hlt)
        (List.append_ne_nil_of_right_ne_nil _ hrest)
        (hg.isRoot_parent hparent hroot) hup rfl, List.singleton_append, descend_cons hrest,
        hfind hlt]

end Nested

/-! ### Writing -/

theorem moduleNames_owner (hg : g.Partitioned) (q : ScopeId) :
    g.moduleNames (g.owner q) = g.moduleNames q := by
  rw [moduleNames, enclosing, hg.owner_owner]
  rfl

/-- The path of a symbol of a root is the names of the modules and its own. -/
theorem symbolPath_eq (hg : g.Nested) {c : SymbolId} (hroot : g.isRoot q = true)
    (hc : (g.symbol c).scope = some q) (hnames : ∀ n ∈ g.moduleNames q, n ≠ "") :
    g.symbolPath c = String.intercalate "::" (g.moduleNames q ++ [(g.symbol c).name]) := by
  have hmember : g.memberInfo? (g.owner q) = none := hg.member_of_isRoot hroot
  simp only [symbolPath, symbolPathWithin, hc, hmember, modulePath,
    moduleNames_owner hg.partitioned]
  cases hlist : g.moduleNames q with
  | nil => simp
  | cons first rest =>
    have hne : first ≠ "" := hnames first (by rw [hlist]; exact List.mem_cons_self)
    rw [String.intercalate_append_of_ne_nil (List.cons_ne_nil _ _) (List.cons_ne_nil _ _),
      String.intercalate_singleton, if_neg]
    cases rest <;> simp [hne]

end Graph

namespace Session

open Scoping.Graph

variable {config : Config} {reducer : Reducer} {loader : Loader} {s : Session} {g : Graph}

/-- The rooted path of a symbol of a unit or module finds it from everywhere in the unit, and is
told apart from a path to nothing even if the symbol is private and its scope is closed. -/
theorem lookupPath_symbolPath (hs : Reaches (startWith config reducer loader) s)
    (hg : s.Instant g) {q unit start : ScopeId} {ns : Namespace} {name : String} {c : SymbolId}
    (hroot : g.isRoot q = true) (hunit : g.unitOf? q = some unit)
    (hc : (g.scope q).table.get? ns name = some c)
    (hnames : ∀ n ∈ g.moduleNames q ++ [(g.symbol c).name], QualName.IsSegment n)
    (hstart : g.unitOf? start = some unit) :
    let answer := (g.lookupPath start (QualName.parse ("::" ++ g.symbolPath c)) (g.symbol c).ns).1
    (answer = .found c ∨ answer = .hidden c) ∧
      ((g.symbol c).flags.isPrivate = false ∨ (g.scope (g.owner q)).isActive = true →
        answer = .found c) := by
  have hsound := sound_of_reaches hs
  have hcoherent := hg.coherent hsound
  have hnested := hcoherent.nested
  have hdiscreet := hg.moment.discreet hs
  have hsecluded := hg.moment.secluded hs
  have hsuccession := hg.moment.succession hs
  have hinside : g.Inside q := by
    refine ⟨unit, outward_of_mem_enclosingWithin (List.mem_of_find?_eq_some hunit), ?_⟩
    simpa using List.find?_some hunit
  obtain ⟨-, rfl, rfl⟩ := hcoherent.entry hc
  have hitem : let item := g.itemIn (g.owner q) (g.symbol c).name (g.symbol c).ns
      (item = .found c ∨ item = .hidden c) ∧
        ((g.symbol c).flags.isPrivate = false ∨ (g.scope (g.owner q)).isActive = true →
          item = .found c) := by
    cases houter : (g.scope q).outer with
    | none => simp [itemIn, owner_of_outer_eq_none houter, hc]
    | some p =>
      have hinner := hnested.partitioned.inner_of_outer houter
      have hprivate := hsecluded.entry hc (by rw [houter]; exact Option.some_ne_none p)
      have hfree := (hsuccession.disjoint hcoherent hdiscreet hinner (g.symbol c).ns
        (g.symbol c).name).resolve_right fun hnone => by cases hc.symm.trans hnone
      simp only [itemIn, owner_of_outer_eq_some houter, hinner, hfree, Option.bind_some, hc,
        hprivate]
      split <;> simp_all
  have hanswer : (g.lookupPath start (QualName.parse ("::" ++ g.symbolPath c)) (g.symbol c).ns).1 =
      g.itemIn (g.owner q) (g.symbol c).name (g.symbol c).ns := by
    have hdescend := hnested.descend_moduleNames none (hg.orderly (orderly_of_reaches hs)).charted
      (List.cons_ne_nil (g.symbol c).name []) hroot
      (by rw [unitOf?, enclosing, hnested.partitioned.owner_owner]; exact hunit)
    rw [moduleNames_owner hnested.partitioned] at hdescend
    have hparse : QualName.parse ("::" ++ String.intercalate "::" _) = ⟨_, true⟩ :=
      QualName.parse_text (q := ⟨_, true⟩) hnames
    rw [symbolPath_eq hnested hroot (hcoherent.home hinside hc) fun n hn =>
      (hnames n (List.mem_append_left _ hn)).1, hparse]
    obtain ⟨others, hroots⟩ : ∃ others, g.pathRoots start true = unit :: others := by
      simp only [pathRoots, if_true, hstart, Option.toList_some]
      split
      · exact ⟨[], rfl⟩
      · exact ⟨[global], rfl⟩
    rw [lookupPath, if_neg (by simp), if_neg (by simp [QualName.isSingle]), hroots, resolveFirst,
      resolveFrom, hdescend]
    have hne : g.itemIn (g.owner q) (g.symbol c).name (g.symbol c).ns ≠ .notFound := by
      rcases hitem.1 with h | h <;> simp [h]
    simp only [descend]
    rw [Lookup.orElse_of_ne hne, Lookup.orElse_of_ne hne]
  rw [hanswer]
  exact hitem

/-- From the body of a function, the class two modules below the unit is found under its path, and
the private function of a closed module is hidden. -/
theorem lookupPath_symbolPath_secondUnit :
    ∃ σ g, Reaches (startWith {} (start {}).reducer (start {}).loader) σ ∧ σ.Instant g ∧
      g.symbolPath ⟨3⟩ = "m::n::C" ∧
      (g.lookupPath ⟨12⟩ (QualName.parse ("::" ++ g.symbolPath ⟨3⟩)) (g.symbol ⟨3⟩).ns).1 =
        .found ⟨3⟩ ∧
      (g.lookupPath ⟨12⟩ (QualName.parse "::m::h") .value).1 = .hidden ⟨2⟩ := by
  have hend : collectedAfter firstUnit secondUnit (fun g unit => decide (
      g.isRoot ⟨14⟩ = true ∧ g.unitOf? ⟨14⟩ = some unit ∧
      (g.scope ⟨14⟩).table.get? .type "C" = some ⟨3⟩ ∧
      (∀ n ∈ g.moduleNames ⟨14⟩ ++ [(g.symbol ⟨3⟩).name], QualName.IsSegment n) ∧
      g.unitOf? ⟨12⟩ = some unit ∧ (g.symbol ⟨3⟩).flags.isPrivate = false ∧
      g.symbolPath ⟨3⟩ = "m::n::C" ∧
      (g.lookupPath ⟨12⟩ (QualName.parse "::m::h") .value).1 = .hidden ⟨2⟩)) = true := by
    decide +kernel
  obtain ⟨σ, g, unit, hσ, hg, houtcome⟩ := exists_of_collectedAfter hend
  obtain ⟨hroot, hunit, hc, hnames, hstart, hpublic, hpath, hhidden⟩ := of_decide_eq_true houtcome
  exact ⟨σ, g, hσ, hg, hpath,
    (lookupPath_symbolPath hσ hg hroot hunit hc hnames hstart).2 (.inl hpublic), hhidden⟩

end Session

end Scoping
