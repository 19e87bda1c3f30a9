import Scoping.Proofs.Session.Run

/-!
# Private symbols in a session

The graph of a session is discreet at every moment, so that no search answers with a symbol that is
private to a unit, module or type while no walk is inside that scope, and none answers with such a
symbol after it has gone from a class to its superclass (`Session.found_accessible`).
-/

namespace Scoping

namespace Session

open Scoping.Graph

variable {config : Config} {reducer : Reducer} {loader : Loader} {s : Session} {g : Graph}

theorem Moment.discreet (hg : s.Moment g) (hs : Reaches (startWith config reducer loader) s) :
    g.Discreet :=
  hg.induction (founding_start config).discreet (fun hg hd h => h.discreet hg hd)
    (fun hg hd h => h.discreet hg hd) hs

/-- Whatever a search from a scope that is no partition finds is accessible: plain names, members,
paths and imports. -/
theorem found_accessible {start : ScopeId} (h : Reaches (startWith config reducer loader) s)
    (hg : s.Moment g)
    (hstart : (g.scope start).kind ≠ .inner) :
    (∀ name ns x crossed, g.Finds start name ns x crossed → g.Accessible x crossed) ∧
    (∀ name ns x, g.peek start name ns = .found x ∨ (g.lookup start name ns).1 = .found x →
      ∃ crossed, g.Finds start name ns x crossed) ∧
    (∀ name ns viaSuper x crossed, g.FindsMember start name ns viaSuper x crossed →
      g.Accessible x (viaSuper || crossed)) ∧
    (∀ name ns viaSuper x, g.lookupMember start name ns viaSuper = .found x →
      ∃ crossed, g.FindsMember start name ns viaSuper x crossed) ∧
    (∀ path ns x, (g.lookupPath start path ns).1 = .found x → g.Accessible x false) ∧
    ∀ link ns hops x, g.followImport link ns hops = .found x → g.Accessible x false := by
  have hsound := sound_of_reaches h
  have hd := hg.discreet h
  have hcoherent := hg.coherent hsound
  have houter := hcoherent.nested.outer_of_kind hstart
  refine ⟨fun name ns x crossed => hd.accessible_of_finds hcoherent houter,
    fun name ns x hx => ?_, fun name ns viaSuper x crossed hfinds => ?_,
    fun name ns viaSuper x => findsMember_of_searchMember _,
    fun path ns => (hd.answers_accessible hcoherent).lookupPath houter (fun _ _ => trivial) ns,
    fun link ns hops => (hd.answers_accessible hcoherent).followImport link ns hops⟩
  · rw [lookup_fst, or_self] at hx
    exact finds_of_search _ hx
  · have haccessible := hd.accessible_of_findsMember hcoherent houter hfinds
    cases viaSuper with
    | false => exact haccessible
    | true =>
      obtain ⟨p, hclimbs, -⟩ := hfinds
      rw [hclimbs.eq_true] at haccessible
      exact haccessible

/-! ### A private member, seen from inside and from outside -/

/-- A class with a private method. -/
def privateMember : Tree :=
  { file := "a.phs"
    nodes := #[{ kind := .block [] }, { kind := .fnDecl { name := some "m", body := some ⟨0⟩ } },
      { kind := .classDecl { name := "C", members := [⟨1⟩] } }, { kind := .unit [⟨2⟩] }]
    root := ⟨3⟩ }

/-- While a walk is inside the class, its private method is found there, and otherwise it is not. -/
theorem found_accessible_privateMember :
    ∃ reports s, (start {}).analyzeAll [privateMember] = .ok (reports, s) ∧
      s.graph.peek ⟨3⟩ "m" none = .hidden ⟨1⟩ ∧
      (s.graph.enter ⟨3⟩).peek ⟨3⟩ "m" none = .found ⟨1⟩ ∧
      (s.graph.enter ⟨3⟩).PrivateTo ⟨1⟩ ⟨3⟩ ∧ (s.graph.enter ⟨3⟩).Accessible ⟨1⟩ false := by
  have hend : endsWith [privateMember] (fun _ g => decide (g.peek ⟨3⟩ "m" none = .hidden ⟨1⟩ ∧
      (g.enter ⟨3⟩).peek ⟨3⟩ "m" none = .found ⟨1⟩ ∧
      ((g.enter ⟨3⟩).symbol ⟨1⟩).flags.isPrivate = true ∧
      ((g.enter ⟨3⟩).symbol ⟨1⟩).scope = some ⟨4⟩ ∧ (g.enter ⟨3⟩).owner ⟨4⟩ = ⟨3⟩ ∧
      ((g.enter ⟨3⟩).scope ⟨3⟩).kind = .member)) = true := by decide +kernel
  obtain ⟨reports, s, hs, hg⟩ := exists_of_endsWith hend
  obtain ⟨houtside, hinside, hprivate, hscope, howner, hkind⟩ := of_decide_eq_true hg
  have hreaches : Reaches (startWith {} Reduce.node (.counting [])) s := reaches_of_analyzeAll hs
  have henter : s.Moment (s.graph.enter ⟨3⟩) :=
    ⟨_, .single (.amendScope (.marks _ _ _ _)), .refl⟩
  have hstart : ((s.graph.enter ⟨3⟩).scope ⟨3⟩).kind ≠ .inner := by
    rw [hkind]
    decide
  obtain ⟨haccessible, hfinds, -⟩ := found_accessible hreaches henter hstart
  obtain ⟨crossed, hcrossed⟩ := hfinds "m" none ⟨1⟩ (.inl hinside)
  exact ⟨reports, s, hs, houtside, hinside,
    ⟨hprivate, ⟨⟨4⟩, hscope, howner⟩, by rw [hkind]; rfl⟩,
    (haccessible "m" none ⟨1⟩ crossed hcrossed).direct⟩

end Session

end Scoping
