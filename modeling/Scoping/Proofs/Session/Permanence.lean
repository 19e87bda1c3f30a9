import Scoping.Proofs.Session.Course
import Scoping.Proofs.Session.Dropped

/-!
# What a session declares stays

Once a table holds a symbol under a key, it holds some symbol under that key, at the same position
in the order of declarations, for the rest of the session. The symbol changes only if it is a
forward declaration, by one that completes it with the same flags; a complete declaration is never
removed, moved or overwritten. So it is from one move to the next, and over any number of them
(`Session.entry_permanent`).
-/

namespace Scoping

namespace Session

open Scoping.Graph

/-- Entries of tables are permanent: `g` is any graph that a session goes through, `g'` any graph that
comes after it, and `g₁` any that comes next. -/
theorem entry_permanent {config : Config} {g g' : Graph} (hg : Visits config g)
    (hlater : Moves g g') {q : ScopeId} {ns : Namespace} {i : Nat} {name : String} {x : SymbolId}
    (hx : ((g.scope q).table.space ns).entries[i]? = some (name, x)) :
    (∃ x', ((g'.scope q).table.space ns).entries[i]? = some (name, x') ∧
      (x' = x ∨ g.Succeeds g' q ns name x x') ∧
      ((g.symbol x).flags.isIncomplete = false → x' = x)) ∧
    ∀ g₁, Move g g₁ → ∃ x', ((g₁.scope q).table.space ns).entries[i]? = some (name, x') ∧
      (x' = x ∨ g.Completes g₁ x x') := by
  have hcoherent := hg.coherent
  obtain ⟨hkey, hget⟩ := (NameMap.getElem?_entries_iff (hcoherent.functional q ns)).mp hx
  have hentry : ∀ {g₁ : Graph} {x' : SymbolId}, Moves g g₁ →
      (g₁.scope q).table.get? ns name = some x' →
      ((g₁.scope q).table.space ns).entries[i]? = some (name, x') := by
    intro g₁ x' hmoves hx'
    obtain ⟨rest, hrest⟩ := hmoves.keys_prefix hcoherent q ns
    obtain ⟨hlt, -⟩ := List.getElem?_eq_some_iff.mp hkey
    refine (NameMap.getElem?_entries_iff ((hcoherent.moves hmoves).functional q ns)).mpr ⟨?_, hx'⟩
    rw [← hrest, List.getElem?_append_left hlt, hkey]
  constructor
  · obtain ⟨x', hx', hcases⟩ := hlater.held hcoherent hget
    refine ⟨x', hentry hlater hx', hcases.imp And.left And.left, fun hcomplete => ?_⟩
    rcases hcases with ⟨rfl, -⟩ | ⟨-, hincomplete, -⟩
    · rfl
    · rw [hcomplete] at hincomplete
      cases hincomplete
  · intro g₁ hmove
    obtain ⟨x', hx', hcases⟩ := (hmove.preserves hcoherent).held hget
    exact ⟨x', hentry (.single hmove) hx', hcases⟩

/-! ### A declaration that a later unit completes -/

/-- Do both units come to an end, with the given graphs after the first and after the second? -/
def endsTwice (t t' : Tree) (outcome : Graph → Graph → Bool) : Bool :=
  match (start {}).analyze t with
  | .ok (_, _, s) =>
    match s.analyze t' with
    | .ok (_, _, s') => outcome s.graph s'.graph
    | .error _ => false
  | .error _ => false

theorem exists_of_endsTwice {t t' : Tree} {outcome : Graph → Graph → Bool}
    (h : endsTwice t t' outcome = true) :
    ∃ s s', Next (start {}) s ∧ Next s s' ∧ outcome s.graph s'.graph = true := by
  unfold endsTwice at h
  split at h
  next report t₁ s hs =>
    split at h
    next report' t₂ s' hs' => exact ⟨s, s', ⟨t, report, t₁, hs⟩, ⟨t', report', t₂, hs'⟩, h⟩
    next => cases h
  next => cases h

/-- The first entry of the first unit is a forward declaration, and the second unit completes it. -/
theorem entry_permanent_completedLater :
    ∃ s s', Next (start {}) s ∧ Next s s' ∧
      ((s.graph.scope ⟨1⟩).table.space .value).entries[0]? = some ("f", ⟨0⟩) ∧
      (s.graph.symbol ⟨0⟩).flags.isIncomplete = true ∧
      ((s'.graph.scope ⟨1⟩).table.space .value).entries[0]? = some ("f", ⟨1⟩) ∧
      s.graph.Succeeds s'.graph ⟨1⟩ .value "f" ⟨0⟩ ⟨1⟩ := by
  have hend : endsTwice declaredHere completedLater (fun g g' =>
      decide (((g.scope ⟨1⟩).table.space .value).entries[0]? = some ("f", ⟨0⟩) ∧
        (g.symbol ⟨0⟩).flags.isIncomplete = true ∧
        ((g'.scope ⟨1⟩).table.space .value).entries[0]? = some ("f", ⟨1⟩))) = true := by
    decide +kernel
  obtain ⟨s, s', hs, hs', hg⟩ := exists_of_endsTwice hend
  obtain ⟨hfirst, hincomplete, hsecond⟩ := of_decide_eq_true hg
  have hreaches : Reaches (startWith {} (start {}).reducer (start {}).loader) s := .single hs
  obtain ⟨⟨x', hx', hcases, -⟩, -⟩ := entry_permanent (.going hreaches (moment_graph s))
    (hs'.moves (sound_of_reaches hreaches)) hfirst
  rw [hsecond] at hx'
  cases hx'
  exact ⟨s, s', hs, hs', hfirst, hincomplete, hsecond,
    hcases.resolve_left (fun h => absurd (congrArg SymbolId.index h) (by decide))⟩

end Session

end Scoping
