import Scoping.Declaration.Symbols
import Scoping.Hierarchy.Hint

/-!
# Names survive being written

A name is written with `::` between its segments, and reading cuts the text at every `::`. The two
are inverse on names whose segments are not empty and have no colon (`QualName.parse_text`). So the
hint of a parameter, which is kept as a text, is looked up under the name that was written
(`Hierarchy.parse_text_resolveHint`).
-/

namespace Scoping

namespace QualName

/-- A name that a path can hold. -/
def IsSegment (name : String) : Prop := name ≠ "" ∧ ':' ∉ name.toList

instance : DecidablePred IsSegment := fun _ => inferInstanceAs (Decidable (_ ∧ _))

/-- What has no colon belongs to the first piece. -/
theorem cut_append {rest first : List Char} {others : List (List Char)}
    (h : cut rest = first :: others) : ∀ {piece : List Char}, ':' ∉ piece →
      cut (piece ++ rest) = (piece ++ first) :: others
  | [], _ => h
  | c :: piece, hcolon => by
    have hc : c ≠ ':' := fun heq => hcolon (heq ▸ List.mem_cons_self)
    have ih := cut_append h fun hmem => hcolon (List.mem_cons_of_mem c hmem)
    rw [List.cons_append, cut, ih]
    · rfl
    · rintro rest' rfl
      exact fun _ => hc rfl

theorem cut_intercalate : ∀ {names : List String}, names ≠ [] → (∀ n ∈ names, IsSegment n) →
    cut (String.intercalate "::" names).toList = names.map String.toList
  | [], hne, _ => absurd rfl hne
  | [name], _, h => by
    have hcut : cut (name.toList ++ []) = [name.toList ++ []] :=
      cut_append rfl (h name List.mem_cons_self).2
    simpa using hcut
  | name :: next :: rest, _, h => by
    have ih := cut_intercalate (List.cons_ne_nil next rest) fun n hn =>
      h n (List.mem_cons_of_mem name hn)
    have hmark : cut ("::".toList ++ (String.intercalate "::" (next :: rest)).toList) =
        [] :: (next :: rest).map String.toList := congrArg ([] :: ·) ih
    rw [String.intercalate_cons_cons, String.toList_append, String.toList_append, List.append_assoc,
      cut_append hmark (h name List.mem_cons_self).2, List.append_nil]
    rfl

/-- The pieces of a list of segments, without those that are empty. -/
theorem segments_of_cut {names : List String} (h : ∀ n ∈ names, IsSegment n) :
    ((cut (String.intercalate "::" names).toList).filter fun piece => !piece.isEmpty).map
      String.ofList = names := by
  by_cases hne : names = []
  · subst hne
    rfl
  rw [cut_intercalate hne h, List.filter_eq_self.mpr, List.map_map]
  · simp
  · intro piece hpiece
    obtain ⟨name, hname, rfl⟩ := List.mem_map.mp hpiece
    simpa using (h name hname).1

/-- No colon comes first unless the name is rooted. -/
theorem startsRooted_intercalate {names : List String} (h : ∀ n ∈ names, IsSegment n) :
    startsRooted (String.intercalate "::" names).toList = false := by
  cases names with
  | nil => rfl
  | cons name rest =>
    have hcut := cut_intercalate (List.cons_ne_nil name rest) h
    unfold startsRooted
    split
    next heq =>
      rw [heq, cut] at hcut
      have hempty := (List.cons.inj hcut).1.symm
      exact absurd (String.toList_eq_nil_iff.mp hempty) (h name List.mem_cons_self).1
    next => rfl

theorem parse_text {q : QualName} (h : ∀ n ∈ q.segments, IsSegment n) : parse q.text = q := by
  obtain ⟨names, rooted⟩ := q
  cases rooted with
  | false =>
    rw [text, if_neg Bool.false_ne_true, String.empty_append, parse, segments_of_cut h,
      startsRooted_intercalate h]
  | true =>
    have hcut : cut ("::" ++ String.intercalate "::" names).toList =
        [] :: cut (String.intercalate "::" names).toList := by
      rw [String.toList_append]
      rfl
    rw [text, if_pos rfl, parse, hcut, List.filter_cons_of_neg (by simp), segments_of_cut h,
      String.toList_append]
    rfl

end QualName

namespace Hierarchy

/-- The state in which the hint of a parameter has been looked up as `path`. -/
def hintFound (s : Analysis) (param : SymbolId) (path : QualName) : Lookup × Graph → Analysis
  | (.found target, graph) =>
    { s with
      graph := graph.modifyData param (·.mapVar fun v =>
        { v with hint := some (.named path.text (some target)) }) }
  | (.hidden _, graph) =>
    { s with
      graph
      log := s.log.problem (.hiddenHint path.text) (s.graph.symbol param).span }
  | (_, graph) =>
    { s with
      graph
      log := s.log.problem (.unknownHint path.text) (s.graph.symbol param).span }

/-- A name survives being written. So a hint is looked up under the name that was written, though
its declaration keeps it as a text. -/
theorem parse_text_resolveHint {path : QualName}
    (hpath : ∀ n ∈ path.segments, QualName.IsSegment n) :
    QualName.parse path.text = path ∧
      ∀ (decl : Param) (fallback : Span) (s : Analysis) (param : SymbolId) (scope : ScopeId),
        decl.hint = some (.named path) →
        (s.graph.symbol param).var?.bind (·.hint) = (decl.symbol fallback).var?.bind (·.hint) →
        resolveHint scope param s =
          .ok () (hintFound s param path (s.graph.lookupPath scope path .type)) := by
  have hparse := QualName.parse_text hpath
  refine ⟨hparse, fun decl fallback s param scope hhint hparam => ?_⟩
  have hkept : (s.graph.symbol param).var?.bind (·.hint) = some (.named path.text none) := by
    rw [hparam]
    simp [Param.symbol, Symbol.mkDetached, Symbol.var?, hhint, TypeHint.ofSyntax]
  have hread : ∀ k : Symbol → AnalysisM Unit,
      (Analysis.symbol param >>= k) s = k (s.graph.symbol param) s := fun _ => rfl
  have hlookup : ∀ k : Lookup → AnalysisM Unit,
      (Analysis.onGraph (·.lookupPath scope path .type) >>= k) s =
        k (s.graph.lookupPath scope path .type).1
          { s with graph := (s.graph.lookupPath scope path .type).2 } := fun _ => rfl
  rw [resolveHint, hread, hkept]
  dsimp only
  rw [hparse, hlookup]
  obtain ⟨answer, g⟩ := s.graph.lookupPath scope path .type
  cases answer <;> rfl

/-- The parameter `p : ::C`. -/
def rootedParam : Param := { name := "p", hint := some (.named ⟨["C"], true⟩) }

/-- A public class `C` and the parameter, which nobody has declared. -/
def rootedGraph : Graph :=
  let cls := Symbol.mkDetached "C" {} { isPublic := true } (.cls { members := Graph.global })
  (((Graph.initial.allocType Graph.global cls).2.declare Graph.global ⟨0⟩).2.alloc
    (rootedParam.symbol {})).2

theorem parse_text_resolveHint_rooted :
    ∃ s', resolveHint Graph.global ⟨1⟩ { graph := rootedGraph, tree := default } = .ok () s' ∧
      (s'.graph.symbol ⟨1⟩).var?.bind (·.hint) = some (.named "::C" (some ⟨0⟩)) :=
  ⟨_, (parse_text_resolveHint (by decide)).2 rootedParam {} _ ⟨1⟩ Graph.global rfl
    (by decide +kernel), by decide +kernel⟩

end Hierarchy

end Scoping
