import Scoping.Analysis
import Scoping.Graph.Path

/-!
# Type hints of parameters

The named type hints of a function are looked up once, and a hint that was found keeps its target.
-/

namespace Scoping.Hierarchy

open Analysis

/-- Looks up the named hint of a parameter. -/
def resolveHint (scope : ScopeId) (param : SymbolId) : AnalysisM Unit := do
  let symbol ← symbol param
  match symbol.var?.bind (·.hint) with
  | some (.named path none) =>
    match ← onGraph (·.lookupPath scope (QualName.parse path) .type) with
    | .found target =>
      modifyGraph (·.modifyData param (·.mapVar fun v =>
        { v with hint := some (.named path (some target)) }))
    | .hidden _ => report symbol.span (.hiddenHint path)
    | _ => report symbol.span (.unknownHint path)
  | _ => pure ()

/-- Looks up the named hints of a function, as seen from a scope. -/
def resolveHints (scope : ScopeId) (function : SymbolId) : AnalysisM Unit := do
  match (← symbol function).fn? with
  | some data => data.params.forM (resolveHint scope)
  | none => pure ()

end Scoping.Hierarchy
