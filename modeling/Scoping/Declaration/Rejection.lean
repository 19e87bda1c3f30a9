import Scoping.Analysis
import Scoping.Graph.Declare
import Scoping.Graph.Dump

/-!
# Reports of refused declarations

A declaration that the graph refuses is reported with the declaration that stands in its way.
-/

namespace Scoping

namespace Problem

/-- The problem behind a refusal. -/
def ofRejection (g : Graph) (symbol : SymbolId) (reason : RejectReason) (existing : SymbolId) :
    Problem :=
  let new := g.symbol symbol
  let old := g.symbol existing
  match reason with
  | .managed => redeclaredIntrinsic new.name
  | .kindMismatch => otherKind new.name old.kind new.kind
  | .flagMismatch =>
    otherModifiers new.name { old.flags with isIncomplete := false } new.flags
  | .final => redeclaredFinal (g.symbolPath existing)
  | .const => redeclaredConst new.name
  | .duplicate => duplicate new.text

end Problem

/-- Reports a refusal at the new declaration. -/
def Log.rejection (log : Log) (g : Graph) (symbol : SymbolId) (reason : RejectReason)
    (existing : SymbolId) : Log :=
  log.problemWithPrevious (.ofRejection g symbol reason existing) (g.symbol symbol).span
    (g.symbol existing).span "previous declaration was here"

namespace Analysis

def reportRejection (symbol : SymbolId) (reason : RejectReason) (existing : SymbolId) :
    AnalysisM Unit :=
  modify fun s => { s with log := s.log.rejection s.graph symbol reason existing }

/-- Declares a symbol and reports a refusal. -/
def declare (scope : ScopeId) (symbol : SymbolId) : AnalysisM Decision := do
  let decision ← onGraph (·.declare scope symbol)
  match decision with
  | .reject reason existing => reportRejection symbol reason existing
  | _ => pure ()
  return decision

end Analysis

end Scoping
