import Scoping.Graph.Declare
import Scoping.Graph.Module

/-!
# Exporting a unit

When a unit is done, the entries of its own table and of its modules become entries of the global
scope and of global modules of the same names, for later units to see. Names that are taken stay
with their first owner and are reported as conflicts. Symbols keep their scopes, and private
partitions are not published.
-/

namespace Scoping

/-- A name that two units export. -/
structure ExportConflict where
  symbol : SymbolId
  existing : SymbolId
  reason : RejectReason
deriving DecidableEq, Inhabited

namespace Graph

/-- Why a name that is taken cannot be exported again. -/
def exportReason (old : Symbol) : RejectReason :=
  if old.managed then .managed
  else if old.flags.isFinal then .final
  else if old.flags.isConst then .const
  else .duplicate

/-- The entries of the own table of a scope that are published. -/
def publicEntries (g : Graph) (id : ScopeId) : List (Namespace × String × SymbolId) :=
  [Namespace.value, .type, .imported].flatMap fun ns =>
    ((g.scope id).table.space ns).entries.map fun entry => (ns, entry)

/-- Publishes one entry. -/
def exportEntry (dst : ScopeId) (acc : List ExportConflict × Graph)
    (entry : Namespace × String × SymbolId) : List ExportConflict × Graph :=
  let (conflicts, g) := acc
  let (ns, name, symbol) := entry
  match (g.scope dst).table.get? ns name with
  | none =>
    (conflicts, g.modifyScope dst fun s => { s with table := s.table.insert ns name symbol })
  | some existing =>
    if existing = symbol then (conflicts, g)
    else (conflicts ++ [⟨symbol, existing, exportReason (g.symbol existing)⟩], g)

/-- Publishes the own table of `src` in `dst`. -/
def exportTable (acc : List ExportConflict × Graph) (src dst : ScopeId) :
    List ExportConflict × Graph :=
  (acc.2.publicEntries src).foldl (exportEntry dst) acc

/-- Publishes one module, and remembers the pair for its own modules. -/
def exportModule (dst : ScopeId)
    (acc : List (ScopeId × ScopeId) × List ExportConflict × Graph) (entry : String × ScopeId) :
    List (ScopeId × ScopeId) × List ExportConflict × Graph :=
  let (pairs, conflicts, g) := acc
  let (target, g) := g.subModule dst entry.1
  ((entry.2, target) :: pairs, exportTable (conflicts, g) entry.2 target)

/-- Publishes the modules inside `src` in `dst`, level by level, the last module first. -/
def exportModules : Nat → List ExportConflict × Graph → ScopeId × ScopeId →
    List ExportConflict × Graph
  | 0, acc, _ => acc
  | fuel + 1, acc, (src, dst) =>
    let (pairs, acc) :=
      (acc.2.scope src).modules.entries.foldl (exportModule dst) ([], acc)
    pairs.foldl (exportModules fuel) acc

/-- Publishes a unit. Modules nest no deeper than there are scopes. -/
def exportUnit (g : Graph) (unit : ScopeId) : List ExportConflict × Graph :=
  exportModules g.scopes.size (exportTable ([], g) unit global) (unit, global)

end Graph

end Scoping
