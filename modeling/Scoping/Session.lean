import Scoping.Graph.Export
import Scoping.Reference.Walk

/-!
# Sessions

A session analyses units one after the other in one scope graph. Each unit is declared, resolved and
then published for the units after it. A session may supply a root object, which every class without
a superclass extends, and intrinsic functions; their names cannot be declared by any unit.
-/

namespace Scoping

namespace Analysis

/-- Obeys on unless the analysis itself has failed. -/
def unlessAborted (x : AnalysisM Unit) : AnalysisM Unit := do
  if (← get).log.aborted then pure () else x

/-- Publishes a unit and reports the names that were taken. -/
def publish (unit : ScopeId) : AnalysisM Unit := do
  let conflicts ← onGraph (·.exportUnit unit)
  conflicts.forM fun c => reportRejection c.symbol c.reason c.existing

/-- Everything that is done to a unit, with a given way to resolve it. -/
def passesWith (resolve : AnalysisM Unit) : AnalysisM ScopeId := do
  let unit ← Declaration.unit
  unlessAborted resolve
  unlessAborted Reference.bindLate
  unlessAborted (publish unit)
  return unit

/-- Everything that is done to a unit. -/
def passes (env : Environment) : AnalysisM ScopeId := passesWith (Reference.unit env)

end Analysis

/-- What the analysis of a unit has found. -/
structure UnitReport where
  /-- The scope of the unit; none for a tree that is not valid. -/
  scope : Option ScopeId
  diagnostics : Diagnostics
  requests : List ImportRequest
  aborted : Bool
deriving DecidableEq, Inhabited

/-- May the unit be used further? -/
def UnitReport.canGenerate (r : UnitReport) : Bool := !r.aborted && !r.diagnostics.hasErrors

/-- Counts over all units of a session. -/
structure Stats where
  units : Nat := 0
  warnings : Nat := 0
  errors : Nat := 0
deriving DecidableEq, Inhabited

structure Session where
  config : Config := {}
  graph : Graph := .initial
  rootObject : Option SymbolId := none
  reducer : Reducer := Reduce.node
  loader : Loader := .counting []
  stats : Stats := {}

namespace Session

/-! ### Starting -/

/-- Supplies the root object. Without a live declaration there is none. -/
def addRootObject (g : Graph) (name : String) : Option SymbolId × Graph :=
  let symbol := Symbol.mkDetached name {} { isPublic := true } <| .cls
    { members := Graph.global, resolution := .resolved }
  let ((id, members), g) := g.allocType Graph.global symbol
  let g := g.modifyScope members fun s => { s with name := some name }
  let (decision, g) := g.declareManaged Graph.global id .type
  (if decision.isLive then some id else none, g)

/-- Supplies a function. A name that is supplied twice stays with the first. -/
def addIntrinsic (g : Graph) (name : String) : Graph :=
  let (id, g) := g.alloc (Symbol.mkDetached name {} { isPublic := true } (.fn { hasBody := true }))
  (g.declareManaged Graph.global id .internal).2

/-- A new session. -/
def start (config : Config) : Session :=
  let (rootObject, graph) :=
    match config.rootObject with
    | some name => addRootObject .initial name
    | none => (none, .initial)
  { config, rootObject, graph := config.intrinsics.foldl addIntrinsic graph }

def environment (s : Session) : Environment :=
  { config := s.config, rootObject := s.rootObject, reducer := s.reducer }

/-! ### Units -/

/-- Counts a unit. -/
def count (s : Session) (r : UnitReport) : Session :=
  { s with
    stats :=
      { units := s.stats.units + 1
        warnings := s.stats.warnings + r.diagnostics.warnings.length
        errors := s.stats.errors + r.diagnostics.errors.length } }

/-- The report on an analysis. -/
def report (scope : Option ScopeId) (log : Log) (requests : List ImportRequest) : UnitReport :=
  { scope, diagnostics := log.diagnostics, requests, aborted := log.aborted }

/-- The state in which the analysis of a unit starts. -/
def opening (s : Session) (t : Tree) : Analysis :=
  { graph := s.graph, tree := t, loader := s.loader }

/-- The session after the analysis of a unit. -/
def resume (s : Session) (a : Analysis) : Session := { s with graph := a.graph, loader := a.loader }

/-- Analyses a unit. Gives the report, the annotated tree and the session for the next unit. -/
def analyze (s : Session) (t : Tree) : Except Halt (UnitReport × Tree × Session) :=
  match t.validate with
  | .error fault =>
    let r := report none (({} : Log).abort {} fault.message) []
    .ok (r, t, s.count r)
  | .ok () =>
    match (Analysis.passes s.environment).run (s.opening t) with
    | .ok scope a =>
      let r := report (some scope) a.log a.requests
      .ok (r, a.tree, (s.resume a).count r)
    | .error halt _ => .error halt

end Session

end Scoping
