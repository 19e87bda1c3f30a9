import Scoping.Diagnostic.Render
import Scoping.Json.Printer
import Scoping.Session

/-!
# Reports

The reports on all units of a run, for people and for programs.
-/

namespace Scoping

/-- The report on a unit, with the name of its file. -/
structure FileReport where
  file : String
  unit : UnitReport
deriving DecidableEq, Inhabited

namespace FileReport

/-- A tick for a unit without diagnostics, otherwise the diagnostics and how many there are. -/
def text (sources : SourceMap) (r : FileReport) : String :=
  if r.unit.diagnostics.isEmpty then s!"✓ {r.file}\n"
  else
    Diagnostic.renderAll true sources r.unit.diagnostics
      ++ s!"{r.file}: {r.unit.diagnostics.summary}\n"

/-- All reports for people. -/
def textAll (sources : SourceMap) (rs : List FileReport) : String :=
  String.join (rs.map (text sources))

/-! ### Reports for programs -/

open Json in
def labelJson (sources : SourceMap) (label : Label) : Json :=
  obj [("location", str (sources.describe label.span)), ("message", str label.message)]

open Json in
def diagnosticJson (sources : SourceMap) (d : Diagnostic) : Json :=
  obj
    [("code", ofOption str d.code),
      ("column", nat d.span.start.column),
      ("help", ofOption str d.help),
      ("line", nat d.span.start.line),
      ("location", str (sources.describe d.span)),
      ("message", str d.message),
      ("related", arr (d.labels.map (labelJson sources))),
      ("severity", str d.severity.word)]

open Json in
def requestJson (r : ImportRequest) : Json :=
  obj [("foreign", bool r.foreign), ("path", str r.path.text)]

open Json in
/-- The report on one unit; fields are in alphabetical order. -/
def toJson (sources : SourceMap) (r : FileReport) : Json :=
  obj
    [("aborted", bool r.unit.aborted),
      ("can_generate", bool r.unit.canGenerate),
      ("diagnostics", arr (r.unit.diagnostics.map (diagnosticJson sources))),
      ("file", str r.file),
      ("imports", arr (r.unit.requests.map requestJson))]

/-- All reports for programs. -/
def jsonAll (sources : SourceMap) (rs : List FileReport) : String :=
  (Json.obj [("units", .arr (rs.map (toJson sources)))]).pretty ++ "\n"

end FileReport

end Scoping
