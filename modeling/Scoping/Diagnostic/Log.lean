import Scoping.Diagnostic.Basic
import Scoping.Diagnostic.Code

/-!
# The log of a unit

Errors never stop the analysis of a unit: they are written to a log, and the analysis carries on. An
abort is latched, and the session stops between two passes.
-/

namespace Scoping

structure Log where
  diagnostics : Diagnostics := []
  aborted : Bool := false
deriving DecidableEq, Inhabited

namespace Log

def push (log : Log) (d : Diagnostic) : Log := { log with diagnostics := log.diagnostics ++ [d] }

/-- The diagnostic of an error, with its code and the help that goes with it. -/
def errorDiagnostic (kind : ErrorKind) (span : Span) (message : String) : Diagnostic where
  severity := .error
  message := message
  span := span
  code := some (ErrorCode.format kind.code)
  help := (ErrorCode.find? kind.code).map (·.help)

def error (log : Log) (kind : ErrorKind) (span : Span) (message : String) : Log :=
  log.push (errorDiagnostic kind span message)

/-- An error that points to an earlier declaration as well. -/
def errorWithPrevious (log : Log) (kind : ErrorKind) (span : Span) (message : String)
    (previous : Span) (note : String) : Log :=
  log.push ((errorDiagnostic kind span message).addLabel previous note)

def warn (log : Log) (span : Span) (message : String) : Log :=
  log.push { severity := .warning, message, span }

def info (log : Log) (span : Span) (message : String) : Log :=
  log.push { severity := .info, message, span }

/-- Records a failure of the analysis itself. -/
def abort (log : Log) (span : Span) (message : String) : Log :=
  let log := log.push
    { severity := .abort
      message
      span
      code := some (ErrorCode.format ErrorKind.engineAbort.code) }
  { log with aborted := true }

/-- How many diagnostics carry the code of an error. -/
def count (log : Log) (kind : ErrorKind) : Nat :=
  (log.diagnostics.withCode (ErrorCode.format kind.code)).length

end Log

end Scoping
