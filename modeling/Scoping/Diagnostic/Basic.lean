import Scoping.Source.Span

/-!
# Diagnostics

A diagnostic has a severity, perhaps a code, a message, the place it is about and any number of
related places. Errors and aborts keep a unit from being used further.
-/

namespace Scoping

inductive Severity where
  /-- The analysis itself is at fault and stops. -/
  | abort
  | error
  | warning
  | info
deriving DecidableEq, Inhabited

namespace Severity

def isFatal : Severity → Bool
  | abort => true
  | error => true
  | _ => false

def all : List Severity := [abort, error, warning, info]

def word : Severity → String
  | abort => "abort"
  | error => "error"
  | warning => "warning"
  | info => "info"

def ofWord? (text : String) : Option Severity := all.find? fun s => s.word == text

end Severity

/-- A related place, such as an earlier declaration. -/
structure Label where
  span : Span
  message : String
deriving DecidableEq, Inhabited

structure Diagnostic where
  severity : Severity
  message : String
  span : Span
  code : Option String := none
  labels : List Label := []
  help : Option String := none
deriving DecidableEq, Inhabited

/-- Adds a related place; places without a position are left out. -/
def Diagnostic.addLabel (d : Diagnostic) (span : Span) (message : String) : Diagnostic :=
  if span.isSynthetic then d else { d with labels := d.labels ++ [⟨span, message⟩] }

/-- The diagnostics of one unit, in the order of report. -/
abbrev Diagnostics := List Diagnostic

namespace Diagnostics

/-- Errors and aborts. -/
def errors (ds : Diagnostics) : Diagnostics := ds.filter (·.severity.isFatal)

def warnings (ds : Diagnostics) : Diagnostics := ds.filter (·.severity == .warning)

def hasErrors (ds : Diagnostics) : Bool := ds.any (·.severity.isFatal)

def hasAborted (ds : Diagnostics) : Bool := ds.any (·.severity == .abort)

def withCode (ds : Diagnostics) (code : String) : Diagnostics := ds.filter (·.code == some code)

/-- A count with its noun. -/
def plural (n : Nat) (noun : String) : String :=
  if n = 1 then s!"{n} {noun}" else s!"{n} {noun}s"

/-- The number of errors and of warnings. -/
def summary (ds : Diagnostics) : String :=
  plural (errors ds).length "error" ++ ", " ++ plural (warnings ds).length "warning"

end Diagnostics

end Scoping
