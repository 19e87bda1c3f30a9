import Scoping.Directory
import Scoping.Report
import Scoping.Tree.Decode

/-!
# The command line

`check` reads syntax trees, analyses them in order in one session and prints a report. Everything
here is a function of the arguments and of the files, which come in through a function that reads
one.
-/

namespace Scoping.CommandLine

structure Options where
  files : List String := []
  config : Option String := none
  json : Bool := false
  dumpScopes : Bool := false
  verbosity : Nat := 0
deriving DecidableEq, Inhabited

/-- Sets the output format by name. -/
def Options.setFormat? (o : Options) : String → Option Options
  | "text" => some { o with json := false }
  | "json" => some { o with json := true }
  | _ => none

/-- The part of an argument after a given beginning. -/
def after? (beginning arg : String) : Option String :=
  if beginning.toList.isPrefixOf arg.toList then
    some (String.ofList (arg.toList.drop beginning.length))
  else none

/-- How often a bundle such as `-vv` asks for more output. -/
def verbosity? (arg : String) : Option Nat :=
  match arg.toList with
  | '-' :: 'v' :: rest => if rest.all (· == 'v') then some (rest.length + 1) else none
  | _ => none

/-- One argument that is an option with its value, a bundle or a file. A lone `-` is a file. -/
def readArg (o : Options) (arg : String) : Option Options :=
  match after? "--config=" arg, after? "--format=" arg, verbosity? arg with
  | some path, _, _ => some { o with config := some path }
  | _, some format, _ => o.setFormat? format
  | _, _, some n => some { o with verbosity := o.verbosity + n }
  | none, none, none =>
    if (after? "-" arg).any fun rest => !rest.isEmpty then none
    else some { o with files := o.files ++ [arg] }

/-- The arguments after the command. -/
def readArgs (o : Options) : List String → Option Options
  | [] => some o
  | "--" :: rest => some { o with files := o.files ++ rest }
  | "--config" :: path :: rest => readArgs { o with config := some path } rest
  | "--format" :: format :: rest => do readArgs (← o.setFormat? format) rest
  | "--dump-scopes" :: rest => readArgs { o with dumpScopes := true } rest
  | "--verbose" :: rest => readArgs { o with verbosity := o.verbosity + 1 } rest
  | arg :: rest => do readArgs (← readArg o arg) rest

/-- At least one file is needed, and no path is empty. -/
def Options.isComplete (o : Options) : Bool :=
  !o.files.isEmpty && (o.config.toList ++ o.files).all fun path => !path.isEmpty

/-- The options of a `check`. -/
def parse? : List String → Option Options
  | "check" :: rest => (readArgs {} rest).filter Options.isComplete
  | _ => none

def usage : String :=
  "usage: check [--config FILE] [--format text|json] [--dump-scopes] [-v] FILE..."

/-! ### Running -/

/-- Reads a file, or says why that is not possible. -/
abbrev ReadFile := String → Except ReadError String

/-- Why a run ends without a report. -/
inductive Failure where
  | unreadable (name : String) (error : ReadError)
  | config (refusal : Config.Refusal)
  | malformedTree (name : String)
  | invalidTree (name : String) (fault : Tree.Fault)
  | halted (halt : Halt)
deriving DecidableEq, Inhabited

/-- What is printed about a failure. A halt is a failure of the program itself. -/
def Failure.message? : Failure → Option String
  | unreadable name error => some s!"Failed to read {name}: {error.message}"
  | config refusal => some refusal.message
  | malformedTree name => some s!"{name}: invalid AST"
  | invalidTree name fault => some s!"{name}: {fault.message}"
  | halted _ => none

/-- What the process leaves behind. -/
structure Outcome where
  exit : Nat := 0
  output : String := ""
  error : Option String := none
deriving DecidableEq, Inhabited

def Failure.outcome : Failure → Outcome
  | halted _ => { exit := 101 }
  | failure => { exit := 1, error := failure.message? }

def readFile (read : ReadFile) (name : String) : Except Failure String :=
  match read name with
  | .ok text => .ok text
  | .error e => .error (.unreadable name e)

/-- The configuration file that is used if it is there and no other is named. -/
def defaultConfig : String := "phsc.toml"

def parseConfig (text : String) : Except Failure Config :=
  match Config.parse text with
  | .ok config => .ok config
  | .error refusal => .error (.config refusal)

def readConfig (read : ReadFile) : Option String → Except Failure Config
  | some name => do parseConfig (← readFile read name)
  | none =>
    match read defaultConfig with
    | .ok text => parseConfig text
    | .error .missing => .ok {}
    | .error e => .error (.unreadable defaultConfig e)

/-- Reads a valid tree. -/
def readTree (read : ReadFile) (name : String) : Except Failure Tree := do
  match Tree.parse? (← readFile read name) with
  | none => .error (.malformedTree name)
  | some tree =>
    match tree.validate with
    | .ok () => .ok tree
    | .error fault => .error (.invalidTree name fault)

/-- The state of a run between two files. -/
structure Progress where
  session : Session
  sources : SourceMap := {}
  reports : List FileReport := []

/-- Analyses one file. -/
def Progress.step (read : ReadFile) (p : Progress) (name : String) : Except Failure Progress := do
  let tree ← readTree read name
  let (file, sources) := p.sources.addFile tree.file (tree.source.getD "")
  match p.session.analyze (tree.setFile file) with
  | .ok (unit, _, session) =>
    .ok { session, sources, reports := p.reports ++ [{ file := tree.file, unit }] }
  | .error halt => .error (.halted halt)

/-- Analyses all files. -/
def analyze (read : ReadFile) (o : Options) : Except Failure Progress := do
  let config ← readConfig read o.config
  o.files.foldlM (Progress.step read) { session := Session.start config }

/-- What is printed at the end of a run. -/
def output (o : Options) (p : Progress) : String :=
  let reports :=
    if o.json then FileReport.jsonAll p.sources p.reports
    else FileReport.textAll p.sources p.reports
  if o.dumpScopes then reports ++ p.session.graph.dump ++ "\n" else reports

/-- Runs a `check`. The exit status says whether every unit may be used further. -/
def run (read : ReadFile) (o : Options) : Outcome :=
  match analyze read o with
  | .error failure => failure.outcome
  | .ok p =>
    { exit := if p.reports.all fun r => r.unit.canGenerate then 0 else 1
      output := output o p }

end Scoping.CommandLine
