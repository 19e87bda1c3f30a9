import Scoping.Toml.Reader
import Scoping.UnixPath

/-!
# Session configuration

A session is configured by a short TOML document with the sections `session`, `imports` and `log`.
Every setting has a default. A document that is not TOML, or whose settings have the wrong types, is
refused as a whole; extensions and the log level are checked in addition.
-/

namespace Scoping

inductive LogLevel where
  | off
  | error
  | warn
  | info
  | debug
  | trace
deriving DecidableEq, Inhabited

namespace LogLevel

/-- The level that a name stands for, in whatever case. -/
def ofName? (name : String) : Option LogLevel :=
  match String.ofList (name.toList.map Char.toLower) with
  | "off" => some off
  | "error" => some error
  | "warn" => some warn
  | "warning" => some warn
  | "info" => some info
  | "debug" => some debug
  | "trace" => some trace
  | _ => none

def text : LogLevel → String
  | off => "OFF"
  | error => "ERROR"
  | warn => "WARN"
  | info => "INFO"
  | debug => "DEBUG"
  | trace => "TRACE"

end LogLevel

structure Config where
  /-- The class that classes without a superclass extend. -/
  rootObject : Option String := none
  /-- Functions that the session supplies. -/
  intrinsics : List String := []
  /-- Where requests with an absolute path are looked for. -/
  importRoot : UnixPath := {}
  extension : String := "phs"
  foreignExtension : String := "php"
  logLevel : String := "warn"
deriving DecidableEq, Inhabited

namespace Config

/-- Why a configuration is refused. -/
inductive Refusal where
  /-- Not a document of the expected shape. -/
  | malformed
  | badExtension (ext : String)
  | unknownLevel (name : String)
deriving DecidableEq, Inhabited

def Refusal.message : Refusal → String
  | malformed => "Failed to parse phsc.toml"
  | badExtension ext => s!"Invalid source extension '{ext}'"
  | unknownLevel name => s!"Unknown log level '{name}'"

/-! ### Sections -/

def str? : Toml → Option String
  | .str s => some s
  | _ => none

def strs? : Toml → Option (List String)
  | .arr items => items.mapM str?
  | _ => none

/-- An optional string setting. -/
def setting? (t : Toml.Table) (name : String) : Option (Option String) :=
  match t.find? name with
  | none => some none
  | some v => (str? v).map some

/-- The settings of a section as written, each of them optional. -/
structure Settings where
  rootObject : Option String := none
  intrinsics : List String := []
  importRoot : Option String := none
  extension : Option String := none
  foreignExtension : Option String := none
  level : Option String := none

/-- The contents of a section: a table, or the values of its settings in order. A date makes a
section without settings. -/
inductive Contents where
  | named (t : Toml.Table)
  | listed (values : List Toml)

def contents? : Toml → Option Contents
  | .table t => some (.named t)
  | .inline t => some (.named t)
  | .arr items => some (.listed items)
  | .tables items => some (.listed (items.map .table))
  | .moment => some (.named {})
  | .str _ => none
  | .scalar => none

def readSession (s : Settings) : Contents → Option Settings
  | .named t => do
    let rootObject ← setting? t "root-object"
    let intrinsics ← match t.find? "intrinsics" with
      | none => some []
      | some v => strs? v
    some { s with rootObject, intrinsics }
  | .listed (root :: rest) => do
    let rootObject ← str? root
    let intrinsics ← match rest with
      | [] => some []
      | v :: _ => strs? v
    some { s with rootObject := some rootObject, intrinsics }
  | .listed [] => none

def readImports (s : Settings) : Contents → Option Settings
  | .named t => do
    let importRoot ← setting? t "root"
    let extension ← setting? t "extension"
    let foreignExtension ← setting? t "foreign-extension"
    some { s with importRoot, extension, foreignExtension }
  | .listed (root :: ext :: foreign :: _) => do
    let root ← str? root
    let ext ← str? ext
    let foreign ← str? foreign
    some { s with importRoot := some root, extension := some ext, foreignExtension := some foreign }
  | .listed _ => none

def readLog (s : Settings) : Contents → Option Settings
  | .named t => do
    let level ← setting? t "level"
    some { s with level }
  | .listed (level :: _) => do
    let level ← str? level
    some { s with level := some level }
  | .listed [] => none

/-- Adds one section; there are no others than the three. -/
def readSection (s : Settings) (entry : String × Toml) : Option Settings := do
  let contents ← contents? entry.2
  match entry.1 with
  | "session" => readSession s contents
  | "imports" => readImports s contents
  | "log" => readLog s contents
  | _ => none

/-! ### Checks -/

/-- An extension without its leading dots; it must not be empty or hold a separator. -/
def checkExtension (ext : String) : Except Refusal String :=
  let bare := ext.toList.dropWhile (· == '.')
  if bare.isEmpty || bare.contains '/' || bare.contains '\\' then
    .error (.badExtension (String.ofList bare))
  else .ok (String.ofList bare)

/-- The configuration that checked settings stand for. -/
def ofSettings (s : Settings) : Except Refusal Config := do
  let c : Config := {}
  let extension ← match s.extension with
    | some ext => checkExtension ext
    | none => pure c.extension
  let foreignExtension ← match s.foreignExtension with
    | some ext => checkExtension ext
    | none => pure c.foreignExtension
  let logLevel ← match s.level with
    | some level =>
      if (LogLevel.ofName? level).isSome then pure level else throw (.unknownLevel level)
    | none => pure c.logLevel
  pure
    { rootObject := s.rootObject.filter fun name => !name.isEmpty
      intrinsics := s.intrinsics
      importRoot := ⟨s.importRoot.getD ""⟩
      extension
      foreignExtension
      logLevel }

/-- Reads a configuration. -/
def parse (text : String) : Except Refusal Config :=
  match (Toml.parse? text).bind fun root => root.fields.foldlM readSection {} with
  | none => .error .malformed
  | some settings => ofSettings settings

end Config

end Scoping
