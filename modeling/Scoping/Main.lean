import Scoping.CommandLine

/-!
# The program

Reads the files that the arguments name, runs the command, and prints what it leaves behind.
-/

namespace Scoping

/-- The number of a system error, which may come with a minus sign. -/
def errorNumber (code : UInt32) : Nat :=
  if code.toNat < Nat.pow 2 31 then code.toNat else Nat.pow 2 32 - code.toNat

/-- Why the operating system does not give a file. -/
def readError (e : IO.Error) : ReadError :=
  match e with
  | .noFileOrDirectory .. => .missing
  | .inappropriateType _ code _ =>
    if errorNumber code = 20 then .notDirectory
    else if errorNumber code = 21 then .isDirectory
    else .other (toString e)
  | _ => .other (toString e)

/-- Reads a file. -/
def readFromDisk (name : String) : IO (Except ReadError String) := do
  try
    match String.fromUTF8? (← IO.FS.readBinFile name) with
    | some text => return .ok text
    | none => return .error .notText
  catch e => return .error (readError e)

/-- Reads every file that a run may ask for. -/
def readAll (names : List String) : IO CommandLine.ReadFile := do
  let files ← names.mapM fun name => return (name, ← readFromDisk name)
  return fun name => (files.lookup name).getD (.error .missing)

/-- Runs a command and gives its exit status. -/
def runCommand (args : List String) : IO UInt32 := do
  match CommandLine.parse? args with
  | none =>
    IO.eprintln CommandLine.usage
    return 2
  | some options =>
    let read ← readAll (CommandLine.defaultConfig :: options.config.toList ++ options.files)
    let outcome := CommandLine.run read options
    IO.print outcome.output
    match outcome.error with
    | some message => IO.eprintln s!"Error: {message}"
    | none => pure ()
    return outcome.exit.toUInt32

end Scoping

def main (args : List String) : IO UInt32 := Scoping.runCommand args
