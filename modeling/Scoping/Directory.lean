import Scoping.UnixPath

/-!
# Files in a directory

A directory is a list of files with their paths and contents; the directories between it and its
files are those that the paths imply. `Directory.read` follows a path piece by piece. Of the
directories further up nothing is known but that they are there.
-/

namespace Scoping

/-- Why a file cannot be read. -/
inductive ReadError where
  | missing
  /-- The path goes on behind a file. -/
  | notDirectory
  | isDirectory
  | nameTooLong
  /-- The contents are not UTF-8. -/
  | notText
  | other (reason : String)
deriving DecidableEq, Inhabited

def ReadError.message : ReadError → String
  | missing => "No such file or directory (os error 2)"
  | notDirectory => "Not a directory (os error 20)"
  | isDirectory => "Is a directory (os error 21)"
  | nameTooLong => "File name too long (os error 36)"
  | notText => "stream did not contain valid UTF-8"
  | other reason => reason

/-- A file: the names on the way to it, and its contents. -/
structure DirectoryFile where
  path : List (List Char)
  content : String

structure Directory where
  files : List DirectoryFile := []

namespace Directory

/-- The directory with the given files, each under its path. -/
def ofList (files : List (String × String)) : Directory where
  files := files.map fun (name, content) => { path := (UnixPath.components ⟨name⟩).2, content }

/-- Where a path leads to. -/
inductive Place where
  | file (content : String)
  /-- The directory itself or one below it. -/
  | inside (path : List (List Char))
  /-- A directory further up. -/
  | outside

/-- What has a given path in the directory. Of two files with one path the later one counts. -/
def entry? (d : Directory) (path : List (List Char)) : Option Place :=
  match d.files.reverse.find? fun f => f.path == path with
  | some f => some (.file f.content)
  | none => if d.files.any fun f => path.isPrefixOf f.path then some (.inside path) else none

/-- Names have at most 255 bytes. -/
def isTooLong (name : List Char) : Bool := 255 < (String.ofList name).utf8ByteSize

/-- Follows one piece of a path. -/
def follow (d : Directory) (place : Place) (piece : List Char) : Except ReadError Place :=
  match place with
  | .file _ => .error .notDirectory
  | .inside path =>
    if UnixPath.isIdle piece then .ok place
    else if piece = ['.', '.'] then .ok (if path.isEmpty then .outside else .inside path.dropLast)
    else if isTooLong piece then .error .nameTooLong
    else
      match d.entry? (path ++ [piece]) with
      | some found => .ok found
      | none => .error .missing
  | .outside =>
    if UnixPath.isIdle piece || piece = ['.', '.'] then .ok .outside
    else if isTooLong piece then .error .nameTooLong
    else .error .missing

/-- Where a path leads to from the directory. Paths have less than 4096 bytes. -/
def locate (d : Directory) (name : String) : Except ReadError Place :=
  if name.isEmpty then .error .missing
  else if 4096 ≤ name.utf8ByteSize then .error .nameTooLong
  else
    let start := if UnixPath.isAbsolute ⟨name⟩ then .outside else .inside []
    (UnixPath.pieces name.toList).foldlM d.follow start

/-- Reads the file that a path leads to. -/
def read (d : Directory) (name : String) : Except ReadError String :=
  match d.locate name with
  | .ok (.file content) => .ok content
  | .ok _ => .error .isDirectory
  | .error e => .error e

end Directory

end Scoping
