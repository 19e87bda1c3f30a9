import Scoping.Config
import Scoping.Source.Span

/-!
# Requests for other sources

A unit can ask for another source by a path. `Import.resolve` says which file is meant, and a
`Loader` gives each requested file a number. Two requests for the same path are one request.
-/

namespace Scoping

structure ImportRequest where
  path : UnixPath
  /-- A source in the language of the backend. -/
  foreign : Bool
  span : Span
deriving DecidableEq, Inhabited

/-- A request with the node that made it and the number that it was given. -/
structure Inquiry where
  node : NodeId
  request : ImportRequest
  handle : SourceHandle
deriving DecidableEq, Inhabited

namespace Import

/-- Backslashes count as slashes. -/
def normalize (raw : String) : List Char := raw.toList.map fun c => if c = '\\' then '/' else c

/-- Where a request points before an extension is added: a path with a leading separator is taken
from the import root, any other from the directory of the unit. -/
def base (config : Config) (directory : UnixPath) (raw : String) : UnixPath :=
  match normalize raw with
  | '/' :: rest => config.importRoot.join ⟨String.ofList rest⟩
  | text => directory.join ⟨String.ofList text⟩

/-- The file that a request means. An extension is added unless the path has one of the two that
are configured. -/
def resolve (config : Config) (directory : UnixPath) (foreign : Bool) (raw : String) : UnixPath :=
  let path := base config directory raw
  let known := path.extension?.any fun ext =>
    ext == config.extension || ext == config.foreignExtension
  if known then path
  else path.addExtension (if foreign then config.foreignExtension else config.extension)

/-- Adds a request unless its path is already in the list. -/
def note (requests : List ImportRequest) (r : ImportRequest) : List ImportRequest :=
  if requests.any (·.path.same r.path) then requests else requests ++ [r]

end Import

/-- Gives numbers to requested sources. -/
inductive Loader where
  /-- Counts up, with one number for each path. -/
  | counting (requests : List ImportRequest)
  /-- Answers every request with the same number. -/
  | fixed (handle : SourceHandle)
deriving Inhabited

namespace Loader

/-- The number of a request and the loader after it. -/
def register : Loader → ImportRequest → SourceHandle × Loader
  | counting requests, r =>
    (⟨requests.findIdx (·.path.same r.path)⟩, counting (Import.note requests r))
  | fixed handle, _ => (handle, fixed handle)

end Loader

end Scoping
