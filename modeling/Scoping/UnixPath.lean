/-!
# Unix paths

A path is a text. It is read as a head, which is the root `/`, a leading `.` or nothing, followed
by pieces separated by `/`. Empty pieces and pieces `.` carry no meaning: two paths are the same
when their heads agree and their meaningful pieces do.
-/

namespace Scoping

/-- A path, as written. -/
structure UnixPath where
  text : String := ""
deriving DecidableEq, Inhabited

namespace UnixPath

/-- Where a path starts. -/
inductive Head where
  | root
  | here
  | bare
deriving DecidableEq

/-- Cuts a text at every `/`; the pieces joined by `/` give the text back. -/
def pieces : List Char → List (List Char)
  | [] => [[]]
  | c :: rest =>
    if c = '/' then [] :: pieces rest
    else
      match pieces rest with
      | [] => [[c]]
      | piece :: more => (c :: piece) :: more

/-- The pieces of a text, none for the empty text. -/
def piecesOrNone (text : List Char) : List (List Char) :=
  if text.isEmpty then [] else pieces text

/-- Head and pieces of a path. -/
def split (p : UnixPath) : Head × List (List Char) :=
  match p.text.toList with
  | '/' :: rest => (.root, piecesOrNone rest)
  | ['.'] => (.here, [])
  | '.' :: '/' :: rest => (.here, pieces rest)
  | text => (.bare, piecesOrNone text)

/-- Writes a head and pieces back as a path. -/
def unsplit : Head → List (List Char) → UnixPath
  | .root, body => ⟨String.ofList ('/' :: List.intercalate ['/'] body)⟩
  | .here, body => ⟨String.ofList ('.' :: body.flatMap ('/' :: ·))⟩
  | .bare, body => ⟨String.ofList (List.intercalate ['/'] body)⟩

/-- Empty pieces and `.` stand for the directory reached so far. -/
def isIdle (piece : List Char) : Bool := piece.isEmpty || piece == ['.']

/-- Head and meaningful pieces, by which paths are compared. -/
def components (p : UnixPath) : Head × List (List Char) :=
  (p.split.1, p.split.2.filter fun piece => !isIdle piece)

/-- Do two paths have the same components? -/
def same (p q : UnixPath) : Bool := p.components == q.components

/-- Drops the idle pieces at the end. -/
def trimEnd (body : List (List Char)) : List (List Char) :=
  (body.reverse.dropWhile isIdle).reverse

/-- The path without its last component; the root and the empty path have none. -/
def parent? (p : UnixPath) : Option UnixPath :=
  let (head, body) := p.split
  match (trimEnd body).reverse with
  | [] => if head = .here then some ⟨""⟩ else none
  | _ :: rest => some (unsplit head (trimEnd rest.reverse))

/-- The directory that a file lies in; empty for a bare file name. -/
def directory (p : UnixPath) : UnixPath := p.parent?.getD ⟨""⟩

/-- The last component, if it is a name. -/
def fileName? (p : UnixPath) : Option (List Char) :=
  match p.components.2.getLast? with
  | some name => if name = ['.', '.'] then none else some name
  | none => none

/-- What follows the last dot of the file name, unless that dot comes first. -/
def extension? (p : UnixPath) : Option String := do
  let name ← p.fileName?
  match name.reverse.dropWhile (· != '.') with
  | _ :: _ :: _ => some (String.ofList (name.reverse.takeWhile (· != '.')).reverse)
  | _ => none

/-- Is the path written from the root? -/
def isAbsolute (p : UnixPath) : Bool := p.text.toList.head? == some '/'

/-- `part` seen from `base`: an absolute part stands for itself, and a separator is supplied where
`base` does not end in one. -/
def join (base part : UnixPath) : UnixPath :=
  if part.isAbsolute then part
  else if base.text.isEmpty || base.text.toList.getLast? == some '/' then
    ⟨base.text ++ part.text⟩
  else ⟨base.text ++ "/" ++ part.text⟩

/-- The path with `.ext` written after it. -/
def addExtension (p : UnixPath) (ext : String) : UnixPath := ⟨p.text ++ "." ++ ext⟩

end UnixPath

end Scoping
