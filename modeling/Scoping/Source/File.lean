import Scoping.Source.Span
import Scoping.UnixPath

/-!
# Source files

A source file knows where its lines start, counted in bytes. `SourceFile.lineColumn` turns a byte
offset into a line and a column, and `SourceFile.line?` gives the text of a line without its line
end. A `SourceMap` numbers files in the order in which they are added.
-/

namespace Scoping

structure SourceFile where
  name : String
  content : String
deriving DecidableEq, Inhabited

/-- Byte offsets after each newline of a text that starts at `offset`. -/
def newlineEnds (offset : Nat) : List Char → List Nat
  | [] => []
  | c :: rest =>
    let next := offset + c.utf8Size
    if c = '\n' then next :: newlineEnds next rest else newlineEnds next rest

/-- Cuts a text after `n` bytes, which must not be inside a character or beyond the end. -/
def splitBytes? : Nat → List Char → Option (List Char × List Char)
  | 0, text => some ([], text)
  | _ + 1, [] => none
  | n + 1, c :: rest =>
    if c.utf8Size ≤ n + 1 then
      (splitBytes? (n + 1 - c.utf8Size) rest).map fun (first, last) => (c :: first, last)
    else none

/-- The text between two byte offsets. -/
def slice? (text : List Char) (start stop : Nat) : Option (List Char) :=
  if start ≤ stop then
    (splitBytes? start text).bind fun (_, rest) => (splitBytes? (stop - start) rest).map Prod.fst
  else none

/-- The index of a number among increasing ones, or else the index that it would have. -/
def binarySearch (numbers : List Nat) (x : Nat) : Except Nat Nat :=
  let i := numbers.countP (· < x)
  if x ∈ numbers then .ok i else .error i

/-- How many numbers a machine word holds: sums of offsets are taken modulo it. -/
def wordSize : Nat := Nat.pow 2 64

namespace SourceFile

/-- Byte offsets at which lines start. -/
def lineStarts (f : SourceFile) : List Nat := 0 :: newlineEnds 0 f.content.toList

/-- Byte offsets at which a line, counted from one, starts and ends. -/
def lineBounds? (f : SourceFile) : Nat → Option (Nat × Nat)
  | 0 => none
  | k + 1 => f.lineStarts[k]?.map fun start =>
    (start, f.lineStarts[k + 1]?.getD f.content.utf8ByteSize)

/-- The text of a line without the newlines and carriage returns at its end. -/
def line? (f : SourceFile) (number : Nat) : Option String :=
  (f.lineBounds? number).bind fun (start, stop) =>
    (slice? f.content.toList start stop).map fun line =>
      String.ofList (line.reverse.dropWhile fun c => c == '\n' || c == '\r').reverse

/-- Line and column of a byte offset, both counted from one: the line is the last one that starts at
or before the offset. -/
def lineColumn (f : SourceFile) (offset : Nat) : Nat × Nat :=
  let index := match binarySearch f.lineStarts offset with
    | .ok i => i
    | .error i => i - 1
  (index + 1, (offset - f.lineStarts.getD index 0 + 1) % wordSize)

def position (f : SourceFile) (offset : Nat) : Position :=
  let (line, column) := f.lineColumn offset
  ⟨line, column, offset⟩

/-- The directory that relative requests of this file start from. -/
def directory (f : SourceFile) : UnixPath := UnixPath.directory ⟨f.name⟩

end SourceFile

/-- The source files of one run. -/
structure SourceMap where
  files : Array SourceFile := #[]
deriving Inhabited

namespace SourceMap

def addFile (m : SourceMap) (name content : String) : FileId × SourceMap :=
  (⟨m.files.size⟩, ⟨m.files.push ⟨name, content⟩⟩)

def file? (m : SourceMap) (id : FileId) : Option SourceFile := m.files[id.index]?

def ids (m : SourceMap) : List FileId := (List.range m.files.size).map FileId.mk

/-- The span between two byte offsets of a file. -/
def spanOf? (m : SourceMap) (id : FileId) (start stop : Nat) : Option Span :=
  (m.file? id).map fun f => ⟨f.position start, f.position stop, id⟩

/-- `file:line:column` of a span. -/
def describe (m : SourceMap) (span : Span) : String :=
  match m.file? span.file with
  | some f => s!"{f.name}:{span.text}"
  | none => s!"<unknown>:{span.text}"

end SourceMap

end Scoping
