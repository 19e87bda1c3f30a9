import Scoping.Id

/-!
# Positions and spans

A position counts lines and columns from one and bytes from zero. A span lies in one file. Line
zero is reserved for spans that were never written down, such as those of built-in symbols.
-/

namespace Scoping

structure Position where
  line : Nat := 0
  column : Nat := 0
  offset : Nat := 0
deriving DecidableEq, Inhabited

structure Span where
  start : Position := {}
  stop : Position := {}
  file : FileId := ⟨0⟩
deriving DecidableEq, Inhabited

namespace Span

/-- A span of one column. -/
def singlePosition (p : Position) (file : FileId) : Span :=
  ⟨p, ⟨p.line, p.column + 1, p.offset + 1⟩, file⟩

/-- A span without a position, for what no source text declares. -/
def synthetic (file : FileId) : Span := ⟨{}, {}, file⟩

def isSynthetic (s : Span) : Bool := s.start.line == 0

def withFile (s : Span) (file : FileId) : Span := { s with file }

/-- The smallest span that covers both, by byte offsets; `none` across files. -/
def merge? (a b : Span) : Option Span :=
  if a.file = b.file then
    some
      { start := if a.start.offset ≤ b.start.offset then a.start else b.start
        stop := if a.stop.offset ≥ b.stop.offset then a.stop else b.stop
        file := a.file }
  else none

/-- The span itself, or `fallback` if it has no position. -/
def orElse (s fallback : Span) : Span := if s.isSynthetic then fallback else s

/-- `line:column` of the start. -/
def text (s : Span) : String := s!"{s.start.line}:{s.start.column}"

end Span

end Scoping
