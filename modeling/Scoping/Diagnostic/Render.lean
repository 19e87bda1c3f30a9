import Scoping.Diagnostic.Basic
import Scoping.Source.File

/-!
# Diagnostics as text

A diagnostic is written as a headline followed by excerpts of the source: the place of each span,
the line that it starts on, and a row of marks under the columns that it covers. Widths are
counted in bytes.
-/

namespace Scoping.Diagnostic

/-- Terminal sequences around the parts of a diagnostic; all empty without colours. -/
structure Palette where
  severity : String := ""
  gutter : String := ""
  message : String := ""
  related : String := ""
  help : String := ""
  reset : String := ""

/-- The terminal sequence that selects a rendition. -/
def sgr (codes : String) : String := "\x1b[" ++ codes ++ "m"

def severityColor : Severity → String
  | .abort => sgr "1;31"
  | .error => sgr "31"
  | .warning => sgr "33"
  | .info => sgr "36"

def palette (colors : Bool) (severity : Severity) : Palette :=
  if colors then
    { severity := severityColor severity
      gutter := sgr "96"
      message := sgr "1;97"
      related := sgr "34"
      help := sgr "32"
      reset := sgr "0" }
  else {}

def repeated (c : Char) (n : Nat) : String := String.ofList (List.replicate n c)

/-- The number of columns that are marked on the first line of a span. -/
def markWidth (span : Span) (line : String) : Nat :=
  let start := span.start.column - 1
  if span.start.line = span.stop.line then span.stop.column - span.start.column
  else line.utf8ByteSize - start

/-- The source line of a span with marks under it. -/
def excerpt (p : Palette) (span : Span) (line : String) (mark : Char) (message : Option String) :
    String :=
  let number := toString span.start.line
  let blank := repeated ' ' number.length
  let color := if mark = '^' then p.severity else p.related
  let marks := repeated mark (max (markWidth span line) 1)
  let note := match message with
    | some message => " " ++ color ++ message ++ p.reset
    | none => ""
  blank ++ " " ++ p.gutter ++ "|" ++ p.reset ++ "\n"
    ++ p.gutter ++ number ++ p.reset ++ " " ++ p.gutter ++ "|" ++ p.reset ++ " " ++ line ++ "\n"
    ++ blank ++ " " ++ p.gutter ++ "|" ++ p.reset ++ " " ++ repeated ' ' (span.start.column - 1)
    ++ color ++ marks ++ p.reset ++ note ++ "\n"

/-- The place of a span and an excerpt; nothing for a span without position or file. -/
def snippet (p : Palette) (sources : SourceMap) (span : Span) (mark : Char)
    (message : Option String) : String :=
  if span.isSynthetic then ""
  else
    match sources.file? span.file with
    | none => ""
    | some file =>
      "  " ++ p.gutter ++ "-->" ++ p.reset ++ s!" {file.name}:{span.text}\n"
        ++ match file.line? span.start.line with
          | some line => excerpt p span line mark message
          | none => ""

/-- A diagnostic as text. -/
def render (colors : Bool) (sources : SourceMap) (d : Diagnostic) : String :=
  let p := palette colors d.severity
  let code := match d.code with
    | some code => "[" ++ code ++ "]"
    | none => ""
  let headline :=
    p.severity ++ d.severity.word ++ code ++ p.reset ++ ": " ++ p.message ++ d.message ++ p.reset
      ++ "\n"
  let related := d.labels.map fun label => snippet p sources label.span '-' (some label.message)
  let help := match d.help with
    | some help => "   " ++ p.help ++ "help" ++ p.reset ++ ": " ++ help ++ "\n"
    | none => ""
  headline ++ snippet p sources d.span '^' none ++ String.join related ++ help

/-- Diagnostics as text, with an empty line between two. -/
def renderAll (colors : Bool) (sources : SourceMap) (ds : Diagnostics) : String :=
  String.intercalate "\n" (ds.map (render colors sources))

end Scoping.Diagnostic
