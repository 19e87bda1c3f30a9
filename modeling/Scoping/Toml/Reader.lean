import Scoping.Toml.Basic
import Scoping.Toml.Scalar

/-!
# Reading TOML

The reader goes through a document line by line: headers open tables, and assignments add fields to
the table opened last. Strings come in four forms: basic strings have escapes, literal strings have
none, and either may span lines between three quotes. Values do not nest, and keys do not go, 80
levels deep.
-/

namespace Scoping.Toml.Reader

abbrev Scan (α : Type) := List Char → Option (α × List Char)

def isBlank (c : Char) : Bool := c == ' ' || c == '\t'

def skipBlanks (s : List Char) : List Char := s.dropWhile isBlank

/-- Characters that may stand in comments and strings: no control characters but the tab. -/
def isText (c : Char) : Bool := c == '\t' || (0x20 ≤ c.toNat && c.toNat ≠ 0x7f)

/-- A line end. -/
def newline? : List Char → Option (List Char)
  | '\n' :: s => some s
  | '\r' :: '\n' :: s => some s
  | _ => none

/-- A comment, if there is one. -/
def skipComment : List Char → List Char
  | '#' :: s => s.dropWhile isText
  | s => s

/-- Blanks and a comment up to the end of the line or of the document. -/
def endLine? (s : List Char) : Option (List Char) :=
  match skipComment (skipBlanks s) with
  | [] => some []
  | rest => newline? rest

/-! ### Strings -/

def hexValue? (c : Char) : Option Nat :=
  if '0' ≤ c && c ≤ '9' then some (c.toNat - '0'.toNat)
  else if 'a' ≤ c && c ≤ 'f' then some (c.toNat - 'a'.toNat + 10)
  else if 'A' ≤ c && c ≤ 'F' then some (c.toNat - 'A'.toNat + 10)
  else none

/-- The character of a code point in `width` hexadecimal digits. -/
def codePoint (width : Nat) : Scan Char := fun s => do
  let digits := s.take width
  if digits.length = width then
    let n ← digits.foldlM (fun n c => (hexValue? c).map (n * 16 + ·)) 0
    if n < 0xd800 || (0xe000 ≤ n && n < 0x110000) then some (Char.ofNat n, s.drop width) else none
  else none

/-- The character of an escape after its backslash. -/
def escape : Scan Char
  | 'b' :: s => some ('\x08', s)
  | 't' :: s => some ('\t', s)
  | 'n' :: s => some ('\n', s)
  | 'f' :: s => some ('\x0c', s)
  | 'r' :: s => some ('\r', s)
  | '"' :: s => some ('"', s)
  | '\\' :: s => some ('\\', s)
  | 'u' :: s => codePoint 4 s
  | 'U' :: s => codePoint 8 s
  | _ => none

/-- The rest of a basic string. -/
def basic : Nat → List Char → Scan String
  | 0, _ => fun _ => none
  | fuel + 1, done => fun s =>
    match s with
    | '"' :: rest => some (String.ofList done.reverse, rest)
    | '\\' :: rest => do
      let (c, rest) ← escape rest
      basic fuel (c :: done) rest
    | c :: rest => if isText c then basic fuel (c :: done) rest else none
    | [] => none

/-- The rest of a literal string. -/
def literal : Scan String := fun s =>
  match s.dropWhile fun c => isText c && c != '\x27' with
  | '\x27' :: rest => some (String.ofList (s.takeWhile fun c => isText c && c != '\x27'), rest)
  | _ => none

/-- A line end right after the opening quotes does not count. -/
def dropFirstNewline (s : List Char) : List Char := (newline? s).getD s

/-- Blanks and line ends after a backslash at the end of a line. -/
def skipLineEnds : Nat → List Char → List Char
  | 0, s => s
  | fuel + 1, s =>
    match newline? (skipBlanks s) with
    | some rest => skipLineEnds fuel rest
    | none => skipBlanks s

/-- The rest of a string between three quotes. Up to two quotes may stand before the closing
ones. -/
def multiline (quote : Char) (escapes : Bool) : Nat → List Char → Scan String
  | 0, _ => fun _ => none
  | fuel + 1, done => fun s =>
    match s with
    | [] => none
    | c :: rest =>
      if c = quote then
        let run := s.takeWhile (· == quote)
        if run.length < 3 then multiline quote escapes fuel (c :: done) rest
        else if run.length ≤ 5 then
          some (String.ofList (done.reverse ++ run.drop 3), s.drop run.length)
        else none
      else if c = '\\' && escapes then
        match newline? (skipBlanks rest) with
        | some after => multiline quote escapes fuel done (skipLineEnds after.length after)
        | none => do
          let (e, rest) ← escape rest
          multiline quote escapes fuel (e :: done) rest
      else
        match newline? s with
        | some after => multiline quote escapes fuel ('\n' :: done) after
        | none => if isText c then multiline quote escapes fuel (c :: done) rest else none

/-! ### Keys -/

def isBareKey (c : Char) : Bool :=
  ('a' ≤ c && c ≤ 'z') || ('A' ≤ c && c ≤ 'Z') || ('0' ≤ c && c ≤ '9') || c == '_' || c == '-'

def simpleKey : Scan String := fun s =>
  match s with
  | '"' :: rest => basic (rest.length + 1) [] rest
  | '\x27' :: rest => literal rest
  | _ =>
    match s.takeWhile isBareKey with
    | [] => none
    | found => some (String.ofList found, s.dropWhile isBareKey)

/-- A dotted key: the keys before the last one, and the last one. -/
def dottedKey : Nat → List String → Scan (List String × String)
  | 0, _ => fun _ => none
  | fuel + 1, before => fun s => do
    let (key, s) ← simpleKey (skipBlanks s)
    match skipBlanks s with
    | '.' :: rest => dottedKey fuel (key :: before) rest
    | rest => some ((before.reverse, key), rest)

/-- Values and keys stay below this number of levels. -/
def levelLimit : Nat := 80

def key : Scan (List String × String) := fun s =>
  (dottedKey (s.length + 1) [] s).filter fun found => found.1.1.length + 1 < levelLimit

/-! ### Values -/

/-- Blanks, line ends and comments between the elements of an array. -/
def skipLines : Nat → List Char → List Char
  | 0, s => s
  | fuel + 1, s =>
    let rest := skipComment (skipBlanks s)
    match newline? rest with
    | some rest => skipLines fuel rest
    | none => rest

def isScalarChar (c : Char) : Bool :=
  isBareKey c || c == '+' || c == '.' || c == ':'

/-- A scalar word; a date may have a blank before its time of day. -/
def scalar : Scan Toml := fun s =>
  let word := s.takeWhile isScalarChar
  let rest := s.dropWhile isScalarChar
  let timed := match rest with
    | ' ' :: more => word ++ ' ' :: more.takeWhile isScalarChar
    | _ => word
  if timed.length ≠ word.length && Scalar.isDateTime timed then
    some (.moment, s.drop timed.length)
  else if Scalar.isDateTime word then some (.moment, rest)
  else if Scalar.isScalar word then some (.scalar, rest)
  else none

mutual

/-- A value with at most `depth` levels, in at most `fuel` steps. -/
def value : Nat → Nat → Scan Toml
  | 0, _ => fun _ => none
  | fuel + 1, depth => fun s =>
    match s with
    | '"' :: '"' :: '"' :: rest => do
      let rest := dropFirstNewline rest
      let (text, rest) ← multiline '"' true (rest.length + 1) [] rest
      some (.str text, rest)
    | '"' :: rest => do
      let (text, rest) ← basic (rest.length + 1) [] rest
      some (.str text, rest)
    | '\x27' :: '\x27' :: '\x27' :: rest => do
      let rest := dropFirstNewline rest
      let (text, rest) ← multiline '\x27' false (rest.length + 1) [] rest
      some (.str text, rest)
    | '\x27' :: rest => do
      let (text, rest) ← literal rest
      some (.str text, rest)
    | '[' :: rest =>
      match depth with
      | 0 => none
      | depth + 1 => items fuel depth [] rest
    | '\x7b' :: rest =>
      match depth with
      | 0 => none
      | depth + 1 =>
        match skipBlanks rest with
        | '\x7d' :: rest => some (.inline {}, rest)
        | rest => fields fuel depth {} rest
    | _ => scalar s

/-- The elements of an array; a comma may follow the last one. -/
def items : Nat → Nat → List Toml → Scan Toml
  | 0, _, _ => fun _ => none
  | fuel + 1, depth, done => fun s =>
    match skipLines s.length s with
    | ']' :: rest => some (.arr done.reverse, rest)
    | s => do
      let (v, s) ← value fuel depth s
      match skipLines s.length s with
      | ',' :: rest => items fuel depth (v :: done) rest
      | ']' :: rest => some (.arr (v :: done).reverse, rest)
      | _ => none

/-- The fields of a table written on one line. -/
def fields : Nat → Nat → Table → Scan Toml
  | 0, _, _ => fun _ => none
  | fuel + 1, depth, t => fun s => do
    let ((path, name), s) ← key s
    match skipBlanks s with
    | '=' :: s => do
      let (v, s) ← value fuel depth (skipBlanks s)
      let t ← insertInline t path name v
      match skipBlanks s with
      | ',' :: rest => fields fuel depth t (skipBlanks rest)
      | '\x7d' :: rest => some (.inline t, rest)
      | _ => none
    | _ => none

end

/-! ### Documents -/

/-- A document that has been read up to a line: its root table and the header in force. -/
structure State where
  root : Table := {}
  header : List String := []

/-- Adds a field to the table of the header in force. -/
def State.assign (st : State) (path : List String) (name : String) (v : Toml) : Option State := do
  let root ← descend false (fun t => insert t path name v) st.header st.root
  some { st with root }

/-- Reads one line that is not blank. -/
def line (st : State) : Scan State := fun s =>
  match s with
  | '[' :: '[' :: rest => do
    let ((path, name), rest) ← key rest
    match rest with
    | ']' :: ']' :: rest => do
      let root ← openTables st.root path name
      let rest ← endLine? rest
      some ({ root, header := path ++ [name] }, rest)
    | _ => none
  | '[' :: rest => do
    let ((path, name), rest) ← key rest
    match rest with
    | ']' :: rest => do
      let root ← openTable st.root path name
      let rest ← endLine? rest
      some ({ root, header := path ++ [name] }, rest)
    | _ => none
  | _ => do
    let ((path, name), s) ← key s
    match s with
    | '=' :: s => do
      let (v, s) ← value (2 * s.length + 2) (levelLimit - 1) (skipBlanks s)
      let st ← st.assign path name v
      let rest ← endLine? s
      some (st, rest)
    | _ => none

/-- Reads the lines that are left. -/
def lines : Nat → State → List Char → Option State
  | 0, st, s => if s.isEmpty then some st else none
  | fuel + 1, st, s =>
    match skipBlanks s with
    | [] => some st
    | s =>
      match endLine? s with
      | some rest => lines fuel st rest
      | none => do
        let (st, rest) ← line st s
        lines fuel st rest

/-- A byte order mark in front of a document does not count. -/
def skipMark : List Char → List Char
  | '\ufeff' :: s => s
  | s => s

end Scoping.Toml.Reader

namespace Scoping.Toml

/-- Reads a document. -/
def parse? (text : String) : Option Table :=
  let s := Reader.skipMark text.toList
  (Reader.lines (s.length + 1) {} s).map (·.root)

end Scoping.Toml
