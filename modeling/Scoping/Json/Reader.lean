import Scoping.Json.Basic
import Scoping.Double.Decimal

/-!
# Reading JSON

A recursive-descent reader on characters. It refuses documents that are nested too deeply, control
characters inside strings, half surrogate pairs, and numbers beyond the floating-point range. An
integer that does not fit in 64 bits is read as a floating-point number, and so is `-0`.

A document may be read with an `Interest` in some of its fields. The other fields are skipped: they
must be well formed, but may nest to any depth, and what their strings and numbers stand for does
not matter.
-/

namespace Scoping.Json

/-- What is read of a value. -/
inductive Interest where
  /-- All of it. -/
  | all
  /-- All elements of an array, with the same interest in each. -/
  | each (item : Interest)
  /-- Some fields of an object. The fields that are not named are all read or all skipped. -/
  | fields (named : List (String × Interest)) (others : Bool)

namespace Interest

/-- The interest in the elements of an array. -/
def item : Interest → Interest
  | each i => i
  | _ => all

/-- The interest in a field of an object, if there is any. -/
def field? : Interest → String → Option Interest
  | fields named others, key =>
    match named.lookup key with
    | some i => some i
    | none => if others then some all else none
  | _, _ => some all

end Interest

end Scoping.Json

namespace Scoping.Json.Reader

/-- Reads a prefix of the input and gives back the rest. -/
abbrev Scan (α : Type) := List Char → Option (α × List Char)

def isBlank (c : Char) : Bool := c == ' ' || c == '\n' || c == '\t' || c == '\r'

def skipBlanks (s : List Char) : List Char := s.dropWhile isBlank

def isDigit (c : Char) : Bool := '0' ≤ c && c ≤ '9'

def digitValue (c : Char) : Nat := c.toNat - '0'.toNat

/-! ### Numbers -/

/-- Adds decimal digits to a significand as long as it stays below `2 ^ 64`; gives the significand
and the digits that were left over. -/
def absorb (significand : Nat) : List Char → Nat × List Char
  | [] => (significand, [])
  | c :: rest =>
    let next := significand * 10 + digitValue c
    if next < Nat.pow 2 64 then absorb next rest else (significand, c :: rest)

/-- The parts of a written number. -/
structure Numeral where
  negative : Bool
  whole : List Char
  fraction : Option (List Char)
  exponent : Option Int

/-- One or more digits. -/
def digits : Scan (List Char) := fun s =>
  match s.takeWhile isDigit with
  | [] => none
  | found => some (found, s.dropWhile isDigit)

/-- The whole part: a lone zero, or digits that do not start with zero. -/
def wholePart : Scan (List Char) := fun s => do
  let (found, rest) ← digits s
  match found with
  | '0' :: _ :: _ => none
  | _ => some (found, rest)

def fractionPart : Scan (Option (List Char)) := fun s =>
  match s with
  | '.' :: rest => do
    let (found, rest) ← digits rest
    some (some found, rest)
  | _ => some (none, s)

/-- A decimal number, read without a bound on its size. -/
def decimal (found : List Char) : Nat := found.foldl (fun n c => n * 10 + digitValue c) 0

def exponentPart : Scan (Option Int) := fun s =>
  match s with
  | c :: rest =>
    if c == 'e' || c == 'E' then do
      let (sign, rest) : Int × List Char :=
        match rest with
        | '+' :: rest => (1, rest)
        | '-' :: rest => (-1, rest)
        | _ => (1, rest)
      let (found, rest) ← digits rest
      some (some (sign * decimal found), rest)
    else some (none, s)
  | [] => some (none, s)

def numeral : Scan Numeral := fun s => do
  let (negative, s) := match s with
    | '-' :: rest => (true, rest)
    | _ => (false, s)
  let (whole, s) ← wholePart s
  let (fraction, s) ← fractionPart s
  let (exponent, s) ← exponentPart s
  some (⟨negative, whole, fraction, exponent⟩, s)

/-- The floating-point number that a numeral stands for. -/
def Numeral.double? (n : Numeral) : Option Double := do
  let (significand, left) := absorb 0 n.whole
  let found := n.fraction.getD []
  let (significand, dropped) := absorb significand found
  let exponent : Int := (left.length : Int) - ((found.length - dropped.length : Nat) : Int)
  let x ← Double.ofDecimal significand (exponent + n.exponent.getD 0)
  some (if n.negative then x.neg else x)

/-- The number that a numeral stands for. -/
def Numeral.value? (n : Numeral) : Option Json :=
  let size := decimal n.whole
  if n.fraction.isSome || n.exponent.isSome then n.double?.map float
  else if n.negative then
    if 0 < size && size ≤ Nat.pow 2 63 then some (int (-(size : Int))) else n.double?.map float
  else if size < Nat.pow 2 64 then some (int size)
  else n.double?.map float

/-! ### Strings -/

def hexValue? (c : Char) : Option Nat :=
  if isDigit c then some (digitValue c)
  else if 'a' ≤ c && c ≤ 'f' then some (c.toNat - 'a'.toNat + 10)
  else if 'A' ≤ c && c ≤ 'F' then some (c.toNat - 'A'.toNat + 10)
  else none

/-- Four hexadecimal digits. -/
def hex4 : Scan Nat
  | a :: b :: c :: d :: rest => do
    let a ← hexValue? a
    let b ← hexValue? b
    let c ← hexValue? c
    let d ← hexValue? d
    some (((a * 16 + b) * 16 + c) * 16 + d, rest)
  | _ => none

/-- The character of a code point outside the surrogates. -/
def scalar? (n : Nat) : Option Char :=
  if n < 0xd800 || (0xe000 ≤ n && n < 0x110000) then some (Char.ofNat n) else none

/-- The character of a `\u` escape, whose second half is read too if the first is a surrogate. -/
def unicodeEscape : Scan Char := fun s => do
  let (high, s) ← hex4 s
  if 0xd800 ≤ high && high < 0xdc00 then
    match s with
    | '\\' :: 'u' :: s => do
      let (low, s) ← hex4 s
      if 0xdc00 ≤ low && low < 0xe000 then
        let c ← scalar? (0x10000 + (high - 0xd800) * 0x400 + (low - 0xdc00))
        some (c, s)
      else none
    | _ => none
  else
    let c ← scalar? high
    some (c, s)

/-- The character that a letter stands for after a backslash. -/
def simpleEscape? : Char → Option Char
  | '"' => some '"'
  | '\\' => some '\\'
  | '/' => some '/'
  | 'b' => some '\x08'
  | 'f' => some '\x0c'
  | 'n' => some '\n'
  | 'r' => some '\r'
  | 't' => some '\t'
  | _ => none

/-- The rest of a string after its opening quote. Each step reads at least one character, so
the length of the input is fuel enough. -/
def stringBody : Nat → List Char → Scan String
  | 0, _ => fun _ => none
  | fuel + 1, done => fun s =>
    match s with
    | [] => none
    | '"' :: rest => some (String.ofList done.reverse, rest)
    | '\\' :: 'u' :: rest => do
      let (c, rest) ← unicodeEscape rest
      stringBody fuel (c :: done) rest
    | '\\' :: c :: rest => do
      let c ← simpleEscape? c
      stringBody fuel (c :: done) rest
    | c :: rest => if c.toNat < 0x20 || c == '\\' then none else stringBody fuel (c :: done) rest

/-! ### Skipping -/

/-- Skips the rest of a string after its opening quote. Any four hexadecimal digits make a `\u`
escape. -/
def skipString : Nat → List Char → Option (List Char)
  | 0, _ => none
  | fuel + 1, s =>
    match s with
    | [] => none
    | '"' :: rest => some rest
    | '\\' :: 'u' :: rest => do
      let (_, rest) ← hex4 rest
      skipString fuel rest
    | '\\' :: c :: rest => do
      let _ ← simpleEscape? c
      skipString fuel rest
    | c :: rest => if c.toNat < 0x20 || c == '\\' then none else skipString fuel rest

/-- Strips `word` off the input. -/
def skipWord (word : String) (s : List Char) : Option (List Char) := word.toList.isPrefixOf? s

mutual

/-- Skips a value after blanks, with at most `fuel` steps. -/
def skipValue : Nat → List Char → Option (List Char)
  | 0, _ => none
  | fuel + 1, s =>
    match skipBlanks s with
    | [] => none
    | '"' :: rest => skipString (rest.length + 1) rest
    | '[' :: rest =>
      match skipBlanks rest with
      | ']' :: rest => some rest
      | rest => skipItems fuel rest
    | '\x7b' :: rest =>
      match skipBlanks rest with
      | '\x7d' :: rest => some rest
      | rest => skipFields fuel rest
    | c :: rest =>
      if c == 't' then skipWord "true" (c :: rest)
      else if c == 'f' then skipWord "false" (c :: rest)
      else if c == 'n' then skipWord "null" (c :: rest)
      else (numeral (c :: rest)).map Prod.snd

/-- Skips the elements of an array up to its closing bracket. -/
def skipItems : Nat → List Char → Option (List Char)
  | 0, _ => none
  | fuel + 1, s => do
    let s ← skipValue fuel s
    match skipBlanks s with
    | ',' :: rest => skipItems fuel rest
    | ']' :: rest => some rest
    | _ => none

/-- Skips the fields of an object up to its closing brace. -/
def skipFields : Nat → List Char → Option (List Char)
  | 0, _ => none
  | fuel + 1, s =>
    match skipBlanks s with
    | '"' :: rest => do
      let s ← skipString (rest.length + 1) rest
      match skipBlanks s with
      | ':' :: s => do
        let s ← skipValue fuel s
        match skipBlanks s with
        | ',' :: rest => skipFields fuel rest
        | '\x7d' :: rest => some rest
        | _ => none
      | _ => none
    | _ => none

end

/-! ### Documents -/

/-- A word that stands for a value. -/
def keyword (word : String) (value : Json) : Scan Json := fun s =>
  (skipWord word s).map (value, ·)

mutual

/-- A value after blanks. `fuel` bounds the number of steps, `depth` the nesting. -/
def value : Nat → Nat → Interest → Scan Json
  | 0, _, _ => fun _ => none
  | fuel + 1, depth, interest => fun s =>
    match skipBlanks s with
    | [] => none
    | '"' :: rest => do
      let (text, rest) ← stringBody (rest.length + 1) [] rest
      some (str text, rest)
    | '[' :: rest =>
      match depth with
      | 0 => none
      | depth + 1 =>
        match skipBlanks rest with
        | ']' :: rest => some (arr [], rest)
        | rest => items fuel depth interest.item [] rest
    | '\x7b' :: rest =>
      match depth with
      | 0 => none
      | depth + 1 =>
        match skipBlanks rest with
        | '\x7d' :: rest => some (obj [], rest)
        | rest => fields fuel depth interest [] rest
    | c :: rest =>
      if c == 't' then keyword "true" (bool true) (c :: rest)
      else if c == 'f' then keyword "false" (bool false) (c :: rest)
      else if c == 'n' then keyword "null" null (c :: rest)
      else do
        let (n, rest) ← numeral (c :: rest)
        let v ← n.value?
        some (v, rest)

/-- The elements of an array up to its closing bracket. -/
def items : Nat → Nat → Interest → List Json → Scan Json
  | 0, _, _, _ => fun _ => none
  | fuel + 1, depth, interest, done => fun s => do
    let (v, s) ← value fuel depth interest s
    match skipBlanks s with
    | ',' :: rest => items fuel depth interest (v :: done) rest
    | ']' :: rest => some (arr (v :: done).reverse, rest)
    | _ => none

/-- One field that is read or skipped, in front of the fields before it. -/
def field : Nat → Nat → Option Interest → String → List (String × Json) →
    Scan (List (String × Json))
  | 0, _, _, _, _ => fun _ => none
  | fuel + 1, _, none, _, done => fun s => (skipValue fuel s).map (done, ·)
  | fuel + 1, depth, some interest, key, done => fun s => do
    let (v, s) ← value fuel depth interest s
    some ((key, v) :: done, s)

/-- The fields of an object up to its closing brace. -/
def fields : Nat → Nat → Interest → List (String × Json) → Scan Json
  | 0, _, _, _ => fun _ => none
  | fuel + 1, depth, interest, done => fun s =>
    match skipBlanks s with
    | '"' :: rest => do
      let (key, s) ← stringBody (rest.length + 1) [] rest
      match skipBlanks s with
      | ':' :: s => do
        let (done, s) ← field fuel depth (interest.field? key) key done s
        match skipBlanks s with
        | ',' :: rest => fields fuel depth interest done rest
        | '\x7d' :: rest => some (obj done.reverse, rest)
        | _ => none
      | _ => none
    | _ => none

end

end Scoping.Json.Reader

namespace Scoping.Json

/-- Reads what is of interest in a document whose arrays and objects nest at most `depth` deep. -/
def parseWithin (depth : Nat) (interest : Interest) (text : String) : Option Json :=
  let s := text.toList
  match Reader.value (3 * s.length + 3) depth interest s with
  | some (v, rest) => if (Reader.skipBlanks rest).isEmpty then some v else none
  | none => none

/-- Documents nest at most 127 deep. -/
def maxDepth : Nat := 127

/-- Reads what is of interest in a document. -/
def parseOnly (interest : Interest) (text : String) : Option Json :=
  parseWithin maxDepth interest text

/-- Reads a whole document. -/
def parse (text : String) : Option Json := parseOnly .all text

end Scoping.Json
