import Scoping.Json.Basic
import Scoping.Double.Shortest

/-!
# Writing JSON

`Json.compact` writes a document on one line, `Json.pretty` with one field or element per line,
indented by two spaces. Only quotes, backslashes and control characters are escaped.
-/

namespace Scoping.Json

/-- Two hexadecimal digits. -/
def hex2 (n : Nat) : List Char :=
  let digits := Nat.toDigits 16 n
  List.replicate (2 - digits.length) '0' ++ digits

/-- One character as it stands in a JSON string. -/
def escapeChar (c : Char) : List Char :=
  match c with
  | '"' => ['\\', '"']
  | '\\' => ['\\', '\\']
  | '\n' => ['\\', 'n']
  | '\r' => ['\\', 'r']
  | '\t' => ['\\', 't']
  | '\x08' => ['\\', 'b']
  | '\x0c' => ['\\', 'f']
  | _ => if c.toNat < 0x20 then ['\\', 'u', '0', '0'] ++ hex2 c.toNat else [c]

def quote (s : String) : String :=
  String.ofList ('"' :: (s.toList.flatMap escapeChar ++ ['"']))

/-- A floating-point number, always with a fraction; infinities and the like are `null`. -/
def floatText (x : Double) : String :=
  if x.isNaN || x.isInfinite then "null"
  else if x.text.toList.contains '.' then x.text
  else x.text ++ ".0"

/-- Wraps lines in brackets. -/
def bracket (pretty : Bool) (indent : Nat) (opening closing : String) : List String → String
  | [] => opening ++ closing
  | parts =>
    if pretty then
      let pad := String.ofList (List.replicate (2 * (indent + 1)) ' ')
      opening ++ "\n" ++ String.intercalate ",\n" (parts.map (pad ++ ·)) ++ "\n"
        ++ String.ofList (List.replicate (2 * indent) ' ') ++ closing
    else opening ++ String.intercalate "," parts ++ closing

mutual

/-- Writes a value at a given indentation. -/
def render (pretty : Bool) (indent : Nat) : Json → String
  | null => "null"
  | bool b => if b then "true" else "false"
  | int i => toString i
  | float x => floatText x
  | str s => quote s
  | arr items => bracket pretty indent "[" "]" (renderItems pretty (indent + 1) items)
  | obj fields => bracket pretty indent "\x7b" "\x7d" (renderFields pretty (indent + 1) fields)

def renderItems (pretty : Bool) (indent : Nat) : List Json → List String
  | [] => []
  | item :: rest => render pretty indent item :: renderItems pretty indent rest

def renderFields (pretty : Bool) (indent : Nat) : List (String × Json) → List String
  | [] => []
  | (name, value) :: rest =>
    (quote name ++ (if pretty then ": " else ":") ++ render pretty indent value)
      :: renderFields pretty indent rest

end

def compact (j : Json) : String := render false 0 j

def pretty (j : Json) : String := render true 0 j

end Scoping.Json
