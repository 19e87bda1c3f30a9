/-!
# Qualified names

A qualified name is a list of segments, such as `a::b::C`, and may be rooted: `::a::C` starts at
the enclosing unit. `QualName.parse` reads the written form and `QualName.text` writes it. Reading
drops empty segments, so `a::::b` and `a::b` name the same thing.
-/

namespace Scoping

/-- A possibly qualified name. -/
structure QualName where
  segments : List String := []
  rooted : Bool := false
deriving DecidableEq, Inhabited

namespace QualName

/-- The unqualified name `name`. -/
def single (name : String) : QualName := ⟨[name], false⟩

/-- One segment and no root mark: the name is searched for outward, scope by scope. -/
def isSingle (q : QualName) : Bool := !q.rooted && q.segments.length == 1

/-- The item that the name denotes, without its qualifiers; empty if there is no segment. -/
def last (q : QualName) : String := q.segments.getLast?.getD ""

/-- Puts a character in front of the first piece. -/
def consHead (c : Char) : List (List Char) → List (List Char)
  | [] => [[c]]
  | piece :: rest => (c :: piece) :: rest

/-- Cuts a text at every `::`, scanning from the left. -/
def cut : List Char → List (List Char)
  | [] => [[]]
  | ':' :: ':' :: rest => [] :: cut rest
  | c :: rest => consHead c (cut rest)

/-- Does the text start at the root? -/
def startsRooted : List Char → Bool
  | ':' :: ':' :: _ => true
  | _ => false

/-- Reads the written form of a name. -/
def parse (text : String) : QualName where
  segments := ((cut text.toList).filter fun piece => !piece.isEmpty).map String.ofList
  rooted := startsRooted text.toList

/-- Writes a name, with its root mark in front. -/
def text (q : QualName) : String :=
  (if q.rooted then "::" else "") ++ String.intercalate "::" q.segments

end QualName

end Scoping
