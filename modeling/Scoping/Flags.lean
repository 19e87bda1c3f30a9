/-!
# Modifier flags

Symbols carry a set of flags: visibility, the modifiers written in front of a declaration, and two
marks that the analysis sets itself (`incomplete` for forward declarations, `param` for
parameters). A set of flags is a record of truth values, one per flag; `Flags.has` and
`Flags.insert` give access by name.
-/

namespace Scoping

/-- The flags, in the order of their bits. -/
inductive Flag where
  | const
  | final
  | global
  | static
  | visible
  | hidden
  | guarded
  | sealed
  | inline
  | foreign
  | abstract
  | incomplete
  | param
  | unchecked
deriving DecidableEq, Inhabited

namespace Flag

/-- All flags, in the order of their bits. -/
def all : List Flag :=
  [const, final, global, static, visible, hidden, guarded, sealed, inline, foreign, abstract,
    incomplete, param, unchecked]

/-- The word that stands for a flag in source text and in messages. -/
def word : Flag → String
  | const => "const"
  | final => "final"
  | global => "global"
  | static => "static"
  | visible => "public"
  | hidden => "private"
  | guarded => "protected"
  | sealed => "sealed"
  | inline => "inline"
  | foreign => "extern"
  | abstract => "abstract"
  | incomplete => "incomplete"
  | param => "param"
  | unchecked => "unsafe"

/-- All flags, in the order in which messages list them. -/
def listed : List Flag :=
  [visible, hidden, guarded, static, const, final, abstract, foreign, sealed, inline, unchecked,
    global, incomplete, param]

/-- The flag that a word stands for. -/
def ofWord? (text : String) : Option Flag := all.find? fun flag => flag.word == text

end Flag

/-- A set of flags. -/
structure Flags where
  isConst : Bool := false
  isFinal : Bool := false
  isGlobal : Bool := false
  isStatic : Bool := false
  isPublic : Bool := false
  isPrivate : Bool := false
  isProtected : Bool := false
  isSealed : Bool := false
  isInline : Bool := false
  isForeign : Bool := false
  isAbstract : Bool := false
  isIncomplete : Bool := false
  isParam : Bool := false
  isUnchecked : Bool := false
deriving DecidableEq, Inhabited

namespace Flags

def none : Flags := {}

def has (f : Flags) : Flag → Bool
  | .const => f.isConst
  | .final => f.isFinal
  | .global => f.isGlobal
  | .static => f.isStatic
  | .visible => f.isPublic
  | .hidden => f.isPrivate
  | .guarded => f.isProtected
  | .sealed => f.isSealed
  | .inline => f.isInline
  | .foreign => f.isForeign
  | .abstract => f.isAbstract
  | .incomplete => f.isIncomplete
  | .param => f.isParam
  | .unchecked => f.isUnchecked

def insert (f : Flags) : Flag → Flags
  | .const => { f with isConst := true }
  | .final => { f with isFinal := true }
  | .global => { f with isGlobal := true }
  | .static => { f with isStatic := true }
  | .visible => { f with isPublic := true }
  | .hidden => { f with isPrivate := true }
  | .guarded => { f with isProtected := true }
  | .sealed => { f with isSealed := true }
  | .inline => { f with isInline := true }
  | .foreign => { f with isForeign := true }
  | .abstract => { f with isAbstract := true }
  | .incomplete => { f with isIncomplete := true }
  | .param => { f with isParam := true }
  | .unchecked => { f with isUnchecked := true }

/-- The set of the listed flags. -/
def ofList (flags : List Flag) : Flags := flags.foldl insert none

/-- The three visibilities together. -/
def visibility : Flags := { isPublic := true, isPrivate := true, isProtected := true }

/-- Combines two sets flag by flag. -/
def zipWith (op : Bool → Bool → Bool) (a b : Flags) : Flags where
  isConst := op a.isConst b.isConst
  isFinal := op a.isFinal b.isFinal
  isGlobal := op a.isGlobal b.isGlobal
  isStatic := op a.isStatic b.isStatic
  isPublic := op a.isPublic b.isPublic
  isPrivate := op a.isPrivate b.isPrivate
  isProtected := op a.isProtected b.isProtected
  isSealed := op a.isSealed b.isSealed
  isInline := op a.isInline b.isInline
  isForeign := op a.isForeign b.isForeign
  isAbstract := op a.isAbstract b.isAbstract
  isIncomplete := op a.isIncomplete b.isIncomplete
  isParam := op a.isParam b.isParam
  isUnchecked := op a.isUnchecked b.isUnchecked

def union (a b : Flags) : Flags := zipWith (· || ·) a b

def inter (a b : Flags) : Flags := zipWith (· && ·) a b

def without (a b : Flags) : Flags := zipWith (fun x y => x && !y) a b

def isEmpty (f : Flags) : Bool := f == none

/-- Are all flags of `b` set in `a`? The empty set is contained in none. -/
def contains (a b : Flags) : Bool := !b.isEmpty && inter a b == b

/-- Is some flag of `b` set in `a`? -/
def intersects (a b : Flags) : Bool := !(inter a b).isEmpty

/-- Is a visibility given? -/
def hasVisibility (f : Flags) : Bool := f.isPublic || f.isPrivate || f.isProtected

/-- The flags as the sum of their bits. -/
def bits (f : Flags) : Nat :=
  Flag.all.zipIdx.foldl (fun sum entry => if f.has entry.1 then sum + Nat.pow 2 entry.2 else sum) 0

/-- The flags as words, or `none`. -/
def text (f : Flags) : String :=
  match Flag.listed.filter f.has with
  | [] => "none"
  | flags => String.intercalate " " (flags.map Flag.word)

end Flags

end Scoping
