/-!
# Error codes

Every kind of error has a number, a category, a description and a hint how to mend it. Numbers are
written with an `E` in front and at least four digits.
-/

namespace Scoping

/-- The errors that the analysis reports. -/
inductive ErrorKind where
  | undefinedSymbol
  | duplicateDeclaration
  | unreachableSymbol
  | lookupFailed
  | privateAccess
  | restrictedAccess
  | finalOverride
  | constOverride
  | incompleteMismatch
  | cyclicOrMissingSuperclass
  | interfaceContractViolation
  | invalidInstantiation
  | invalidContext
  | nonConstantRequirePath
  | engineAbort
deriving DecidableEq, Inhabited

namespace ErrorKind

def all : List ErrorKind :=
  [undefinedSymbol, duplicateDeclaration, unreachableSymbol, lookupFailed, privateAccess,
    restrictedAccess, finalOverride, constOverride, incompleteMismatch, cyclicOrMissingSuperclass,
    interfaceContractViolation, invalidInstantiation, invalidContext, nonConstantRequirePath,
    engineAbort]

/-- The number of an error. -/
def code : ErrorKind → Nat
  | undefinedSymbol => 2001
  | duplicateDeclaration => 2002
  | unreachableSymbol => 2003
  | lookupFailed => 2004
  | privateAccess => 2101
  | restrictedAccess => 2102
  | finalOverride => 2201
  | constOverride => 2202
  | incompleteMismatch => 2203
  | cyclicOrMissingSuperclass => 2301
  | interfaceContractViolation => 2302
  | invalidInstantiation => 2303
  | invalidContext => 2401
  | nonConstantRequirePath => 2501
  | engineAbort => 2901

def text : ErrorKind → String
  | undefinedSymbol => "undefined symbol"
  | duplicateDeclaration => "duplicate declaration"
  | unreachableSymbol => "unreachable symbol"
  | lookupFailed => "lookup failed"
  | privateAccess => "private access"
  | restrictedAccess => "restricted access"
  | finalOverride => "final override"
  | constOverride => "constant override"
  | incompleteMismatch => "incompatible forward declaration"
  | cyclicOrMissingSuperclass => "invalid superclass"
  | interfaceContractViolation => "contract violation"
  | invalidInstantiation => "invalid instantiation"
  | invalidContext => "invalid context"
  | nonConstantRequirePath => "non-constant require path"
  | engineAbort => "engine abort"

end ErrorKind

/-- An entry of the list of codes. -/
structure ErrorCode where
  number : Nat
  category : String
  description : String
  help : String
deriving DecidableEq, Inhabited

namespace ErrorCode

/-- `E` and the number, padded to four digits. -/
def format (number : Nat) : String :=
  let digits := Nat.toDigits 10 number
  String.ofList ('E' :: List.replicate (4 - digits.length) '0' ++ digits)

def text (c : ErrorCode) : String := s!"{format c.number} [{c.category}]: {c.description}"

/-- All codes, by number. -/
def registry : List ErrorCode :=
  [⟨2001, "Symbol", "Undefined symbol", "Check that the identifier is declared and in scope"⟩,
    ⟨2002, "Symbol", "Symbol already defined",
      "Choose a different name or remove the duplicate declaration"⟩,
    ⟨2003, "Symbol", "Symbol used before its declaration",
      "Move the declaration above its first use"⟩,
    ⟨2004, "Symbol", "Name resolution failed",
      "Break the import cycle or shorten the chain of `use` aliases"⟩,
    ⟨2101, "Access", "Private symbol access",
      "Private symbols can only be accessed within their defining class, trait or module"⟩,
    ⟨2102, "Access", "Restricted symbol access",
      "Members of the class are unavailable while its super constructor arguments are evaluated"⟩,
    ⟨2201, "Declaration", "Final symbol redeclared",
      "Final and intrinsic symbols cannot be redeclared or overridden"⟩,
    ⟨2202, "Declaration", "Constant redeclared or reassigned",
      "Constants are bound once per scope"⟩,
    ⟨2203, "Declaration", "Incompatible refinement of an incomplete declaration",
      "The complete declaration must have the same kind and modifiers as the forward declaration"⟩,
    ⟨2301, "Inheritance", "Cyclic or missing superclass",
      "A class must extend an existing class and must not extend itself transitively"⟩,
    ⟨2302, "Inheritance", "Interface contract violation",
      "Implementations must match the abstract member's parameters and " ++
      "must not narrow its visibility"⟩,
    ⟨2303, "Inheritance", "Invalid instantiation",
      "Only concrete (non-abstract) classes can be instantiated"⟩,
    ⟨2401, "Context", "Invalid context",
      "`this`, `self` and `super` are only meaningful inside the members of a class"⟩,
    ⟨2501, "Constant", "Require path is not a constant string",
      "The path of a `require` must reduce to a string at compile time"⟩,
    ⟨2901, "Engine", "Resolution engine invariant violated",
      "This is an internal error; analysis of the unit was aborted"⟩,
    ⟨9999, "Internal", "Unknown error",
      "An unexpected error occurred; please report it with context"⟩]

def find? (number : Nat) : Option ErrorCode := registry.find? (·.number == number)

/-- The codes with numbers in a closed range. -/
def range (first last : Nat) : List ErrorCode :=
  registry.filter fun c => first ≤ c.number && c.number ≤ last

/-- The codes of name resolution. -/
def symbolErrors : List ErrorCode := range 2000 2999

/-- Appends a decimal digit to a number of sixteen bits. -/
def addDigit? (n : Nat) (c : Char) : Option Nat :=
  let next := n * 10 + (c.toNat - '0'.toNat)
  if '0' ≤ c && c ≤ '9' && next < Nat.pow 2 16 then some next else none

/-- A number of sixteen bits in decimal digits; a plus sign in front is allowed. -/
def parseNumber? (digits : List Char) : Option Nat :=
  let digits := match digits with
    | '+' :: rest => rest
    | _ => digits
  if digits.isEmpty then none else digits.foldlM addDigit? 0

/-- The number of a written code. -/
def parse? (text : String) : Option Nat :=
  match text.toList with
  | 'E' :: digits => parseNumber? digits
  | _ => none

end ErrorCode

end Scoping
