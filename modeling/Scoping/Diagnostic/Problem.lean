import Scoping.Diagnostic.Log
import Scoping.Symbol

/-!
# Problems

Everything that the analysis can find wrong with a unit, with the kind of error that it counts as
and the words in which it is reported. Symbols and paths are given by their texts.
-/

namespace Scoping

inductive Problem where
  -- Declarations
  | redeclaredIntrinsic (name : String)
  /-- A forward declaration is completed by a symbol of another kind. -/
  | otherKind (name : String) (old new : SymbolKind)
  /-- A forward declaration is completed with other modifiers. -/
  | otherModifiers (name : String) (old new : Flags)
  | redeclaredFinal (path : String)
  | redeclaredConst (name : String)
  | duplicate (symbol : String)
  | duplicateAccessor (role : Role) (name : String) (first : Span)
  /-- A constructor, destructor or accessor outside of a type. -/
  | misplacedRole
  -- Types and their relatives
  | hiddenType (expected : SymbolKind) (path : QualName)
  | restrictedType (expected : SymbolKind) (path : QualName)
  | unknownType (expected : SymbolKind) (path : QualName)
  | unresolvableType (expected : SymbolKind) (path : QualName)
  | unexpectedType (path : QualName) (found expected : SymbolKind)
  | cyclicType (expected : SymbolKind) (path : QualName)
  | finalSuper (path : QualName)
  | unknownTraitMember (trait : QualName) (name : String)
  | abstractAndFinal (name : String)
  | brokenContract (implementation obligation reason : String)
  | hiddenHint (path : String)
  | unknownHint (path : String)
  -- Uses of names
  | endlessImport (path : QualName)
  | unknownImport (path : QualName)
  | variablePath (value : Value)
  | unknownField (param : String)
  | hidden (path : String)
  | restricted (path : String)
  | undefined (what : String)
  | unresolvable (what : String)
  | usedTooEarly (name : String)
  | assignment (what path : String)
  | instantiation (what path : String)
  -- Uses of the enclosing class
  | outsideClass (keyword : String)
  | noSuperclass (name : String)
  | forwardedThis
  | staticThis (method : String)
  | misplacedSuperCall
  | staticMember (path name : String)
  | instanceMember (path name : String)
  | superField (path : String)
  | namedMember (symbol : String)
deriving Inhabited

namespace Problem

/-- A missing or unfit superclass has a kind of its own. -/
def superclassKind (expected : SymbolKind) (otherwise : ErrorKind) : ErrorKind :=
  if expected = .cls then .cyclicOrMissingSuperclass else otherwise

def kind : Problem → ErrorKind
  | redeclaredIntrinsic _ => .finalOverride
  | otherKind .. => .incompleteMismatch
  | otherModifiers .. => .incompleteMismatch
  | redeclaredFinal _ => .finalOverride
  | redeclaredConst _ => .constOverride
  | duplicate _ => .duplicateDeclaration
  | duplicateAccessor .. => .duplicateDeclaration
  | misplacedRole => .invalidContext
  | hiddenType .. => .privateAccess
  | restrictedType .. => .restrictedAccess
  | unknownType expected _ => superclassKind expected .undefinedSymbol
  | unresolvableType .. => .lookupFailed
  | unexpectedType _ _ expected => superclassKind expected .interfaceContractViolation
  | cyclicType .. => .cyclicOrMissingSuperclass
  | finalSuper _ => .finalOverride
  | unknownTraitMember .. => .undefinedSymbol
  | abstractAndFinal _ => .interfaceContractViolation
  | brokenContract .. => .interfaceContractViolation
  | hiddenHint _ => .privateAccess
  | unknownHint _ => .undefinedSymbol
  | endlessImport _ => .lookupFailed
  | unknownImport _ => .undefinedSymbol
  | variablePath _ => .nonConstantRequirePath
  | unknownField _ => .undefinedSymbol
  | hidden _ => .privateAccess
  | restricted _ => .restrictedAccess
  | undefined _ => .undefinedSymbol
  | unresolvable _ => .lookupFailed
  | usedTooEarly _ => .unreachableSymbol
  | assignment .. => .constOverride
  | instantiation .. => .invalidInstantiation
  | outsideClass _ => .invalidContext
  | noSuperclass _ => .invalidContext
  | forwardedThis => .invalidContext
  | staticThis _ => .invalidContext
  | misplacedSuperCall => .invalidContext
  | staticMember .. => .invalidContext
  | instanceMember .. => .invalidContext
  | superField _ => .invalidContext
  | namedMember _ => .invalidContext

def message : Problem → String
  | redeclaredIntrinsic name => s!"cannot redeclare intrinsic `{name}`"
  | otherKind name old new =>
    s!"`{name}` was forward-declared as a {old.word}, not a {new.word}"
  | otherModifiers name old new =>
    s!"modifiers of `{name}` ({new.text}) differ from its forward declaration ({old.text})"
  | redeclaredFinal path => s!"cannot redeclare final {path}"
  | redeclaredConst name => s!"cannot redeclare constant `{name}`"
  | duplicate symbol => s!"duplicate declaration of {symbol}"
  | duplicateAccessor role name first =>
    s!"duplicate {role.word} `{name}` (first declared at {first.text})"
  | misplacedRole => "constructors, destructors and accessors must be declared inside a class"
  | hiddenType expected path => s!"{expected.word} `{path.text}` is private"
  | restrictedType expected path => s!"{expected.word} `{path.text}` is not accessible here"
  | unknownType expected path => s!"unknown {expected.word} `{path.text}`"
  | unresolvableType expected path => s!"{expected.word} `{path.text}` could not be resolved"
  | unexpectedType path found expected =>
    s!"`{path.text}` is a {found.word}, expected a {expected.word}"
  | cyclicType expected path => s!"cyclic {expected.word} hierarchy through `{path.text}`"
  | finalSuper path => s!"cannot extend final class `{path.text}`"
  | unknownTraitMember trait name => s!"trait `{trait.text}` has no member `{name}`"
  | abstractAndFinal name => s!"class `{name}` cannot be both abstract and final"
  | brokenContract implementation obligation reason =>
    s!"{implementation} does not satisfy {obligation}: {reason}"
  | hiddenHint path => s!"type `{path}` is private"
  | unknownHint path => s!"unknown type `{path}` in parameter hint"
  | endlessImport path => s!"import `{path.text}` does not resolve: alias chain too long"
  | unknownImport path => s!"unresolved import `{path.text}`"
  | variablePath value => s!"require path must reduce to a string, found {value.text}"
  | unknownField param => s!"constructor parameter `{param}` does not name an instance field"
  | hidden path => s!"{path} is private"
  | restricted path => s!"{path} cannot be used while the parent constructor is being called"
  | undefined what => s!"undefined symbol {what}"
  | unresolvable what => s!"could not resolve {what}: alias chain or scope walk too long"
  | usedTooEarly name => s!"`{name}` is used before its declaration"
  | assignment what path => s!"cannot assign to {what} {path}"
  | instantiation what path => s!"cannot instantiate {what} {path}"
  | outsideClass keyword => s!"`{keyword}` used outside of a class"
  | noSuperclass name => s!"class `{name}` has no superclass"
  | forwardedThis => "`this` cannot be used in the arguments of `super(...)`"
  | staticThis method => s!"`this` used in static method {method}"
  | misplacedSuperCall => "`super(...)` is only allowed directly inside a constructor"
  | staticMember path name => s!"{path} is static; use `self.{name}`"
  | instanceMember path name => s!"{path} is not static; use `this.{name}`"
  | superField path => s!"instance field {path} cannot be reached through `super`"
  | namedMember symbol => s!"members of {symbol} cannot be accessed through its name"

end Problem

namespace Log

/-- Reports a problem. -/
def problem (log : Log) (p : Problem) (span : Span) : Log := log.error p.kind span p.message

/-- Reports a problem that has to do with an earlier declaration. -/
def problemWithPrevious (log : Log) (p : Problem) (span previous : Span) (note : String) : Log :=
  log.errorWithPrevious p.kind span p.message previous note

end Log

end Scoping
