import Scoping.Graph.Slot
import Scoping.Tree.Basic

/-!
# Symbols of declarations

The symbols that stand for the declarations of a tree, before they are entered anywhere. Spans that
were never written down are replaced by the span of the whole declaration.
-/

namespace Scoping

namespace Symbol

/-- A symbol declared by a node. -/
def declaredBy (node : NodeId) (name : String) (span : Span) (flags : Flags) (data : SymbolData) :
    Symbol :=
  { mkDetached name span flags data with node := some node }

end Symbol

/-- Gives members of an interface that say nothing about it public visibility. -/
def Flags.publicByDefault (flags : Flags) : Flags :=
  if flags.hasVisibility then flags else { flags with isPublic := true }

/-! ### Types -/

/-- The usages of one trait, one for each item. -/
def TraitUse.usages (fallback : Span) (use : TraitUse) : List TraitUsage :=
  let span := use.span.orElse fallback
  let trait : TypeRef := { path := use.path, span }
  match use.items with
  | none => [{ trait, span }]
  | some items =>
    items.map fun item =>
      { trait
        item := some item.name
        rename := item.rename
        flags := Modifier.flags item.mods
        span := item.span.orElse fallback }

/-- The flags of a type declaration. -/
def typeFlags (mods : List Modifier) (incomplete : Bool) : Flags :=
  let flags := Modifier.flags mods
  if incomplete then { flags with isIncomplete := true } else flags

def ClassDecl.symbol (decl : ClassDecl) (node : NodeId) (span : Span) (members : ScopeId) :
    Symbol :=
  Symbol.declaredBy node decl.name span (typeFlags decl.mods decl.incomplete) <| .cls
    { super := decl.super.map fun path => { path, span }
      interfaces := decl.implements.map fun path => { path, span }
      traits := decl.uses.flatMap (TraitUse.usages span)
      members }

def TraitDecl.symbol (decl : TraitDecl) (node : NodeId) (span : Span) (members : ScopeId) :
    Symbol :=
  Symbol.declaredBy node decl.name span (typeFlags decl.mods decl.incomplete) <| .trait
    { traits := decl.uses.flatMap (TraitUse.usages span)
      members }

def InterfaceDecl.symbol (decl : InterfaceDecl) (node : NodeId) (span : Span) (members : ScopeId) :
    Symbol :=
  Symbol.declaredBy node decl.name span (typeFlags decl.mods decl.incomplete) <| .iface
    { interfaces := decl.supers.map fun path => { path, span }
      members }

/-! ### Functions -/

/-- Where a function stands. -/
structure FnPlace where
  /-- A member of a type. -/
  isMember : Bool
  /-- An expression. -/
  isExpr : Bool
  /-- The kind of type whose members are being declared. -/
  hostKind : Option SymbolKind
  /-- Inside another function. -/
  nested : Bool
deriving DecidableEq, Inhabited

/-- Bodies of trait and interface members are looked at when they are copied, not before. -/
def FnPlace.isDeferred (place : FnPlace) : Bool :=
  place.hostKind = some .trait || place.hostKind = some .iface

namespace FnDecl

/-- The flags of a function. A member without body is abstract unless it is foreign, any other
declaration without body is a forward declaration. -/
def flags (decl : FnDecl) (place : FnPlace) : Flags :=
  let flags := Modifier.flags decl.mods
  if place.isMember then
    let flags := if place.hostKind = some .iface then flags.publicByDefault else flags
    if decl.body.isNone && !flags.isForeign then { flags with isAbstract := true } else flags
  else if decl.body.isNone && !place.isExpr then { flags with isIncomplete := true }
  else flags

/-- The name of a function, or what takes its place. -/
def symbolName (decl : FnDecl) : String :=
  decl.name.getD <|
    match decl.role with
    | .constructor => "new"
    | .destructor => "drop"
    | _ => "\x7bclosure\x7d"

/-- The symbol of a function, without its parameters. -/
def symbol (decl : FnDecl) (place : FnPlace) (node : NodeId) (span : Span) : Symbol :=
  Symbol.declaredBy node decl.symbolName span (decl.flags place) <| .fn
    { role := decl.role
      nested := place.nested
      isExpr := place.isExpr
      hasBody := decl.body.isSome }

end FnDecl

/-- A parameter with a default value may be omitted. -/
def Param.isOptional (param : Param) : Bool := param.default.isSome

def Param.symbol (param : Param) (fallback : Span) : Symbol :=
  let flags := Modifier.flags param.mods
  Symbol.mkDetached param.name (param.span.orElse fallback) { flags with isParam := true } <| .var
    { hint := param.hint.map TypeHint.ofSyntax
      byRef := param.byRef
      rest := param.rest
      optional := param.isOptional
      thisBound := param.thisBound
      init := param.default }

/-! ### Variables -/

/-- A declared variable. Members can be used anywhere, other variables only from their declaration
on. -/
def VarItem.symbol (item : VarItem) (node : NodeId) (fallback : Span) (flags : Flags)
    (isMember : Bool) : Symbol :=
  { Symbol.declaredBy node item.name (item.span.orElse fallback) flags (.var { init := item.init })
    with reachable := isMember }

/-- The variable of a loop. -/
def Ident.symbol (ident : Ident) (fallback : Span) : Symbol :=
  Symbol.mkDetached ident.name (ident.span.orElse fallback) {} (.var {})

namespace Graph

/-- Takes a type into the arena, together with a scope for its members. -/
def allocType (g : Graph) (parent : ScopeId) (symbol : Symbol) : (SymbolId × ScopeId) × Graph :=
  let (id, g) := g.alloc symbol
  let (members, g) := g.newMemberScope id parent
  ((id, members), g.modifyData id (·.setMembers members))

/-- Takes symbols into the arena, one after the other. -/
def allocAll (g : Graph) : List Symbol → List SymbolId × Graph
  | [] => ([], g)
  | symbol :: rest =>
    let (id, g) := g.alloc symbol
    let (ids, g) := g.allocAll rest
    (id :: ids, g)

def paramsOf (g : Graph) (function : SymbolId) : List SymbolId :=
  ((g.symbol function).fn?.map (·.params)).getD []

end Graph

end Scoping
