import Scoping.Graph.Dump
import Scoping.Graph.Search

/-!
# What a class has to implement

A class owes an implementation for every function of its interfaces and for every abstract function
of the abstract classes right above it. `Graph.obligations` lists these functions, `Graph.standing`
says whether a class has a function of the same shape for one of them.
-/

namespace Scoping

/-- Why a function does not fit another one that it should implement. -/
inductive Mismatch where
  | notFunction (name : String) (kind : SymbolKind)
  | staticDiffers
  | narrowed (wanted found : Flags)
  | arity (wanted found : Nat)
  | form (param : String)
  | hint (param : String) (wanted found : Option TypeHint)
deriving DecidableEq, Inhabited

namespace Mismatch

def hintText : Option TypeHint → String
  | none => "no hint"
  | some h => h.text

def message : Mismatch → String
  | notFunction name kind => s!"`{name}` is a {kind.word}, not a function"
  | staticDiffers => "static modifier differs"
  | narrowed wanted found => s!"visibility narrowed from {wanted.text} to {found.text}"
  | arity wanted found => s!"expected {wanted} parameters, found {found}"
  | form param => s!"parameter `{param}` differs in by-reference, rest or optional form"
  | hint param wanted found =>
    s!"parameter `{param}` is `{hintText found}`, expected `{hintText wanted}`"

end Mismatch

/-- Where a class stands with something that it has to implement. -/
inductive Standing where
  | met
  | unmet
  | broken (implementation : SymbolId) (why : Mismatch)
deriving DecidableEq, Inhabited

/-- How far a symbol can be seen. -/
def Flags.openness (flags : Flags) : Nat :=
  if flags.isPublic then 2 else if flags.isProtected then 1 else 0

/-- Do two optional hints ask for the same type? -/
def TypeHint.agree : Option TypeHint → Option TypeHint → Bool
  | none, none => true
  | some a, some b => a.sameAs b
  | _, _ => false

namespace Graph

/-- The symbols in the slots of a type. -/
def slotIds (g : Graph) (host : SymbolId) : List SymbolId :=
  (((g.membersOf? host).bind g.memberInfo?).map MemberInfo.slots).getD []

/-- The functions of a type, those in the table and those in slots. -/
def memberFunctions (g : Graph) (host : SymbolId) : List SymbolId :=
  (g.memberIds host ++ g.slotIds host).filter fun id => (g.symbol id).kind == .fn

def isAbstract (g : Graph) (id : SymbolId) : Bool := (g.symbol id).flags.isAbstract

/-! ### Obligations -/

/-- The interfaces that an interface extends. -/
def superInterfaces (g : Graph) (id : SymbolId) : List SymbolId :=
  match (g.symbol id).data with
  | .iface data => data.interfaces.filterMap TypeRef.target
  | _ => []

/-- Functions gathered so far, and the types that they were gathered from. -/
structure Duties where
  functions : List SymbolId := []
  seen : List SymbolId := []
deriving DecidableEq, Inhabited

/-- Adds the functions of an interface and of those that it extends. -/
def addInterface (g : Graph) : Nat → Duties → SymbolId → Duties
  | 0, duties, _ => duties
  | fuel + 1, duties, id =>
    if id ∈ duties.seen then duties
    else
      (g.superInterfaces id).foldl (g.addInterface fuel)
        { functions := duties.functions ++ g.memberFunctions id, seen := id :: duties.seen }

/-- The superclass of a class, which may be the root object. -/
def superclass? (g : Graph) (rootObject : Option SymbolId) (id : SymbolId) : Option SymbolId :=
  (g.symbol id).class?.bind fun data =>
    match data.super with
    | some ref => ref.target
    | none => rootObject.filter (· != id)

/-- Adds what a class passes on: the functions of its interfaces, and its own abstract functions
unless it is the class in question. -/
def addClass (g : Graph) (isFirst : Bool) (id : SymbolId) (data : ClassData) (duties : Duties) :
    Duties :=
  let own := if isFirst then [] else (g.memberFunctions id).filter g.isAbstract
  (data.interfaces.filterMap TypeRef.target).foldl (g.addInterface (g.symbols.size + 1))
    { functions := duties.functions ++ own, seen := id :: duties.seen }

/-- Adds what the classes from `next` upward pass on, up to the first that is not abstract. -/
def addClasses (g : Graph) (rootObject : Option SymbolId) :
    Nat → Bool → Duties → Option SymbolId → Duties
  | 0, _, duties, _ => duties
  | _ + 1, _, duties, none => duties
  | fuel + 1, isFirst, duties, some id =>
    match (g.symbol id).class? with
    | none => duties
    | some data =>
      if id ∈ duties.seen || (!isFirst && !g.isAbstract id) then duties
      else
        g.addClasses rootObject fuel false (g.addClass isFirst id data duties)
          (g.superclass? rootObject id)

/-- The functions that a class has to implement. No type is looked at twice, so there are no more
rounds than symbols. -/
def obligations (g : Graph) (rootObject : Option SymbolId) (id : SymbolId) : List SymbolId :=
  (g.addClasses rootObject (g.symbols.size + 1) true {} (some id)).functions

/-! ### Implementations -/

/-- The first member of the given name from a member scope upward, trying at most `fuel` scopes. -/
def implementationFrom? (g : Graph) (name : String) : Nat → Option ScopeId → Option SymbolId
  | 0, _ => none
  | _ + 1, none => none
  | fuel + 1, some scope =>
    g.lookupHere? scope name (some .value) <|>
      g.implementationFrom? name fuel (g.superScope? scope)

/-- The member that a class has under a name, own or inherited. -/
def implementation? (g : Graph) (id : SymbolId) (name : String) : Option SymbolId :=
  g.implementationFrom? name (g.scopes.size + 1) (g.membersOf? id)

/-- Why a parameter does not fit the one that it stands for. -/
def paramMismatch? (wanted found : Symbol) : Option Mismatch :=
  match wanted.var?, found.var? with
  | some a, some b =>
    if a.byRef != b.byRef || a.rest != b.rest || a.optional != b.optional then
      some (.form found.name)
    else if TypeHint.agree a.hint b.hint then none
    else some (.hint found.name a.hint b.hint)
  | _, _ => none

/-- Why a symbol does not implement a function. -/
def mismatch? (g : Graph) (obligation implementation : SymbolId) : Option Mismatch :=
  let wanted := g.symbol obligation
  let found := g.symbol implementation
  match wanted.fn?, found.fn? with
  | some a, some b =>
    if wanted.flags.isStatic != found.flags.isStatic then some .staticDiffers
    else if found.flags.openness < wanted.flags.openness then
      some (.narrowed (wanted.flags.inter .visibility) (found.flags.inter .visibility))
    else if a.params.length != b.params.length then
      some (.arity a.params.length b.params.length)
    else
      (a.params.zip b.params).findSome? fun (p, q) => paramMismatch? (g.symbol p) (g.symbol q)
  | _, _ => some (.notFunction found.name found.kind)

/-- Does a class implement a function? -/
def standing (g : Graph) (id obligation : SymbolId) : Standing :=
  match g.implementation? id (g.symbol obligation).name with
  | none => .unmet
  | some found =>
    if found = obligation || g.isAbstract found then .unmet
    else
      match g.mismatch? obligation found with
      | none => .met
      | some why => .broken found why

end Graph

end Scoping
