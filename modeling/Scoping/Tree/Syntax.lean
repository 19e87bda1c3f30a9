import Scoping.Flags
import Scoping.QualName
import Scoping.Source.Span
import Scoping.Double.Basic

/-!
# Syntax of a unit

The payloads of syntax nodes. Children are node ids, so that a tree can be shared, copied and
annotated without touching the payloads. A payload carries no result of the analysis.
-/

namespace Scoping

/-- Keywords that stand in front of a declaration. -/
inductive Modifier where
  | visible
  | hidden
  | guarded
  | static
  | const
  | final
  | abstract
  | foreign
  | sealed
  | inline
  | unchecked
  | global
deriving DecidableEq, Inhabited

namespace Modifier

/-- The flag that a modifier sets. -/
def flag : Modifier → Flag
  | visible => .visible
  | hidden => .hidden
  | guarded => .guarded
  | static => .static
  | const => .const
  | final => .final
  | abstract => .abstract
  | foreign => .foreign
  | sealed => .sealed
  | inline => .inline
  | unchecked => .unchecked
  | global => .global

def all : List Modifier :=
  [visible, hidden, guarded, static, const, final, abstract, foreign, sealed, inline, unchecked,
    global]

def word (m : Modifier) : String := m.flag.word

def ofWord? (text : String) : Option Modifier := all.find? fun m => m.word == text

/-- The flags that a list of modifiers sets. -/
def flags (mods : List Modifier) : Flags := Flags.ofList (mods.map flag)

end Modifier

/-- What a function declaration is for, inside a class or trait. -/
inductive Role where
  | plain
  | constructor
  | destructor
  | getter
  | setter
deriving DecidableEq, Inhabited

namespace Role

def all : List Role := [plain, constructor, destructor, getter, setter]

def word : Role → String
  | plain => "plain"
  | constructor => "constructor"
  | destructor => "destructor"
  | getter => "getter"
  | setter => "setter"

def ofWord? (text : String) : Option Role := all.find? fun r => r.word == text

end Role

/-- A type hint as written. -/
inductive HintSyntax where
  | builtin (name : String)
  | named (path : QualName)
deriving DecidableEq, Inhabited

structure Param where
  name : String := ""
  span : Span := {}
  mods : List Modifier := []
  hint : Option HintSyntax := none
  byRef : Bool := false
  rest : Bool := false
  default : Option NodeId := none
  /-- The parameter also names the field that it is stored in. -/
  thisBound : Bool := false
deriving DecidableEq, Inhabited

/-- A function declaration or a function expression. -/
structure FnDecl where
  role : Role := .plain
  mods : List Modifier := []
  name : Option String := none
  params : List Param := []
  /-- A block, or an expression. -/
  body : Option NodeId := none
deriving DecidableEq, Inhabited

/-- One member that a trait usage asks for. -/
structure TraitUseItem where
  name : String := ""
  rename : Option String := none
  mods : List Modifier := []
  span : Span := {}
deriving DecidableEq, Inhabited

/-- The use of a trait in the body of a class or trait; without items it asks for every member. -/
structure TraitUse where
  path : QualName := {}
  span : Span := {}
  items : Option (List TraitUseItem) := none
deriving DecidableEq, Inhabited

structure ClassDecl where
  mods : List Modifier := []
  name : String := ""
  /-- A forward declaration, to be completed later. -/
  incomplete : Bool := false
  super : Option QualName := none
  implements : List QualName := []
  uses : List TraitUse := []
  members : List NodeId := []
deriving DecidableEq, Inhabited

structure TraitDecl where
  mods : List Modifier := []
  name : String := ""
  incomplete : Bool := false
  uses : List TraitUse := []
  members : List NodeId := []
deriving DecidableEq, Inhabited

structure InterfaceDecl where
  mods : List Modifier := []
  name : String := ""
  incomplete : Bool := false
  supers : List QualName := []
  members : List NodeId := []
deriving DecidableEq, Inhabited

/-- One name of a variable or enumeration declaration. -/
structure VarItem where
  name : String := ""
  span : Span := {}
  init : Option NodeId := none
deriving DecidableEq, Inhabited

structure Ident where
  name : String := ""
  span : Span := {}
deriving DecidableEq, Inhabited

inductive Literal where
  | null
  | bool (b : Bool)
  | int (i : Int)
  | float (x : Double)
  | str (s : String)
deriving DecidableEq, Inhabited

/-- Constants whose value is a name taken from where they stand. -/
inductive EngineConst where
  | host
  | method
  | function
  | enclosingModule
deriving DecidableEq, Inhabited

namespace EngineConst

def all : List EngineConst := [host, method, function, enclosingModule]

/-- The name of the constant in a syntax document. -/
def word : EngineConst → String
  | host => "class"
  | method => "method"
  | function => "function"
  | enclosingModule => "module"

def ofWord? (text : String) : Option EngineConst := all.find? fun c => c.word == text

/-- The constant as it is written in source text. -/
def text : EngineConst → String
  | host => "__class__"
  | method => "__method__"
  | function => "__fn__"
  | enclosingModule => "__module__"

end EngineConst

/-- The payload of a node. -/
inductive NodeKind where
  | unit (body : List NodeId)
  | moduleDecl (name : Option QualName) (body : List NodeId)
  | useDecl (path : QualName) (rename : Option String) (isPublic : Bool)
  | require (path : NodeId) (foreign : Bool)
  | classDecl (decl : ClassDecl)
  | traitDecl (decl : TraitDecl)
  | interfaceDecl (decl : InterfaceDecl)
  | fnDecl (decl : FnDecl)
  | fnExpr (decl : FnDecl)
  | varDecl (mods : List Modifier) (items : List VarItem)
  | enumDecl (mods : List Modifier) (items : List VarItem)
  | block (body : List NodeId)
  | ifElse (cond thenPart : NodeId) (otherwise : Option NodeId)
  | whileLoop (cond body : NodeId)
  | forLoop (init test step : Option NodeId) (body : NodeId)
  | forIn (key : Option Ident) (value : Ident) (iter body : NodeId)
  | ret (value : Option NodeId)
  | exprStmt (expr : NodeId)
  | name (path : QualName)
  | literal (value : Literal)
  | unary (op : String) (operand : NodeId)
  | binary (op : String) (lhs rhs : NodeId)
  | assign (op : String) (target value : NodeId)
  | call (callee : NodeId) (args : List NodeId)
  | new (host : QualName) (args : List NodeId)
  | member (object : NodeId) (name : String)
  | index (object position : NodeId)
  | this
  | selfRef
  | super
  | engineConst (which : EngineConst)
deriving DecidableEq, Inhabited

namespace NodeKind

/-- Short name used in messages. -/
def label : NodeKind → String
  | unit _ => "unit"
  | moduleDecl .. => "module"
  | useDecl .. => "use"
  | require .. => "require"
  | classDecl _ => "class"
  | traitDecl _ => "trait"
  | interfaceDecl _ => "interface"
  | fnDecl _ => "fn"
  | fnExpr _ => "fn-expr"
  | varDecl .. => "let"
  | enumDecl .. => "enum"
  | block _ => "block"
  | ifElse .. => "if"
  | whileLoop .. => "while"
  | forLoop .. => "for"
  | forIn .. => "for-in"
  | ret _ => "return"
  | exprStmt _ => "expr-stmt"
  | name _ => "name"
  | literal _ => "literal"
  | unary .. => "unary"
  | binary .. => "binary"
  | assign .. => "assign"
  | call .. => "call"
  | new .. => "new"
  | member .. => "member"
  | index .. => "index"
  | this => "this"
  | selfRef => "self"
  | super => "super"
  | engineConst _ => "engine-const"

/-! ### Children -/

/-- The child slots of a payload, in source order. -/
def children : NodeKind → List NodeId
  | unit body => body
  | moduleDecl _ body => body
  | useDecl .. => []
  | require path _ => [path]
  | classDecl decl => decl.members
  | traitDecl decl => decl.members
  | interfaceDecl decl => decl.members
  | fnDecl decl => decl.params.filterMap Param.default ++ decl.body.toList
  | fnExpr decl => decl.params.filterMap Param.default ++ decl.body.toList
  | varDecl _ items => items.filterMap VarItem.init
  | enumDecl _ items => items.filterMap VarItem.init
  | block body => body
  | ifElse cond thenPart otherwise => cond :: thenPart :: otherwise.toList
  | whileLoop cond body => [cond, body]
  | forLoop init test step body => init.toList ++ test.toList ++ step.toList ++ [body]
  | forIn _ _ iter body => [iter, body]
  | ret value => value.toList
  | exprStmt expr => [expr]
  | name _ => []
  | literal _ => []
  | unary _ operand => [operand]
  | binary _ lhs rhs => [lhs, rhs]
  | assign _ target value => [target, value]
  | call callee args => callee :: args
  | new _ args => args
  | member object _ => [object]
  | index object position => [object, position]
  | this => []
  | selfRef => []
  | super => []
  | engineConst _ => []

/-- Fills an optional slot: a slot that is in use takes the first id, an empty one takes none. -/
def fillSlot : Option NodeId → List NodeId → Option NodeId × List NodeId
  | none, ids => (none, ids)
  | some old, [] => (some old, [])
  | some _, id :: ids => (some id, ids)

/-- Fills a slot that is always in use. -/
def fillOne (old : NodeId) : List NodeId → NodeId × List NodeId
  | [] => (old, [])
  | id :: ids => (id, ids)

/-- Fills the default values of parameters. -/
def fillParams : List Param → List NodeId → List Param × List NodeId
  | [], ids => ([], ids)
  | p :: ps, ids =>
    let (default, ids) := fillSlot p.default ids
    let (ps, ids) := fillParams ps ids
    ({ p with default } :: ps, ids)

/-- Fills the initializers of declared names. -/
def fillItems : List VarItem → List NodeId → List VarItem
  | [], _ => []
  | item :: items, ids =>
    let (init, ids) := fillSlot item.init ids
    { item with init } :: fillItems items ids

/-- Fills the slots of a function. -/
def fillFn (decl : FnDecl) (ids : List NodeId) : FnDecl :=
  let (params, ids) := fillParams decl.params ids
  { decl with params, body := (fillSlot decl.body ids).1 }

/-- The payload with the given ids in its child slots, in the order of `children`. -/
def withChildren : NodeKind → List NodeId → NodeKind
  | unit _, ids => unit ids
  | moduleDecl path _, ids => moduleDecl path ids
  | useDecl path rename isPublic, _ => useDecl path rename isPublic
  | require path foreign, ids => require (fillOne path ids).1 foreign
  | classDecl decl, ids => classDecl { decl with members := ids }
  | traitDecl decl, ids => traitDecl { decl with members := ids }
  | interfaceDecl decl, ids => interfaceDecl { decl with members := ids }
  | fnDecl decl, ids => fnDecl (fillFn decl ids)
  | fnExpr decl, ids => fnExpr (fillFn decl ids)
  | varDecl mods items, ids => varDecl mods (fillItems items ids)
  | enumDecl mods items, ids => enumDecl mods (fillItems items ids)
  | block _, ids => block ids
  | ifElse cond thenPart otherwise, ids =>
    let (cond, ids) := fillOne cond ids
    let (thenPart, ids) := fillOne thenPart ids
    ifElse cond thenPart (fillSlot otherwise ids).1
  | whileLoop cond body, ids =>
    let (cond, ids) := fillOne cond ids
    whileLoop cond (fillOne body ids).1
  | forLoop init test step body, ids =>
    let (init, ids) := fillSlot init ids
    let (test, ids) := fillSlot test ids
    let (step, ids) := fillSlot step ids
    forLoop init test step (fillOne body ids).1
  | forIn key value iter body, ids =>
    let (iter, ids) := fillOne iter ids
    forIn key value iter (fillOne body ids).1
  | ret value, ids => ret (fillSlot value ids).1
  | exprStmt expr, ids => exprStmt (fillOne expr ids).1
  | name path, _ => name path
  | literal value, _ => literal value
  | unary op operand, ids => unary op (fillOne operand ids).1
  | binary op lhs rhs, ids =>
    let (lhs, ids) := fillOne lhs ids
    binary op lhs (fillOne rhs ids).1
  | assign op target value, ids =>
    let (target, ids) := fillOne target ids
    assign op target (fillOne value ids).1
  | call callee _, ids =>
    let (callee, ids) := fillOne callee ids
    call callee ids
  | new host _, ids => new host ids
  | member object field, ids => member (fillOne object ids).1 field
  | index object position, ids =>
    let (object, ids) := fillOne object ids
    index object (fillOne position ids).1
  | this, _ => this
  | selfRef, _ => selfRef
  | super, _ => super
  | engineConst which, _ => engineConst which

/-! ### Spans inside payloads -/

def mapUseSpans (f : Span → Span) (use : TraitUse) : TraitUse :=
  { use with
    span := f use.span
    items := use.items.map fun items => items.map fun item => { item with span := f item.span } }

def mapParamSpans (f : Span → Span) (decl : FnDecl) : FnDecl :=
  { decl with params := decl.params.map fun p => { p with span := f p.span } }

def mapItemSpans (f : Span → Span) (items : List VarItem) : List VarItem :=
  items.map fun item => { item with span := f item.span }

/-- Changes every span that a payload holds. -/
def mapSpans (f : Span → Span) : NodeKind → NodeKind
  | fnDecl decl => fnDecl (mapParamSpans f decl)
  | fnExpr decl => fnExpr (mapParamSpans f decl)
  | varDecl mods items => varDecl mods (mapItemSpans f items)
  | enumDecl mods items => enumDecl mods (mapItemSpans f items)
  | forIn key value iter body =>
    forIn (key.map fun k => { k with span := f k.span }) { value with span := f value.span } iter
      body
  | classDecl decl => classDecl { decl with uses := decl.uses.map (mapUseSpans f) }
  | traitDecl decl => traitDecl { decl with uses := decl.uses.map (mapUseSpans f) }
  | kind => kind

end NodeKind

end Scoping
