import Scoping.Tree.Basic

/-!
# Building trees

Trees that were not parsed from text are built node by node, children first. Each node gets a line
of its own, so that diagnostics about different nodes can be told apart.
-/

namespace Scoping.Tree

/-- The nodes built so far, without a root. -/
structure Builder where
  nodes : Array Node := #[]
deriving Inhabited

abbrev BuildM := StateM Builder

namespace Builder

/-- The span of the next node. -/
def nextSpan (b : Builder) : Span := Span.singlePosition ⟨b.nodes.size + 1, 1, 0⟩ ⟨0⟩

def push (kind : NodeKind) : BuildM NodeId :=
  modifyGet fun b => (⟨b.nodes.size⟩, { b with nodes := b.nodes.push { kind, span := b.nextSpan } })

/-- The finished tree: a unit with the given contents. -/
def finish (b : Builder) (file : String) (body : List NodeId) : Tree :=
  let (root, b) := (push (.unit body)).run b
  { file, nodes := b.nodes, root }

/-! ### Expressions -/

def name (path : String) : BuildM NodeId := push (.name (QualName.parse path))

def int (value : Int) : BuildM NodeId := push (.literal (.int value))

def str (value : String) : BuildM NodeId := push (.literal (.str value))

def null : BuildM NodeId := push (.literal .null)

def unary (op : String) (operand : NodeId) : BuildM NodeId := push (.unary op operand)

def binary (op : String) (lhs rhs : NodeId) : BuildM NodeId := push (.binary op lhs rhs)

def assign (target value : NodeId) : BuildM NodeId := push (.assign "=" target value)

def call (callee : NodeId) (args : List NodeId) : BuildM NodeId := push (.call callee args)

def newObject (host : String) (args : List NodeId) : BuildM NodeId :=
  push (.new (QualName.parse host) args)

def member (object : NodeId) (field : String) : BuildM NodeId := push (.member object field)

def index (object position : NodeId) : BuildM NodeId := push (.index object position)

def this : BuildM NodeId := push .this

def selfRef : BuildM NodeId := push .selfRef

def super : BuildM NodeId := push .super

def engineConst (which : EngineConst) : BuildM NodeId := push (.engineConst which)

/-- A member of `this`, which takes two nodes. -/
def thisMember (field : String) : BuildM NodeId := do member (← this) field

def closure (decl : FnDecl) : BuildM NodeId := push (.fnExpr decl)

/-! ### Statements -/

def exprStmt (expr : NodeId) : BuildM NodeId := push (.exprStmt expr)

def ret (value : Option NodeId) : BuildM NodeId := push (.ret value)

def block (body : List NodeId) : BuildM NodeId := push (.block body)

def ifElse (cond thenPart : NodeId) (otherwise : Option NodeId) : BuildM NodeId :=
  push (.ifElse cond thenPart otherwise)

def whileLoop (cond body : NodeId) : BuildM NodeId := push (.whileLoop cond body)

def forIn (key : Option String) (value : String) (iter body : NodeId) : BuildM NodeId :=
  push (.forIn (key.map fun name => { name }) { name := value } iter body)

/-! ### Declarations -/

def varDecl (mods : List Modifier) (items : List VarItem) : BuildM NodeId :=
  push (.varDecl mods items)

def var (name : String) (init : Option NodeId) : BuildM NodeId := varDecl [] [{ name, init }]

def constant (name : String) (init : NodeId) : BuildM NodeId :=
  varDecl [.const] [{ name, init := some init }]

def enumDecl (mods : List Modifier) (items : List VarItem) : BuildM NodeId :=
  push (.enumDecl mods items)

def fnDecl (decl : FnDecl) : BuildM NodeId := push (.fnDecl decl)

def classDecl (decl : ClassDecl) : BuildM NodeId := push (.classDecl decl)

def traitDecl (decl : TraitDecl) : BuildM NodeId := push (.traitDecl decl)

def interfaceDecl (decl : InterfaceDecl) : BuildM NodeId := push (.interfaceDecl decl)

def moduleDecl (name : Option String) (body : List NodeId) : BuildM NodeId :=
  push (.moduleDecl (name.map QualName.parse) body)

/-- An import that is not public. -/
def useDecl (path : String) (rename : Option String) : BuildM NodeId :=
  push (.useDecl (QualName.parse path) rename false)

def require (path : NodeId) (foreign : Bool) : BuildM NodeId := push (.require path foreign)

end Builder

end Scoping.Tree

namespace Scoping

/-- The declaration of a constructor. -/
def FnDecl.constructor : FnDecl := { role := .constructor, name := some "new" }

/-- The use of all members of a trait. -/
def TraitUse.all (path : String) : TraitUse := { path := QualName.parse path }

/-- The use of one member of a trait. -/
def TraitUse.one (path name : String) (rename : Option String) (mods : List Modifier) : TraitUse :=
  { path := QualName.parse path, items := some [{ name, rename, mods }] }

end Scoping
