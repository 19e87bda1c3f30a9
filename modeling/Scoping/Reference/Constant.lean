import Scoping.Reference.Context

/-!
# Values known before the program runs

Values of constants, of parameter defaults and of enumeration members, and the texts of engine
constants. An engine constant in a copied trait member is bound when the whole unit has been walked.
-/

namespace Scoping

/-- Why an engine constant has no value where it stands. -/
inductive Misplaced where
  | outsideClass
  | outsideMethod
  | outsideFunction
deriving DecidableEq, Inhabited

def Misplaced.message : Misplaced → String
  | outsideClass => "used outside of a class"
  | outsideMethod => "used outside of a method"
  | outsideFunction => "used outside of a function"

namespace EngineConst

/-- The text of an engine constant inside the given class, function and module. -/
def value (g : Graph) (cls fn : Option SymbolId) (scope : ScopeId) :
    EngineConst → Except Misplaced String
  | host =>
    match cls with
    | some cls => .ok (g.symbolPath cls)
    | none => .error .outsideClass
  | method =>
    match cls, fn with
    | none, _ => .error .outsideClass
    | _, none => .error .outsideMethod
    | some cls, some fn => .ok s!"{g.symbolPath cls}.{(g.symbol fn).name}"
  | function =>
    match fn with
    | some fn => .ok (g.symbol fn).name
    | none => .error .outsideFunction
  | enclosingModule => .ok (g.modulePath scope)

end EngineConst

namespace Reference

open Analysis

/-! ### Constants -/

def setValue (id : SymbolId) (value : Value) : AnalysisM Unit :=
  modifyGraph (·.modifyData id (·.mapVar fun v => { v with value := some value }))

def setReachable (id : SymbolId) : AnalysisM Unit :=
  modifyGraph (·.modifySymbol id fun s => { s with reachable := true })

/-- Notes the value of a constant or of a parameter default. -/
def storeConstant (env : Environment) (id : SymbolId) (init : NodeId) : AnalysisM Unit := do
  let flags := (← symbol id).flags
  if flags.isConst || flags.isParam then setValue id (← reduce env init)

/-- Visits the initializer of a symbol and notes its value. -/
def visitInit (env : Environment) (visit : Walk) (ctx : Context) (id : SymbolId) :
    Option NodeId → AnalysisM Unit
  | none => pure ()
  | some init => do
    visit ctx init
    storeConstant env id init

/-- The symbols of a variable or enumeration declaration, each with its item. -/
def itemSymbols (note : Annotation) (items : List VarItem) : List (SymbolId × VarItem) :=
  match note.symbol with
  | none => []
  | some first => items.zipIdx.map fun (item, index) => (⟨first.index + index⟩, item)

def visitVariables (env : Environment) (visit : Walk) (ctx : Context)
    (items : List (SymbolId × VarItem)) : AnalysisM Unit :=
  items.forM fun (symbol, item) => do
    visitInit env visit ctx symbol item.init
    setReachable symbol

/-- The value that the next member of an enumeration has by default: one more than an integer, up to
the largest there is. -/
def nextMember (next : Int) : Value → Int
  | .int i => if Value.fits (i + 1) then i + 1 else i
  | _ => next

/-- Visits the members of an enumeration, which count up from `next`. -/
def visitEnum (env : Environment) (visit : Walk) (ctx : Context) :
    Int → List (SymbolId × VarItem) → AnalysisM Unit
  | _, [] => pure ()
  | next, (symbol, item) :: rest => do
    let value ← match item.init with
      | none => pure (.int next)
      | some init =>
        visit ctx init
        reduce env init
    setReachable symbol
    setValue symbol value
    visitEnum env visit ctx (nextMember next value) rest

/-! ### Engine constants -/

def bindConstant (id : NodeId) (text : String) : AnalysisM Unit :=
  annotate id fun note => { note with binding := some (.bound (.str text)) }

/-- Binds an engine constant, or puts it off in a trait member that is not in a class. -/
def visitEngineConst (ctx : Context) (id : NodeId) (node : Node) (which : EngineConst) :
    AnalysisM Unit := do
  match node.note.binding with
  | some .pending => pure ()
  | _ =>
    if ctx.cls.isNone && ctx.traitOrigin.isSome then
      annotate id fun note => { note with binding := some .pending }
    else
      let g ← currentGraph
      match which.value g ctx.cls (ctx.method? g) (ctx.enclosingModule.getD ctx.scope) with
      | .ok text => bindConstant id text
      | .error why =>
        warn node.span s!"{which.text} {why.message}; using an empty string"
        bindConstant id ""

/-- Binds an engine constant that was put off. -/
def bindLater (late : LateBinding) : AnalysisM Unit := do
  match (← read late.node).kind with
  | .engineConst which =>
    let g ← currentGraph
    let scope := (g.symbol late.host).scope.getD Graph.global
    match which.value g (some late.host) (some late.function) scope with
    | .ok text => bindConstant late.node text
    | .error _ => bindConstant late.node ""
  | _ => pure ()

/-- Binds the engine constants that were put off. -/
def bindLate : AnalysisM Unit := do
  let late := (← get).late
  modify fun s => { s with late := [] }
  late.forM bindLater

end Reference

end Scoping
