import Scoping.Diagnostic.Problem
import Scoping.Import
import Scoping.Reduce

/-!
# The analysis of one unit

`Analysis` is everything that changes while a unit is analysed: the scope graph of the session, the
annotated tree, the log, and what is left for later. `AnalysisM` runs over it. Mistakes in the unit
go to the log and stop nothing; a `Halt` stops the analysis where it stands and keeps what was done
up to then.
-/

namespace Scoping

/-- An engine constant in a copy of a trait member, to be bound when its class is known for good. -/
structure LateBinding where
  node : NodeId
  host : SymbolId
  /-- The copied member that the constant stands in. -/
  function : SymbolId
deriving DecidableEq, Inhabited

structure Analysis where
  graph : Graph := .initial
  tree : Tree
  log : Log := {}
  late : List LateBinding := []
  loader : Loader := .counting []
  /-- The sources that this unit asks for. -/
  requests : List ImportRequest := []
  /-- All that this unit has asked for, in the order of the walk. -/
  inquiries : List Inquiry := []
  /-- How many levels a walk may nest on top of what the sizes of graph and tree give it. -/
  spare : Nat := 0
deriving Inhabited

/-- What does not change during the analysis of a unit. -/
structure Environment where
  config : Config := {}
  /-- The superclass of every class that names none. -/
  rootObject : Option SymbolId := none
  reducer : Reducer := Reduce.node

abbrev AnalysisM := EStateM Halt Analysis

namespace Analysis

/-- How deep a walk may nest. Members that are copied on the way let a walk nest deeper than the
tree is large; the square leaves room for a copy of the whole tree at every node. -/
def budget (s : Analysis) : Nat :=
  let size := s.graph.symbols.size + s.tree.size + 2
  size * size + s.spare

/-- How deep a subtree may be. -/
def depth (s : Analysis) : Nat := s.tree.size + 1 + s.spare

/-! ### The tree -/

/-- The node with the given id, or a halt. -/
def read (id : NodeId) : AnalysisM Node := do
  match (← get).tree.node? id with
  | some node => pure node
  | none => throw (.missingNode id)

/-- Changes the annotation of a node that is there. -/
def annotate (id : NodeId) (f : Annotation → Annotation) : AnalysisM Unit := do
  let _ ← read id
  modify fun s => { s with tree := s.tree.annotate id f }

/-- Notes the scope that a node opens. -/
def setScope (id : NodeId) (scope : ScopeId) : AnalysisM Unit :=
  annotate id fun note => { note with scope := some scope }

/-- Notes the symbol that a node declares or refers to. -/
def bind (id : NodeId) (symbol : SymbolId) : AnalysisM Unit :=
  annotate id fun note => { note with symbol := some symbol }

/-- Runs an operation on the tree. -/
def onTree {α : Type} (f : Tree → Except Halt (α × Tree)) : AnalysisM α := do
  match f (← get).tree with
  | .ok (a, tree) => modify fun s => { s with tree }; pure a
  | .error halt => throw halt

/-! ### The graph -/

def currentGraph : AnalysisM Graph := return (← get).graph

def symbol (id : SymbolId) : AnalysisM Symbol := return (← get).graph.symbol id

def modifyGraph (f : Graph → Graph) : AnalysisM Unit :=
  modify fun s => { s with graph := f s.graph }

/-- Runs an operation on the graph. -/
def onGraph {α : Type} (f : Graph → α × Graph) : AnalysisM α :=
  modifyGet fun s => let (a, graph) := f s.graph; (a, { s with graph })

/-! ### The log -/

def modifyLog (f : Log → Log) : AnalysisM Unit := modify fun s => { s with log := f s.log }

def report (span : Span) (p : Problem) : AnalysisM Unit := modifyLog (·.problem p span)

def reportWithPrevious (span : Span) (p : Problem) (previous : Span) (note : String) :
    AnalysisM Unit :=
  modifyLog (·.problemWithPrevious p span previous note)

def warn (span : Span) (message : String) : AnalysisM Unit := modifyLog (·.warn span message)

/-! ### Constants -/

/-- The value of an expression of the tree. -/
def reduce (env : Environment) (id : NodeId) : AnalysisM Value := do
  let s ← get
  match env.reducer s.tree s.graph id with
  | .ok value => pure value
  | .error halt => throw halt

end Analysis

end Scoping
