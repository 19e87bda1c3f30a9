/-!
# Arena ids

Scopes, symbols and syntax nodes live in flat arrays and refer to each other by position. Each
kind of position is a type of its own, so that a scope can never be taken for a symbol. Ids are
handed out in order of creation and are never reused.
-/

namespace Scoping

/-- Position of a symbol in the symbol arena of a scope graph. -/
structure SymbolId where
  index : Nat
deriving DecidableEq, Inhabited

/-- Position of a scope in a scope graph; position `0` is the global scope. -/
structure ScopeId where
  index : Nat
deriving DecidableEq, Inhabited

/-- Position of a node in the arena of one syntax tree. -/
structure NodeId where
  index : Nat
deriving DecidableEq, Inhabited

/-- Position of a source file in the order in which files were added. -/
structure FileId where
  index : Nat
deriving DecidableEq, Inhabited

/-- Number that a source loader gives to a requested source. -/
structure SourceHandle where
  number : Nat
deriving DecidableEq, Inhabited

def SymbolId.text (id : SymbolId) : String := s!"SymbolId({id.index})"

def ScopeId.text (id : ScopeId) : String := s!"ScopeId({id.index})"

def NodeId.text (id : NodeId) : String := s!"NodeId({id.index})"

def FileId.text (id : FileId) : String := s!"FileId({id.index})"

end Scoping
