import Scoping.Tree.Basic
import Scoping.Json.Reader

/-!
# Trees from JSON documents

A document is decoded field by field. Unknown fields are ignored; in the document itself, and in the
spans of its nodes, they are not even read. A field with a default may be missing but not `null`; an
optional field may be either. Ids have 32 bits, positions 64.
-/

namespace Scoping.Tree.Decode

open Json

/-- Decodes one JSON value. -/
abbrev Decoder (α : Type) := Json → Option α

/-- A field that must be present. -/
def required {α : Type} (name : String) (decode : Decoder α) : Decoder α := fun j =>
  j.field? name >>= decode

/-- A field that may be missing. -/
def defaulted {α : Type} (name : String) (default : α) (decode : Decoder α) : Decoder α := fun j =>
  match j.field? name with
  | none => some default
  | some v => decode v

/-- A field that may be missing or `null`. -/
def optional {α : Type} (name : String) (decode : Decoder α) : Decoder (Option α) := fun j =>
  match j.field? name with
  | none => some none
  | some null => some none
  | some v => (decode v).map some

def list {α : Type} (decode : Decoder α) : Decoder (List α) := fun j => do
  (← j.arr?).mapM decode

/-- Only objects have fields. -/
def object : Decoder Json
  | obj fields => some (obj fields)
  | _ => none

/-! ### Leaves -/

def nodeId : Decoder NodeId := fun j => (natBelow? (Nat.pow 2 32) j).map NodeId.mk

def count : Decoder Nat := natBelow? (Nat.pow 2 64)

def position : Decoder Position := fun j => do
  let line ← required "line" count j
  let column ← required "column" count j
  let offset ← defaulted "byte_offset" 0 count j
  pure ⟨line, column, offset⟩

def span : Decoder Span := fun j => do
  let start ← required "start" position j
  let stop ← required "end" position j
  let file ← defaulted "file_id" 0 count j
  pure ⟨start, stop, ⟨file⟩⟩

def qualName : Decoder QualName := fun j => do
  let segments ← required "segments" (list str?) j
  let rooted ← defaulted "rooted" false bool? j
  pure ⟨segments, rooted⟩

/-- A name from a fixed list, also accepted as the only key of an object without content. -/
def word {α : Type} (ofWord? : String → Option α) : Decoder α
  | str text => ofWord? text
  | obj [(text, null)] => ofWord? text
  | obj [(text, obj [])] => ofWord? text
  | _ => none

def modifiers : Decoder (List Modifier) := list (word Modifier.ofWord?)

def hint : Decoder HintSyntax
  | obj [("builtin", v)] => (str? v).map .builtin
  | obj [("named", v)] => (qualName v).map .named
  | _ => none

/-- Integers of 64 bits, signed. -/
def int64 : Decoder Int
  | int i => if Value.fits i then some i else none
  | _ => none

/-- Any number. -/
def double : Decoder Double
  | float x => some x
  | int i => (Double.ofNat? i.natAbs).map fun x => if i < 0 then x.neg else x
  | _ => none

def literal : Decoder Literal
  | str "null" => some .null
  | obj [("null", null)] => some .null
  | obj [("null", obj [])] => some .null
  | obj [("bool", v)] => (bool? v).map .bool
  | obj [("int", v)] => (int64 v).map .int
  | obj [("float", v)] => (double v).map .float
  | obj [("str", v)] => (str? v).map .str
  | _ => none

/-! ### Declarations -/

def param : Decoder Param := fun j => do
  let j ← object j
  pure
    { name := ← defaulted "name" "" str? j
      span := ← defaulted "span" {} span j
      mods := ← defaulted "mods" [] modifiers j
      hint := ← optional "hint" hint j
      byRef := ← defaulted "by_ref" false bool? j
      rest := ← defaulted "rest" false bool? j
      default := ← optional "default" nodeId j
      thisBound := ← defaulted "this_bound" false bool? j }

def fnDecl : Decoder FnDecl := fun j => do
  pure
    { role := ← defaulted "role" .plain (word Role.ofWord?) j
      mods := ← defaulted "mods" [] modifiers j
      name := ← optional "name" str? j
      params := ← defaulted "params" [] (list param) j
      body := ← optional "body" nodeId j }

def traitUseItem : Decoder TraitUseItem := fun j => do
  let j ← object j
  pure
    { name := ← defaulted "name" "" str? j
      rename := ← optional "alias" str? j
      mods := ← defaulted "mods" [] modifiers j
      span := ← defaulted "span" {} span j }

def traitUse : Decoder TraitUse := fun j => do
  let j ← object j
  pure
    { path := ← defaulted "path" {} qualName j
      span := ← defaulted "span" {} span j
      items := ← optional "items" (list traitUseItem) j }

def classDecl : Decoder ClassDecl := fun j => do
  pure
    { mods := ← defaulted "mods" [] modifiers j
      name := ← defaulted "name" "" str? j
      incomplete := ← defaulted "incomplete" false bool? j
      super := ← optional "extends" qualName j
      implements := ← defaulted "implements" [] (list qualName) j
      uses := ← defaulted "uses" [] (list traitUse) j
      members := ← defaulted "members" [] (list nodeId) j }

def traitDecl : Decoder TraitDecl := fun j => do
  pure
    { mods := ← defaulted "mods" [] modifiers j
      name := ← defaulted "name" "" str? j
      incomplete := ← defaulted "incomplete" false bool? j
      uses := ← defaulted "uses" [] (list traitUse) j
      members := ← defaulted "members" [] (list nodeId) j }

def interfaceDecl : Decoder InterfaceDecl := fun j => do
  pure
    { mods := ← defaulted "mods" [] modifiers j
      name := ← defaulted "name" "" str? j
      incomplete := ← defaulted "incomplete" false bool? j
      supers := ← defaulted "extends" [] (list qualName) j
      members := ← defaulted "members" [] (list nodeId) j }

def varItem : Decoder VarItem := fun j => do
  let j ← object j
  pure
    { name := ← defaulted "name" "" str? j
      span := ← defaulted "span" {} span j
      init := ← optional "init" nodeId j }

def ident : Decoder Ident := fun j => do
  let j ← object j
  pure { name := ← defaulted "name" "" str? j, span := ← defaulted "span" {} span j }

/-! ### Nodes -/

/-- The decoders of the payloads, by name, in the order of the kinds. -/
def payloads : List (String × Decoder NodeKind) :=
  [("unit", fun j => do pure (.unit (← required "body" (list nodeId) j))),
    ("module", fun j => do
      pure (.moduleDecl (← optional "name" qualName j)
        (← defaulted "body" [] (list nodeId) j))),
    ("use", fun j => do
      pure (.useDecl (← required "path" qualName j) (← optional "alias" str? j)
        (← defaulted "public" false bool? j))),
    ("require", fun j => do
      pure (.require (← required "path" nodeId j) (← defaulted "foreign" false bool? j))),
    ("class_decl", fun j => do pure (.classDecl (← classDecl j))),
    ("trait_decl", fun j => do pure (.traitDecl (← traitDecl j))),
    ("interface_decl", fun j => do pure (.interfaceDecl (← interfaceDecl j))),
    ("fn_decl", fun j => do pure (.fnDecl (← fnDecl j))),
    ("fn_expr", fun j => do pure (.fnExpr (← fnDecl j))),
    ("var_decl", fun j => do
      pure (.varDecl (← defaulted "mods" [] modifiers j) (← required "items" (list varItem) j))),
    ("enum_decl", fun j => do
      pure (.enumDecl (← defaulted "mods" [] modifiers j) (← required "items" (list varItem) j))),
    ("block", fun j => do pure (.block (← defaulted "body" [] (list nodeId) j))),
    ("if", fun j => do
      pure (.ifElse (← required "cond" nodeId j) (← required "then" nodeId j)
        (← optional "otherwise" nodeId j))),
    ("while", fun j => do
      pure (.whileLoop (← required "cond" nodeId j) (← required "body" nodeId j))),
    ("for", fun j => do
      pure (.forLoop (← optional "init" nodeId j) (← optional "test" nodeId j)
        (← optional "step" nodeId j) (← required "body" nodeId j))),
    ("for_in", fun j => do
      pure (.forIn (← optional "key" ident j) (← required "value" ident j)
        (← required "iter" nodeId j) (← required "body" nodeId j))),
    ("return", fun j => do pure (.ret (← optional "value" nodeId j))),
    ("expr_stmt", fun j => do pure (.exprStmt (← required "expr" nodeId j))),
    ("name", fun j => do pure (.name (← required "path" qualName j))),
    ("literal", fun j => do pure (.literal (← required "value" literal j))),
    ("unary", fun j => do
      pure (.unary (← required "op" str? j) (← required "operand" nodeId j))),
    ("binary", fun j => do
      pure (.binary (← required "op" str? j) (← required "lhs" nodeId j)
        (← required "rhs" nodeId j))),
    ("assign", fun j => do
      pure (.assign (← defaulted "op" "=" str? j) (← required "target" nodeId j)
        (← required "value" nodeId j))),
    ("call", fun j => do
      pure (.call (← required "callee" nodeId j) (← defaulted "args" [] (list nodeId) j))),
    ("new", fun j => do
      pure (.new (← required "class" qualName j) (← defaulted "args" [] (list nodeId) j))),
    ("member", fun j => do
      pure (.member (← required "object" nodeId j) (← required "name" str? j))),
    ("index", fun j => do
      pure (.index (← required "object" nodeId j) (← required "index" nodeId j))),
    ("this", fun _ => some .this),
    ("self", fun _ => some .selfRef),
    ("super", fun _ => some .super),
    ("engine_const", fun j => do
      pure (.engineConst (← required "which" (word EngineConst.ofWord?) j)))]

/-- The decoder that a `kind` field selects, by name or by position. -/
def payload? : Json → Option (Decoder NodeKind)
  | str text => payloads.lookup text
  | int i => if 0 ≤ i then payloads[i.toNat]?.map Prod.snd else none
  | _ => none

def node : Decoder Node := fun j => do
  let j ← object j
  let decode ← required "kind" payload? j
  let kind ← decode j
  let place ← defaulted "span" {} span j
  pure { kind, span := place }

end Scoping.Tree.Decode

namespace Scoping.Tree

open Json Decode

/-- The tree that a document describes. -/
def ofJson? (j : Json) : Option Tree := do
  let j ← object j
  let file ← required "file" str? j
  let source ← optional "source" str? j
  let nodes ← required "nodes" (list node) j
  let root ← required "root" nodeId j
  pure { file, source, nodes := nodes.toArray, root }

/-- What is read of a position. -/
def positionInterest : Interest :=
  .fields [("line", .all), ("column", .all), ("byte_offset", .all)] false

/-- What is read of a span. -/
def spanInterest : Interest :=
  .fields [("start", positionInterest), ("end", positionInterest), ("file_id", .all)] false

/-- What is read of a node: its fields depend on its kind, so all of them are. -/
def nodeInterest : Interest := .fields [("span", spanInterest)] true

/-- What is read of a document. -/
def interest : Interest :=
  .fields [("file", .all), ("source", .all), ("nodes", .each nodeInterest), ("root", .all)] false

/-- The tree that a document text describes. -/
def parse? (text : String) : Option Tree := Json.parseOnly interest text >>= ofJson?

end Scoping.Tree
