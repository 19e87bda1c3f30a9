import Scoping.Tree.Basic
import Scoping.Json.Basic

/-!
# Trees as JSON documents

The document of a tree lists every field of every payload, absent options as `null`. Annotations
are not part of the document.
-/

namespace Scoping

open Json

def Position.toJson (p : Position) : Json :=
  obj [("line", nat p.line), ("column", nat p.column), ("byte_offset", nat p.offset)]

def Span.toJson (s : Span) : Json :=
  obj [("start", s.start.toJson), ("end", s.stop.toJson), ("file_id", nat s.file.index)]

def QualName.toJson (q : QualName) : Json :=
  obj [("segments", arr (q.segments.map str)), ("rooted", bool q.rooted)]

def NodeId.toJson (id : NodeId) : Json := nat id.index

def NodeId.listJson (ids : List NodeId) : Json := arr (ids.map NodeId.toJson)

def Modifier.listJson (mods : List Modifier) : Json := arr (mods.map fun m => str m.word)

def HintSyntax.toJson : HintSyntax → Json
  | builtin name => obj [("builtin", str name)]
  | named path => obj [("named", path.toJson)]

def Param.toJson (p : Param) : Json :=
  obj
    [("name", str p.name), ("span", p.span.toJson), ("mods", Modifier.listJson p.mods),
      ("hint", ofOption HintSyntax.toJson p.hint), ("by_ref", bool p.byRef),
      ("rest", bool p.rest), ("default", ofOption NodeId.toJson p.default),
      ("this_bound", bool p.thisBound)]

def FnDecl.fields (d : FnDecl) : List (String × Json) :=
  [("role", str d.role.word), ("mods", Modifier.listJson d.mods), ("name", ofOption str d.name),
    ("params", arr (d.params.map Param.toJson)), ("body", ofOption NodeId.toJson d.body)]

def TraitUseItem.toJson (i : TraitUseItem) : Json :=
  obj
    [("name", str i.name), ("alias", ofOption str i.rename), ("mods", Modifier.listJson i.mods),
      ("span", i.span.toJson)]

def TraitUse.toJson (u : TraitUse) : Json :=
  obj
    [("path", u.path.toJson), ("span", u.span.toJson),
      ("items", ofOption (fun items => arr (items.map TraitUseItem.toJson)) u.items)]

def ClassDecl.fields (d : ClassDecl) : List (String × Json) :=
  [("mods", Modifier.listJson d.mods), ("name", str d.name), ("incomplete", bool d.incomplete),
    ("extends", ofOption QualName.toJson d.super),
    ("implements", arr (d.implements.map QualName.toJson)),
    ("uses", arr (d.uses.map TraitUse.toJson)), ("members", NodeId.listJson d.members)]

def TraitDecl.fields (d : TraitDecl) : List (String × Json) :=
  [("mods", Modifier.listJson d.mods), ("name", str d.name), ("incomplete", bool d.incomplete),
    ("uses", arr (d.uses.map TraitUse.toJson)), ("members", NodeId.listJson d.members)]

def InterfaceDecl.fields (d : InterfaceDecl) : List (String × Json) :=
  [("mods", Modifier.listJson d.mods), ("name", str d.name), ("incomplete", bool d.incomplete),
    ("extends", arr (d.supers.map QualName.toJson)), ("members", NodeId.listJson d.members)]

def VarItem.toJson (i : VarItem) : Json :=
  obj [("name", str i.name), ("span", i.span.toJson), ("init", ofOption NodeId.toJson i.init)]

def Ident.toJson (i : Ident) : Json := obj [("name", str i.name), ("span", i.span.toJson)]

def Literal.toJson : Literal → Json
  | null => .str "null"
  | bool b => obj [("bool", .bool b)]
  | int i => obj [("int", .int i)]
  | float x => obj [("float", .float x)]
  | str s => obj [("str", .str s)]

/-- The name of a kind of payload in a document. -/
def NodeKind.word : NodeKind → String
  | unit _ => "unit"
  | moduleDecl .. => "module"
  | useDecl .. => "use"
  | require .. => "require"
  | classDecl _ => "class_decl"
  | traitDecl _ => "trait_decl"
  | interfaceDecl _ => "interface_decl"
  | fnDecl _ => "fn_decl"
  | fnExpr _ => "fn_expr"
  | varDecl .. => "var_decl"
  | enumDecl .. => "enum_decl"
  | block _ => "block"
  | ifElse .. => "if"
  | whileLoop .. => "while"
  | forLoop .. => "for"
  | forIn .. => "for_in"
  | ret _ => "return"
  | exprStmt _ => "expr_stmt"
  | name _ => "name"
  | literal _ => "literal"
  | unary .. => "unary"
  | binary .. => "binary"
  | assign .. => "assign"
  | call .. => "call"
  | new .. => "new"
  | member .. => "member"
  | index .. => "index"
  | this => "this"
  | selfRef => "self"
  | super => "super"
  | engineConst _ => "engine_const"

/-- The fields of a payload in a document. -/
def NodeKind.fields : NodeKind → List (String × Json)
  | unit body => [("body", NodeId.listJson body)]
  | moduleDecl path body =>
    [("name", ofOption QualName.toJson path), ("body", NodeId.listJson body)]
  | useDecl path rename isPublic =>
    [("path", path.toJson), ("alias", ofOption str rename), ("public", bool isPublic)]
  | require path foreign => [("path", path.toJson), ("foreign", bool foreign)]
  | classDecl decl => decl.fields
  | traitDecl decl => decl.fields
  | interfaceDecl decl => decl.fields
  | fnDecl decl => decl.fields
  | fnExpr decl => decl.fields
  | varDecl mods items =>
    [("mods", Modifier.listJson mods), ("items", arr (items.map VarItem.toJson))]
  | enumDecl mods items =>
    [("mods", Modifier.listJson mods), ("items", arr (items.map VarItem.toJson))]
  | block body => [("body", NodeId.listJson body)]
  | ifElse cond thenPart otherwise =>
    [("cond", cond.toJson), ("then", thenPart.toJson),
      ("otherwise", ofOption NodeId.toJson otherwise)]
  | whileLoop cond body => [("cond", cond.toJson), ("body", body.toJson)]
  | forLoop init test step body =>
    [("init", ofOption NodeId.toJson init), ("test", ofOption NodeId.toJson test),
      ("step", ofOption NodeId.toJson step), ("body", body.toJson)]
  | forIn key value iter body =>
    [("key", ofOption Ident.toJson key), ("value", value.toJson), ("iter", iter.toJson),
      ("body", body.toJson)]
  | ret value => [("value", ofOption NodeId.toJson value)]
  | exprStmt expr => [("expr", expr.toJson)]
  | name path => [("path", path.toJson)]
  | literal value => [("value", value.toJson)]
  | unary op operand => [("op", str op), ("operand", operand.toJson)]
  | binary op lhs rhs => [("op", str op), ("lhs", lhs.toJson), ("rhs", rhs.toJson)]
  | assign op target value =>
    [("op", str op), ("target", target.toJson), ("value", value.toJson)]
  | call callee args => [("callee", callee.toJson), ("args", NodeId.listJson args)]
  | new host args => [("class", host.toJson), ("args", NodeId.listJson args)]
  | member object field => [("object", object.toJson), ("name", str field)]
  | index object position => [("object", object.toJson), ("index", position.toJson)]
  | this => []
  | selfRef => []
  | super => []
  | engineConst which => [("which", str which.word)]

def Node.toJson (n : Node) : Json :=
  obj (("kind", str n.kind.word) :: n.kind.fields ++ [("span", n.span.toJson)])

def Tree.toJson (t : Tree) : Json :=
  obj
    [("file", str t.file), ("source", ofOption str t.source),
      ("nodes", arr (t.nodes.toList.map Node.toJson)), ("root", t.root.toJson)]

end Scoping
