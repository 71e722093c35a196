import TreeCompiler.Json
import TreeCompiler.Tree

/-!
# Syntax trees to JSON

Every node becomes an object with all its fields present; what is absent is null. Nodes that come in
several kinds carry theirs under `kind`.
-/

namespace TreeCompiler

open Json (ofList ofNat ofOption)

def Position.toJson (p : Position) : Json :=
  .obj [("line", ofNat p.line.toNat), ("column", ofNat p.column.toNat),
    ("offset", ofNat p.offset.toNat)]

def Span.toJson (s : Span) : Json :=
  .obj [("start", s.start.toJson), ("end", s.stop.toJson), ("file_id", ofNat s.file.toNat)]

def QualifiedName.toJson (n : QualifiedName) : Json :=
  .str n.text

def Literal.toJson : Literal → Json
  | .bool v => .obj [("bool", .bool v)]
  | .char c => .obj [("char", .str (String.ofList [c]))]
  | .string s => .obj [("string", .str s)]
  | .int i => .obj [(i.kind.suffix, .int i.value)]
  | .f16 x => .obj [("f16", .float x.widen)]
  | .f32 x => .obj [("f32", .float x.widen)]
  | .f64 x => .obj [("f64", .float x)]
  | .null => .str "null"

mutual

def TypeExpr.toJson : TypeExpr → Json
  | .named name span =>
    .obj [("kind", .str "named"), ("name", name.toJson), ("span", span.toJson)]
  | .function params result span =>
    .obj [("kind", .str "function"), ("params", .arr (paramsToJson params)),
      ("ret", resultToJson result), ("span", span.toJson)]

def TypeExpr.paramsToJson : List TypeExpr → List Json
  | [] => []
  | t :: ts => t.toJson :: paramsToJson ts

def TypeExpr.resultToJson : Option TypeExpr → Json
  | none => .null
  | some t => t.toJson

end

def Expr.toJson : Expr → Json
  | .literal value span =>
    .obj [("kind", .str "literal"), ("value", value.toJson), ("span", span.toJson)]
  | .ident name span =>
    .obj [("kind", .str "ident"), ("name", .str name), ("span", span.toJson)]
  | .binary op lhs rhs span =>
    .obj [("kind", .str "binary"), ("op", .str op.symbol), ("lhs", lhs.toJson),
      ("rhs", rhs.toJson), ("span", span.toJson)]
  | .error span => .obj [("kind", .str "error"), ("span", span.toJson)]

def Modifier.toJson (m : Modifier) : Json :=
  .str m.keyword

def AttributeUse.toJson (a : AttributeUse) : Json :=
  .obj [("name", a.name.toJson), ("span", a.span.toJson)]

def Callee.toJson : Callee → Json
  | .unqualified name => .obj [("kind", .str "unqualified"), ("name", .str name)]
  | .qualified type name =>
    .obj [("kind", .str "qualified"), ("ty", type.toJson), ("name", .str name)]

def Stmt.toJson : Stmt → Json
  | .var name type value span =>
    .obj [("kind", .str "var"), ("name", .str name), ("ty", ofOption TypeExpr.toJson type),
      ("value", ofOption Expr.toJson value), ("span", span.toJson)]
  | .call callee args span =>
    .obj [("kind", .str "call"), ("callee", callee.toJson), ("args", ofList Expr.toJson args),
      ("span", span.toJson)]
  | .ret value span =>
    .obj [("kind", .str "return"), ("value", ofOption Expr.toJson value), ("span", span.toJson)]
  | .throw value span =>
    .obj [("kind", .str "throw"), ("value", value.toJson), ("span", span.toJson)]
  | .error span => .obj [("kind", .str "error"), ("span", span.toJson)]

def Param.toJson (p : Param) : Json :=
  .obj [("name", .str p.name), ("ty", p.type.toJson), ("default", ofOption Expr.toJson p.default),
    ("span", p.span.toJson)]

def FnDecl.entries (d : FnDecl) : List (String × Json) :=
  [("name", .str d.name), ("params", ofList Param.toJson d.params),
    ("return_type", ofOption TypeExpr.toJson d.returnType),
    ("body", ofOption (ofList Stmt.toJson) d.body), ("modifiers", ofList Modifier.toJson d.modifiers),
    ("annotations", ofList AttributeUse.toJson d.annotations), ("span", d.span.toJson)]

def FieldDecl.entries (d : FieldDecl) : List (String × Json) :=
  [("name", .str d.name), ("ty", d.type.toJson), ("value", ofOption Expr.toJson d.value),
    ("modifiers", ofList Modifier.toJson d.modifiers),
    ("annotations", ofList AttributeUse.toJson d.annotations), ("span", d.span.toJson)]

def Accessor.toJson (a : Accessor) : Json :=
  .obj [("modifiers", ofList Modifier.toJson a.modifiers), ("span", a.span.toJson)]

def PropertyDecl.entries (d : PropertyDecl) : List (String × Json) :=
  [("name", .str d.name), ("ty", d.type.toJson), ("getter", ofOption Accessor.toJson d.getter),
    ("setter", ofOption Accessor.toJson d.setter), ("modifiers", ofList Modifier.toJson d.modifiers),
    ("annotations", ofList AttributeUse.toJson d.annotations), ("span", d.span.toJson)]

def Member.toJson : Member → Json
  | .field d => .obj (("kind", .str "field") :: d.entries)
  | .method d => .obj (("kind", .str "method") :: d.entries)
  | .property d => .obj (("kind", .str "property") :: d.entries)
  | .error span => .obj [("kind", .str "error"), ("span", span.toJson)]

def TypeDecl.entries (d : TypeDecl) : List (String × Json) :=
  [("type", .str d.kind.keyword), ("name", .str d.name), ("bases", ofList TypeExpr.toJson d.bases),
    ("members", ofList Member.toJson d.members), ("modifiers", ofList Modifier.toJson d.modifiers),
    ("annotations", ofList AttributeUse.toJson d.annotations), ("span", d.span.toJson)]

def EnumMember.toJson (m : EnumMember) : Json :=
  .obj [("name", .str m.name), ("ty", ofOption TypeExpr.toJson m.type),
    ("value", ofOption Expr.toJson m.value), ("span", m.span.toJson)]

def EnumDecl.entries (d : EnumDecl) : List (String × Json) :=
  [("name", .str d.name), ("underlying", ofOption TypeExpr.toJson d.underlying),
    ("members", ofList EnumMember.toJson d.members),
    ("modifiers", ofList Modifier.toJson d.modifiers),
    ("annotations", ofList AttributeUse.toJson d.annotations), ("span", d.span.toJson)]

def VariantField.toJson (f : VariantField) : Json :=
  .obj [("name", .str f.name), ("ty", f.type.toJson),
    ("modifiers", ofList Modifier.toJson f.modifiers), ("span", f.span.toJson)]

def Variant.toJson (v : Variant) : Json :=
  .obj [("name", .str v.name), ("fields", ofList VariantField.toJson v.fields),
    ("span", v.span.toJson)]

def TaggedUnionDecl.entries (d : TaggedUnionDecl) : List (String × Json) :=
  [("name", .str d.name), ("variants", ofList Variant.toJson d.variants),
    ("modifiers", ofList Modifier.toJson d.modifiers),
    ("annotations", ofList AttributeUse.toJson d.annotations), ("span", d.span.toJson)]

def UnionField.toJson (f : UnionField) : Json :=
  .obj [("name", .str f.name), ("ty", f.type.toJson), ("offset", ofOption Expr.toJson f.offset),
    ("annotations", ofList AttributeUse.toJson f.annotations), ("span", f.span.toJson)]

def UnionDecl.entries (d : UnionDecl) : List (String × Json) :=
  [("name", .str d.name), ("fields", ofList UnionField.toJson d.fields),
    ("modifiers", ofList Modifier.toJson d.modifiers),
    ("annotations", ofList AttributeUse.toJson d.annotations), ("span", d.span.toJson)]

def Decl.toJson : Decl → Json
  | .type d => .obj (("kind", .str "type") :: d.entries)
  | .enum d => .obj (("kind", .str "enum") :: d.entries)
  | .taggedUnion d => .obj (("kind", .str "tagged_union") :: d.entries)
  | .union d => .obj (("kind", .str "union") :: d.entries)
  | .fn d => .obj (("kind", .str "fn") :: d.entries)
  | .error span => .obj [("kind", .str "error"), ("span", span.toJson)]

def Tree.toJson (t : Tree) : Json :=
  .obj [("module", t.module.toJson), ("file", ofOption .str t.file),
    ("source", ofOption .str t.source), ("body", ofList Decl.toJson t.body)]

end TreeCompiler
