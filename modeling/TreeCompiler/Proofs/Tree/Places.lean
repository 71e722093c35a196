import TreeCompiler.Tree

/-!
# Trees without places

`gist` is what is left of a node, and of a whole tree, if nothing is said about where it stands in a source:
all regions are the empty one, and a tree has neither the name of its file nor its text.
-/

namespace TreeCompiler

def Expr.gist : Expr → Expr
  | .literal value _ => .literal value {}
  | .ident name _ => .ident name {}
  | .binary op lhs rhs _ => .binary op lhs.gist rhs.gist {}
  | .error _ => .error {}

mutual

def TypeExpr.gist : TypeExpr → TypeExpr
  | .named name _ => .named name {}
  | .function params result _ => .function (gistParams params) (gistResult result) {}

def TypeExpr.gistParams : List TypeExpr → List TypeExpr
  | [] => []
  | t :: ts => t.gist :: gistParams ts

def TypeExpr.gistResult : Option TypeExpr → Option TypeExpr
  | none => none
  | some t => some t.gist

end

def AttributeUse.gist (a : AttributeUse) : AttributeUse :=
  { a with span := {} }

def Stmt.gist : Stmt → Stmt
  | .var name type value _ => .var name (type.map TypeExpr.gist) (value.map Expr.gist) {}
  | .call callee args _ => .call callee (args.map Expr.gist) {}
  | .ret value _ => .ret (value.map Expr.gist) {}
  | .throw value _ => .throw value.gist {}
  | .error _ => .error {}

def Param.gist (p : Param) : Param :=
  { p with type := p.type.gist, default := p.default.map Expr.gist, span := {} }

def FnDecl.gist (d : FnDecl) : FnDecl :=
  { d with
    params := d.params.map Param.gist
    returnType := d.returnType.map TypeExpr.gist
    body := d.body.map (·.map Stmt.gist)
    annotations := d.annotations.map AttributeUse.gist
    span := {} }

def FieldDecl.gist (d : FieldDecl) : FieldDecl :=
  { d with
    type := d.type.gist
    value := d.value.map Expr.gist
    annotations := d.annotations.map AttributeUse.gist
    span := {} }

def Accessor.gist (a : Accessor) : Accessor :=
  { a with span := {} }

def PropertyDecl.gist (d : PropertyDecl) : PropertyDecl :=
  { d with
    type := d.type.gist
    getter := d.getter.map Accessor.gist
    setter := d.setter.map Accessor.gist
    annotations := d.annotations.map AttributeUse.gist
    span := {} }

def Member.gist : Member → Member
  | .field d => .field d.gist
  | .method d => .method d.gist
  | .property d => .property d.gist
  | .error _ => .error {}

def TypeDecl.gist (d : TypeDecl) : TypeDecl :=
  { d with
    bases := d.bases.map TypeExpr.gist
    members := d.members.map Member.gist
    annotations := d.annotations.map AttributeUse.gist
    span := {} }

def EnumMember.gist (m : EnumMember) : EnumMember :=
  { m with type := m.type.map TypeExpr.gist, value := m.value.map Expr.gist, span := {} }

def EnumDecl.gist (d : EnumDecl) : EnumDecl :=
  { d with
    underlying := d.underlying.map TypeExpr.gist
    members := d.members.map EnumMember.gist
    annotations := d.annotations.map AttributeUse.gist
    span := {} }

def VariantField.gist (f : VariantField) : VariantField :=
  { f with type := f.type.gist, span := {} }

def Variant.gist (v : Variant) : Variant :=
  { v with fields := v.fields.map VariantField.gist, span := {} }

def TaggedUnionDecl.gist (d : TaggedUnionDecl) : TaggedUnionDecl :=
  { d with
    variants := d.variants.map Variant.gist
    annotations := d.annotations.map AttributeUse.gist
    span := {} }

def UnionField.gist (f : UnionField) : UnionField :=
  { f with
    type := f.type.gist
    offset := f.offset.map Expr.gist
    annotations := f.annotations.map AttributeUse.gist
    span := {} }

def UnionDecl.gist (d : UnionDecl) : UnionDecl :=
  { d with
    fields := d.fields.map UnionField.gist
    annotations := d.annotations.map AttributeUse.gist
    span := {} }

def Decl.gist : Decl → Decl
  | .type d => .type d.gist
  | .enum d => .enum d.gist
  | .taggedUnion d => .taggedUnion d.gist
  | .union d => .union d.gist
  | .fn d => .fn d.gist
  | .error _ => .error {}

def Tree.gist (t : Tree) : Tree where
  module := t.module
  body := t.body.map Decl.gist

end TreeCompiler
