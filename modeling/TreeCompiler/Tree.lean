import TreeCompiler.Name
import TreeCompiler.Number.Binary
import TreeCompiler.Operator
import TreeCompiler.Primitive
import TreeCompiler.Span

/-!
# Syntax trees

One `Tree` holds the declarations of a source module as a parser hands them over. Where the parser
could not make sense of its input it leaves an `error` node.
-/

namespace TreeCompiler

open Number

inductive Literal where
  | bool (value : Bool)
  | char (value : Char)
  | string (value : String)
  | int (value : Integer)
  | f16 (value : Single)
  | f32 (value : Single)
  | f64 (value : Double)
  | null
deriving DecidableEq, Repr

namespace Literal

def typeAlias : Literal → String
  | .bool _ => "bool"
  | .char _ => "char"
  | .string _ => "string"
  | .int i => i.kind.suffix
  | .f16 _ => "f16"
  | .f32 _ => "f32"
  | .f64 _ => "f64"
  | .null => "obj"

/-- The number that an integer or a character stands for, if it fits 64 bits with a sign. -/
def integer? : Literal → Option Int
  | .int i => if IntKind.i64.holds i.value then some i.value else none
  | .char c => some c.toNat
  | _ => none

end Literal

inductive TypeExpr where
  | named (name : QualifiedName) (span : Span)
  /-- A function type; no result means that nothing is returned. -/
  | function (params : List TypeExpr) (result : Option TypeExpr) (span : Span)
deriving Repr, Inhabited

def TypeExpr.span : TypeExpr → Span
  | .named _ s => s
  | .function _ _ s => s

inductive Expr where
  | literal (value : Literal) (span : Span)
  | ident (name : String) (span : Span)
  | binary (op : Operator) (lhs rhs : Expr) (span : Span)
  | error (span : Span)
deriving DecidableEq, Repr

namespace Expr

def span : Expr → Span
  | .literal _ s => s
  | .ident _ s => s
  | .binary _ _ _ s => s
  | .error s => s

def literal? : Expr → Option Literal
  | .literal value _ => some value
  | _ => none

def ofInt (value : Int) : Expr :=
  .literal (.int (.ofWrapped .i32 value)) {}

def ofString (value : String) : Expr :=
  .literal (.string value) {}

def ofName (name : String) : Expr :=
  .ident name {}

def join (op : Operator) (lhs rhs : Expr) : Except FileMismatch Expr := do
  let span ← lhs.span.merge rhs.span
  return .binary op lhs rhs span

end Expr

inductive Modifier where
  | static
  | abstract
  | sealed
  | overriding
  | foreign
  | operator
  | mutable
  | publicAccess
  | privateAccess
  | protectedAccess
  | internalAccess
deriving DecidableEq, Repr

namespace Modifier

def all : List Modifier :=
  [.static, .abstract, .sealed, .overriding, .foreign, .operator, .mutable,
   .publicAccess, .privateAccess, .protectedAccess, .internalAccess]

def keyword : Modifier → String
  | .static => "static"
  | .abstract => "abstract"
  | .sealed => "sealed"
  | .overriding => "override"
  | .foreign => "extern"
  | .operator => "operator"
  | .mutable => "mutable"
  | .publicAccess => "public"
  | .privateAccess => "private"
  | .protectedAccess => "protected"
  | .internalAccess => "internal"

def ofKeyword? (s : String) : Option Modifier :=
  all.find? (·.keyword == s)

end Modifier

/-- An attribute by name, written before a declaration. -/
structure AttributeUse where
  name : QualifiedName
  span : Span := {}
deriving DecidableEq, Repr

inductive Callee where
  | unqualified (name : String)
  | qualified (type : QualifiedName) (name : String)
deriving DecidableEq, Repr

inductive Stmt where
  | var (name : String) (type : Option TypeExpr) (value : Option Expr) (span : Span)
  | call (callee : Callee) (args : List Expr) (span : Span)
  | ret (value : Option Expr) (span : Span)
  | throw (value : Expr) (span : Span)
  | error (span : Span)
deriving Repr

def Stmt.span : Stmt → Span
  | .var _ _ _ s => s
  | .call _ _ s => s
  | .ret _ s => s
  | .throw _ s => s
  | .error s => s

structure Param where
  name : String
  type : TypeExpr
  default : Option Expr := none
  span : Span := {}
deriving Repr

/-- A function or a method; one that is abstract or implemented elsewhere has no body. -/
structure FnDecl where
  name : String
  params : List Param := []
  returnType : Option TypeExpr := none
  body : Option (List Stmt) := none
  modifiers : List Modifier := []
  annotations : List AttributeUse := []
  span : Span := {}
deriving Repr

structure FieldDecl where
  name : String
  type : TypeExpr
  value : Option Expr := none
  modifiers : List Modifier := []
  annotations : List AttributeUse := []
  span : Span := {}
deriving Repr

structure Accessor where
  modifiers : List Modifier := []
  span : Span := {}
deriving DecidableEq, Repr

structure PropertyDecl where
  name : String
  type : TypeExpr
  getter : Option Accessor := none
  setter : Option Accessor := none
  modifiers : List Modifier := []
  annotations : List AttributeUse := []
  span : Span := {}
deriving Repr

inductive Member where
  | field (decl : FieldDecl)
  | method (decl : FnDecl)
  | property (decl : PropertyDecl)
  | error (span : Span)
deriving Repr

def Member.span : Member → Span
  | .field d => d.span
  | .method d => d.span
  | .property d => d.span
  | .error s => s

inductive TypeKind where
  | classType
  | structType
  | interfaceType
deriving DecidableEq, Repr

namespace TypeKind

def all : List TypeKind :=
  [.classType, .structType, .interfaceType]

def keyword : TypeKind → String
  | .classType => "class"
  | .structType => "struct"
  | .interfaceType => "interface"

def ofKeyword? (s : String) : Option TypeKind :=
  all.find? (·.keyword == s)

end TypeKind

structure TypeDecl where
  kind : TypeKind
  name : String
  bases : List TypeExpr := []
  members : List Member := []
  modifiers : List Modifier := []
  annotations : List AttributeUse := []
  span : Span := {}
deriving Repr

/-- A member of an enumeration; an explicit value has to be an integer literal. -/
structure EnumMember where
  name : String
  type : Option TypeExpr := none
  value : Option Expr := none
  span : Span := {}
deriving Repr

structure EnumDecl where
  name : String
  underlying : Option TypeExpr := none
  members : List EnumMember
  modifiers : List Modifier := []
  annotations : List AttributeUse := []
  span : Span := {}
deriving Repr

structure VariantField where
  name : String
  type : TypeExpr
  modifiers : List Modifier := []
  span : Span := {}
deriving Repr

structure Variant where
  name : String
  fields : List VariantField := []
  span : Span := {}
deriving Repr

structure TaggedUnionDecl where
  name : String
  variants : List Variant
  modifiers : List Modifier := []
  annotations : List AttributeUse := []
  span : Span := {}
deriving Repr

structure UnionField where
  name : String
  type : TypeExpr
  offset : Option Expr := none
  annotations : List AttributeUse := []
  span : Span := {}
deriving Repr

/-- Fields that share their storage, each at its own byte offset. -/
structure UnionDecl where
  name : String
  fields : List UnionField
  modifiers : List Modifier := []
  annotations : List AttributeUse := []
  span : Span := {}
deriving Repr

inductive Decl where
  | type (decl : TypeDecl)
  | enum (decl : EnumDecl)
  | taggedUnion (decl : TaggedUnionDecl)
  | union (decl : UnionDecl)
  | fn (decl : FnDecl)
  | error (span : Span)
deriving Repr

def Decl.span : Decl → Span
  | .type d => d.span
  | .enum d => d.span
  | .taggedUnion d => d.span
  | .union d => d.span
  | .fn d => d.span
  | .error s => s

/-- One source module; the name of the file and its text serve diagnostics only. -/
structure Tree where
  module : QualifiedName := .global
  file : Option String := none
  source : Option String := none
  body : List Decl
deriving Repr

end TreeCompiler
