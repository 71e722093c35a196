import TreeCompiler.Json
import TreeCompiler.Tree

/-!
# Syntax trees from JSON

The inverse of writing a tree, more liberal in three ways: fields that have a natural default may be
missing, unknown fields are ignored, and the fields of a node may stand in an array, after its kind.
What stands inside a node has two spellings more than what stands alone: see `Standing`.
-/

namespace TreeCompiler

open Json (defaulted list? optional u32? u64?)

def Position.ofJson? (j : Json) : Option Position := do
  let j ← j.record? ["line", "column", "offset"]
  let line ← u32? (← j.field? "line")
  let column ← u32? (← j.field? "column")
  let offset ← defaulted 0 u64? (j.field? "offset")
  return { line, column, offset }

def Span.ofJson? (j : Json) : Option Span := do
  let j ← j.record? ["start", "end", "file_id"]
  let start ← Position.ofJson? (← j.field? "start")
  let stop ← Position.ofJson? (← j.field? "end")
  let file ← defaulted 0 u32? (j.field? "file_id")
  return { start, stop, file }

def Span.ofField? (j : Json) : Option Span :=
  defaulted {} Span.ofJson? (j.field? "span")

def Span.ofRecord? (j : Json) : Option Span := do
  Span.ofField? (← j.record? ["span"])

def QualifiedName.ofJson? (j : Json) : Option QualifiedName :=
  j.str?.map QualifiedName.ofText

/-! ## Kinds and words -/

/-- Where a value stands. Inside a node, a kind may also be given by its place in the list of kinds,
and an empty object passes for null. -/
inductive Standing where
  | alone
  | inside
deriving DecidableEq, Repr

namespace Standing

def isNull : Standing → Json → Bool
  | _, .null => true
  | .inside, .obj [] => true
  | _, _ => false

def kind? (s : Standing) (kinds : List String) (tag : Json) : Option String :=
  match s, tag with
  | _, .str name => if kinds.contains name then some name else none
  | .inside, .int (.ofNat place) => kinds[place]?
  | _, _ => none

/-- A node of one of `kinds`: its kind and the record of its fields. The kind is a field of an object
and the first item of an array. -/
def node? (s : Standing) (kinds : List String) (j : Json) : Option (String × Json) := do
  match j with
  | .arr (tag :: items) => return (← s.kind? kinds tag, .arr items)
  | _ =>
    let object ← j.record? ["kind"]
    return (← s.kind? kinds (← object.field? "kind"), object)

/-- A word by itself, or as the one key of an object whose value is null. -/
def word? (s : Standing) : Json → Option String
  | .str word => some word
  | .obj [(word, j)] => if s.isNull j then some word else none
  | _ => none

end Standing

/-! ## Expressions -/

namespace Literal

/-- A number as a single: an integer is rounded once, a double is narrowed. -/
def single? : Json → Option Number.Single
  | .int i => some ⟨UInt32.ofNat (Number.single.ofParts (i < 0) i.natAbs 0)⟩
  | .float x => some x.narrow
  | _ => none

def double? : Json → Option Number.Double
  | .int i => some (.ofInt i)
  | .float x => some x
  | _ => none

def char? (j : Json) : Option Char :=
  match j.str?.map String.toList with
  | some [c] => some c
  | _ => none

def int? (k : IntKind) (j : Json) : Option Integer :=
  j.int?.bind (Integer.ofInt? k)

/-- The payload of a literal, by the word that says its type. -/
def payload? (s : Standing) (word : String) (j : Json) : Option Literal :=
  match word with
  | "bool" => j.bool?.map .bool
  | "char" => (char? j).map .char
  | "string" => j.str?.map .string
  | "f16" => (single? j).map .f16
  | "f32" => (single? j).map .f32
  | "f64" => (double? j).map .f64
  | "null" => if s.isNull j then some .null else none
  | _ => do
    let k ← IntKind.all.find? (·.suffix == word)
    return .int (← int? k j)

def ofJson? (s : Standing) : Json → Option Literal
  | .str "null" => some .null
  | .obj [(word, j)] => payload? s word j
  | _ => none

end Literal

def TypeExpr.ofJsonWith? : Nat → Json → Option TypeExpr
  | 0, _ => none
  | fuel + 1, j => do
    let (kind, j) ← Standing.inside.node? ["named", "function"] j
    if kind = "named" then
      let j ← j.record? ["name", "span"]
      let name ← QualifiedName.ofJson? (← j.field? "name")
      return .named name (← Span.ofField? j)
    else
      let j ← j.record? ["params", "ret", "span"]
      let params ← list? (ofJsonWith? fuel) (← j.field? "params")
      let result ← optional (ofJsonWith? fuel) (j.field? "ret")
      return .function params result (← Span.ofField? j)

def TypeExpr.ofJson? (j : Json) : Option TypeExpr :=
  ofJsonWith? j.depth j

def Operator.ofJson? (j : Json) : Option Operator :=
  j.str?.bind Operator.ofSymbol?

def Expr.ofJsonWith? : Nat → Standing → Json → Option Expr
  | 0, _, _ => none
  | fuel + 1, s, j => do
    let (kind, j) ← s.node? ["literal", "ident", "binary", "error"] j
    match kind with
    | "literal" =>
      let j ← j.record? ["value", "span"]
      return .literal (← Literal.ofJson? .inside (← j.field? "value")) (← Span.ofField? j)
    | "ident" =>
      let j ← j.record? ["name", "span"]
      return .ident (← (← j.field? "name").str?) (← Span.ofField? j)
    | "binary" =>
      let j ← j.record? ["op", "lhs", "rhs", "span"]
      let op ← Operator.ofJson? (← j.field? "op")
      let lhs ← ofJsonWith? fuel .inside (← j.field? "lhs")
      let rhs ← ofJsonWith? fuel .inside (← j.field? "rhs")
      return .binary op lhs rhs (← Span.ofField? j)
    | _ => return .error (← Span.ofRecord? j)

def Expr.ofJson? (s : Standing) (j : Json) : Option Expr :=
  ofJsonWith? j.depth s j

/-! ## Declarations -/

def Modifier.ofJson? (s : Standing) (j : Json) : Option Modifier :=
  (s.word? j).bind Modifier.ofKeyword?

def TypeKind.ofJson? (s : Standing) (j : Json) : Option TypeKind :=
  (s.word? j).bind TypeKind.ofKeyword?

def AttributeUse.ofJson? (j : Json) : Option AttributeUse := do
  let j ← j.record? ["name", "span"]
  return { name := ← QualifiedName.ofJson? (← j.field? "name"), span := ← Span.ofField? j }

def Callee.ofJson? (j : Json) : Option Callee := do
  let (kind, j) ← Standing.inside.node? ["unqualified", "qualified"] j
  match kind with
  | "unqualified" =>
    let j ← j.record? ["name"]
    return .unqualified (← (← j.field? "name").str?)
  | _ =>
    let j ← j.record? ["ty", "name"]
    let type ← QualifiedName.ofJson? (← j.field? "ty")
    return .qualified type (← (← j.field? "name").str?)

def Stmt.ofJson? (j : Json) : Option Stmt := do
  let (kind, j) ← Standing.inside.node? ["var", "call", "return", "throw", "error"] j
  match kind with
  | "var" =>
    let j ← j.record? ["name", "ty", "value", "span"]
    let name ← (← j.field? "name").str?
    let type ← optional TypeExpr.ofJson? (j.field? "ty")
    let value ← optional (Expr.ofJson? .inside) (j.field? "value")
    return .var name type value (← Span.ofField? j)
  | "call" =>
    let j ← j.record? ["callee", "args", "span"]
    let callee ← Callee.ofJson? (← j.field? "callee")
    let args ← defaulted [] (list? (Expr.ofJson? .inside)) (j.field? "args")
    return .call callee args (← Span.ofField? j)
  | "return" =>
    let j ← j.record? ["value", "span"]
    let value ← optional (Expr.ofJson? .inside) (j.field? "value")
    return .ret value (← Span.ofField? j)
  | "throw" =>
    let j ← j.record? ["value", "span"]
    return .throw (← Expr.ofJson? .inside (← j.field? "value")) (← Span.ofField? j)
  | _ => return .error (← Span.ofRecord? j)

def Param.ofJson? (j : Json) : Option Param := do
  let j ← j.record? ["name", "ty", "default", "span"]
  let name ← (← j.field? "name").str?
  let type ← TypeExpr.ofJson? (← j.field? "ty")
  let default ← optional (Expr.ofJson? .inside) (j.field? "default")
  return { name, type, default, span := ← Span.ofField? j }

/-- Modifiers of a declaration, none by default. -/
def modifiers? (j : Json) : Option (List Modifier) :=
  defaulted [] (list? (Modifier.ofJson? .inside)) (j.field? "modifiers")

/-- Annotations of a declaration, none by default. -/
def annotations? (j : Json) : Option (List AttributeUse) :=
  defaulted [] (list? AttributeUse.ofJson?) (j.field? "annotations")

def FnDecl.ofJson? (j : Json) : Option FnDecl := do
  let j ← j.record? ["name", "params", "return_type", "body", "modifiers", "annotations", "span"]
  let name ← (← j.field? "name").str?
  let params ← defaulted [] (list? Param.ofJson?) (j.field? "params")
  let returnType ← optional TypeExpr.ofJson? (j.field? "return_type")
  let body ← optional (list? Stmt.ofJson?) (j.field? "body")
  let modifiers ← modifiers? j
  let annotations ← annotations? j
  return { name, params, returnType, body, modifiers, annotations, span := ← Span.ofField? j }

def FieldDecl.ofJson? (j : Json) : Option FieldDecl := do
  let j ← j.record? ["name", "ty", "value", "modifiers", "annotations", "span"]
  let name ← (← j.field? "name").str?
  let type ← TypeExpr.ofJson? (← j.field? "ty")
  let value ← optional (Expr.ofJson? .inside) (j.field? "value")
  let modifiers ← modifiers? j
  let annotations ← annotations? j
  return { name, type, value, modifiers, annotations, span := ← Span.ofField? j }

def Accessor.ofJson? (j : Json) : Option Accessor := do
  let j ← j.record? ["modifiers", "span"]
  return { modifiers := ← modifiers? j, span := ← Span.ofField? j }

def PropertyDecl.ofJson? (j : Json) : Option PropertyDecl := do
  let j ← j.record? ["name", "ty", "getter", "setter", "modifiers", "annotations", "span"]
  let name ← (← j.field? "name").str?
  let type ← TypeExpr.ofJson? (← j.field? "ty")
  let getter ← optional Accessor.ofJson? (j.field? "getter")
  let setter ← optional Accessor.ofJson? (j.field? "setter")
  let modifiers ← modifiers? j
  let annotations ← annotations? j
  return { name, type, getter, setter, modifiers, annotations, span := ← Span.ofField? j }

def Member.ofJson? (s : Standing) (j : Json) : Option Member := do
  let (kind, j) ← s.node? ["field", "method", "property", "error"] j
  match kind with
  | "field" => return .field (← FieldDecl.ofJson? j)
  | "method" => return .method (← FnDecl.ofJson? j)
  | "property" => return .property (← PropertyDecl.ofJson? j)
  | _ => return .error (← Span.ofRecord? j)

def TypeDecl.ofJson? (j : Json) : Option TypeDecl := do
  let j ← j.record? ["type", "name", "bases", "members", "modifiers", "annotations", "span"]
  let kind ← TypeKind.ofJson? .inside (← j.field? "type")
  let name ← (← j.field? "name").str?
  let bases ← defaulted [] (list? TypeExpr.ofJson?) (j.field? "bases")
  let members ← defaulted [] (list? (Member.ofJson? .inside)) (j.field? "members")
  let modifiers ← modifiers? j
  let annotations ← annotations? j
  return { kind, name, bases, members, modifiers, annotations, span := ← Span.ofField? j }

def EnumMember.ofJson? (j : Json) : Option EnumMember := do
  let j ← j.record? ["name", "ty", "value", "span"]
  let name ← (← j.field? "name").str?
  let type ← optional TypeExpr.ofJson? (j.field? "ty")
  let value ← optional (Expr.ofJson? .inside) (j.field? "value")
  return { name, type, value, span := ← Span.ofField? j }

def EnumDecl.ofJson? (j : Json) : Option EnumDecl := do
  let j ← j.record? ["name", "underlying", "members", "modifiers", "annotations", "span"]
  let name ← (← j.field? "name").str?
  let underlying ← optional TypeExpr.ofJson? (j.field? "underlying")
  let members ← list? EnumMember.ofJson? (← j.field? "members")
  let modifiers ← modifiers? j
  let annotations ← annotations? j
  return { name, underlying, members, modifiers, annotations, span := ← Span.ofField? j }

def VariantField.ofJson? (j : Json) : Option VariantField := do
  let j ← j.record? ["name", "ty", "modifiers", "span"]
  let name ← (← j.field? "name").str?
  let type ← TypeExpr.ofJson? (← j.field? "ty")
  let modifiers ← modifiers? j
  return { name, type, modifiers, span := ← Span.ofField? j }

def Variant.ofJson? (j : Json) : Option Variant := do
  let j ← j.record? ["name", "fields", "span"]
  let name ← (← j.field? "name").str?
  let fields ← defaulted [] (list? VariantField.ofJson?) (j.field? "fields")
  return { name, fields, span := ← Span.ofField? j }

def TaggedUnionDecl.ofJson? (j : Json) : Option TaggedUnionDecl := do
  let j ← j.record? ["name", "variants", "modifiers", "annotations", "span"]
  let name ← (← j.field? "name").str?
  let variants ← list? Variant.ofJson? (← j.field? "variants")
  let modifiers ← modifiers? j
  let annotations ← annotations? j
  return { name, variants, modifiers, annotations, span := ← Span.ofField? j }

def UnionField.ofJson? (j : Json) : Option UnionField := do
  let j ← j.record? ["name", "ty", "offset", "annotations", "span"]
  let name ← (← j.field? "name").str?
  let type ← TypeExpr.ofJson? (← j.field? "ty")
  let offset ← optional (Expr.ofJson? .inside) (j.field? "offset")
  let annotations ← annotations? j
  return { name, type, offset, annotations, span := ← Span.ofField? j }

def UnionDecl.ofJson? (j : Json) : Option UnionDecl := do
  let j ← j.record? ["name", "fields", "modifiers", "annotations", "span"]
  let name ← (← j.field? "name").str?
  let fields ← list? UnionField.ofJson? (← j.field? "fields")
  let modifiers ← modifiers? j
  let annotations ← annotations? j
  return { name, fields, modifiers, annotations, span := ← Span.ofField? j }

namespace Decl

def ofKind? (kind : String) (j : Json) : Option Decl := do
  match kind with
  | "type" => return .type (← TypeDecl.ofJson? j)
  | "enum" => return .enum (← EnumDecl.ofJson? j)
  | "tagged_union" => return .taggedUnion (← TaggedUnionDecl.ofJson? j)
  | "union" => return .union (← UnionDecl.ofJson? j)
  | "fn" => return .fn (← FnDecl.ofJson? j)
  | "error" => return .error (← Span.ofRecord? j)
  | _ => none

def kinds : List String :=
  ["type", "enum", "tagged_union", "union", "fn", "error"]

def ofJson? (j : Json) : Option Decl := do
  let (kind, j) ← Standing.alone.node? kinds j
  ofKind? kind j

end Decl

def Tree.memberKeys : List String :=
  ["module", "file", "source", "body"]

def Tree.ofJson? (j : Json) : Option Tree := do
  let j ← j.record? memberKeys
  let module ← defaulted .global QualifiedName.ofJson? (j.field? "module")
  let file ← optional Json.str? (j.field? "file")
  let source ← optional Json.str? (j.field? "source")
  let body ← list? Decl.ofJson? (← j.field? "body")
  return { module, file, source, body }

end TreeCompiler
