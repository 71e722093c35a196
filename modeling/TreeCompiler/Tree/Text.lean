import TreeCompiler.Number.Decimal
import TreeCompiler.Text.Lines
import TreeCompiler.Text.Quoted
import TreeCompiler.Tree

/-!
# Syntax trees as source text

Every node has a `text` that looks like source. An expression is first laid out as tokens, with
parentheses only where the precedences of the operators ask for them.
-/

namespace TreeCompiler

def Literal.text : Literal → String
  | .bool v => if v then "true" else "false"
  | .char c => Text.Quoted.char c
  | .string s => Text.Quoted.shown s
  | .int i => if i.kind = .i32 then toString i.value else toString i.value ++ i.kind.suffix
  | .f16 x => x.plain ++ "f16"
  | .f32 x => x.plain ++ "f32"
  | .f64 x => x.precise
  | .null => "none"

def commaList (texts : List String) : String :=
  ", ".intercalate texts

mutual

def TypeExpr.text : TypeExpr → String
  | .named name _ => name.text
  | .function params result _ => "(" ++ commaList (texts params) ++ ") -> " ++ resultText result

def TypeExpr.texts : List TypeExpr → List String
  | [] => []
  | t :: ts => t.text :: texts ts

def TypeExpr.resultText : Option TypeExpr → String
  | none => "none"
  | some t => t.text

end

/-! ## Expressions -/

inductive Leaf where
  | literal (value : Literal)
  | ident (name : String)
  | error
deriving DecidableEq, Repr

inductive ExprToken where
  | leaf (l : Leaf)
  | op (o : Operator)
  | opening
  | closing
deriving DecidableEq, Repr

namespace Operator

/-- Least precedence of an operator that stands bare on the left. -/
def leftMin (o : Operator) : Nat :=
  match o.associativity with
  | .left => o.precedence
  | .right => o.precedence + 1

/-- Least precedence of an operator that stands bare on the right. -/
def rightMin (o : Operator) : Nat :=
  match o.associativity with
  | .left => o.precedence + 1
  | .right => o.precedence

end Operator

/-- The tokens of an expression where an operator below precedence `min` takes parentheses. -/
def Expr.tokens (min : Nat) : Expr → List ExprToken
  | .literal value _ => [.leaf (.literal value)]
  | .ident name _ => [.leaf (.ident name)]
  | .error _ => [.leaf .error]
  | .binary op lhs rhs _ =>
    let body := lhs.tokens op.leftMin ++ .op op :: rhs.tokens op.rightMin
    if op.precedence < min then .opening :: body ++ [.closing] else body

def Leaf.text : Leaf → String
  | .literal value => value.text
  | .ident name => name
  | .error => "<error>"

def ExprToken.text : ExprToken → String
  | .leaf l => l.text
  | .op o => " " ++ o.symbol ++ " "
  | .opening => "("
  | .closing => ")"

def Expr.text (e : Expr) : String :=
  String.join ((e.tokens 0).map ExprToken.text)

/-! ## Statements -/

def Callee.text : Callee → String
  | .unqualified name => name
  | .qualified type name => type.text ++ "::" ++ name

/-- `lead` and the text of what is there, or nothing. -/
def withLead {α : Type} (lead : String) (text : α → String) : Option α → String
  | none => ""
  | some a => lead ++ text a

def Stmt.text : Stmt → String
  | .var name type value _ =>
    "let " ++ name ++ withLead ": " TypeExpr.text type ++ withLead " = " Expr.text value ++ ";"
  | .call callee args _ => callee.text ++ "(" ++ commaList (args.map Expr.text) ++ ");"
  | .ret value _ => "return" ++ withLead " " Expr.text value ++ ";"
  | .throw value _ => "throw " ++ value.text ++ ";"
  | .error _ => "<error>;"

/-! ## Declarations -/

/-- Annotations on lines of their own, then the modifiers. -/
def headerText (annotations : List AttributeUse) (modifiers : List Modifier) : String :=
  String.join (annotations.map fun a => "@" ++ a.name.text ++ "\n")
    ++ String.join (modifiers.map fun m => m.keyword ++ " ")

def Param.text (p : Param) : String :=
  p.name ++ ": " ++ p.type.text ++ withLead " = " Expr.text p.default

def blockText (lines : List String) : String :=
  " \x7b\n" ++ String.join (lines.map fun l => "    " ++ l ++ "\n") ++ "\x7d"

def FnDecl.text (d : FnDecl) : String :=
  headerText d.annotations d.modifiers
    ++ "fn " ++ d.name ++ "(" ++ commaList (d.params.map Param.text) ++ ")"
    ++ withLead " -> " TypeExpr.text d.returnType
    ++ match d.body with
      | none => ";"
      | some stmts => blockText (stmts.map Stmt.text)

def FieldDecl.text (d : FieldDecl) : String :=
  headerText [] d.modifiers ++ "let " ++ d.name ++ ": " ++ d.type.text
    ++ withLead " = " Expr.text d.value ++ ";"

def PropertyDecl.text (d : PropertyDecl) : String :=
  "prop " ++ d.name ++ ": " ++ d.type.text ++ " \x7b"
    ++ (if d.getter.isSome then " get;" else "")
    ++ (match d.setter with
      | none => ""
      | some a => String.join (a.modifiers.map fun m => " " ++ m.keyword) ++ " set;")
    ++ " \x7d"

def Member.text : Member → String
  | .field d => d.text
  | .method d => d.text
  | .property d => d.text
  | .error _ => "<error>"

def TypeDecl.text (d : TypeDecl) : String :=
  headerText d.annotations d.modifiers ++ d.kind.keyword ++ " " ++ d.name
    ++ (if d.bases.isEmpty then "" else " : " ++ commaList (d.bases.map TypeExpr.text))
    ++ blockText (d.members.flatMap fun m => Text.lines m.text)

def EnumMember.text (m : EnumMember) : String :=
  m.name ++ withLead " = " Expr.text m.value ++ ","

def EnumDecl.text (d : EnumDecl) : String :=
  headerText d.annotations d.modifiers ++ "enum " ++ d.name
    ++ withLead " : " TypeExpr.text d.underlying ++ blockText (d.members.map EnumMember.text)

def VariantField.text (f : VariantField) : String :=
  (if f.modifiers.contains .mutable then "mutable " else "") ++ f.name ++ ": " ++ f.type.text

def Variant.text (v : Variant) : String :=
  v.name ++ "(" ++ commaList (v.fields.map VariantField.text) ++ ")"

def TaggedUnionDecl.text (d : TaggedUnionDecl) : String :=
  headerText d.annotations d.modifiers ++ "type " ++ d.name ++ " ="
    ++ String.join (d.variants.map fun v => " | " ++ v.text) ++ ";"

def UnionField.text (f : UnionField) : String :=
  f.name ++ ": " ++ f.type.text ++ withLead " @ " Expr.text f.offset ++ ","

def UnionDecl.text (d : UnionDecl) : String :=
  headerText d.annotations d.modifiers ++ "union " ++ d.name
    ++ blockText (d.fields.map UnionField.text)

def Decl.text : Decl → String
  | .type d => d.text
  | .enum d => d.text
  | .taggedUnion d => d.text
  | .union d => d.text
  | .fn d => d.text
  | .error _ => "<error>"

/-- The module, then the declarations with an empty line between two. -/
def Tree.text (t : Tree) : String :=
  (if t.module.isEmpty then "" else "module " ++ t.module.text ++ ";\n\n")
    ++ "\n".intercalate (t.body.map fun d => d.text ++ "\n")

end TreeCompiler
