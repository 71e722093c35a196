import TreeCompiler.Lowering.Members

/-!
# Bodies of methods

Statements become instructions in the entry block of a flow graph. Every value is the result of one
instruction. Both operands of an arithmetic operator take the type that is expected of the whole
expression. Statements after a return or a throw are not looked at.
-/

namespace TreeCompiler

structure Scope where
  module : QualifiedName
  method : MethodRef
  params : List Parameter
  returnType : Option TypeId
  isStatic : Bool

structure BodyState where
  context : Context
  graph : FlowGraph := .empty

namespace BodyState

def types (s : BodyState) : TypeTable :=
  s.context.types

def withContext (s : BodyState) (context : Context) : BodyState :=
  { s with context }

def append (s : BodyState) (i : Instruction) : InstrId × BodyState :=
  let (id, graph) := s.graph.append .entry i
  (id, { s with graph })

def setFlow (s : BodyState) (flow : Flow) : BodyState :=
  { s with graph := s.graph.setFlow .entry flow }

def report (s : BodyState) (code : ErrorCode) (span : Span) (message label : String) : BodyState :=
  s.withContext (s.context.report code span message label)

end BodyState

namespace Scope

/-! ## Expressions -/

/-- What a name means: a parameter, else the latest variable, else the object itself. -/
inductive Meaning where
  | param (index : Nat)
  | binding (id : BindingId)
  | this
deriving DecidableEq, Repr

def meaning? (e : Scope) (g : FlowGraph) (name : String) : Option Meaning :=
  match e.params.findIdx? (·.name == name) with
  | some i => some (.param i)
  | none =>
    match g.findParam? .entry name with
    | some b => some (.binding b)
    | none => if name = "this" ∧ !e.isStatic then some .this else none

/-- The type of an expression, without lowering it. -/
def infer (e : Scope) (s : BodyState) : Expr → Option TypeId
  | .literal value _ => s.context.literalType? value
  | .ident name _ =>
    match e.meaning? s.graph name with
    | some (.param i) => (e.params[i]?).bind (·.type)
    | some (.binding b) => (s.graph.param b).type
    | some .this => some e.method.type
    | none => none
  | .binary op lhs rhs _ =>
    if op.isComparison then s.types.primitive? .bool
    else (e.infer s lhs).or (e.infer s rhs)
  | .error _ => none

/-- A numeric literal takes the numeric type that is expected; any other keeps its own. -/
def literalConstant (s : BodyState) (l : Literal) (expected : Option TypeId) :
    Constant × Option TypeId :=
  let constant := Constant.ofLiteral l
  let own := s.context.literalType? l
  match s.types.primitiveOf? expected with
  | some target =>
    if constant.isNumber && (target.intKind?.isSome || target.isFloat) then
      (constant.convert target, expected)
    else (constant, own)
  | none => (constant, own)

def lowerLiteral (s : BodyState) (l : Literal) (expected : Option TypeId) : InstrId × BodyState :=
  let (value, type) := literalConstant s l expected
  let (source, s) := s.append (.constant value type)
  s.append (.load type source)

def lowerIdent (e : Scope) (s : BodyState) (name : String) (span : Span) :
    Option InstrId × BodyState :=
  let value (i : Instruction) : Option InstrId × BodyState :=
    let (id, s) := s.append i
    (some id, s)
  match e.meaning? s.graph name with
  | some (.param i) => value (.loadArg (.param i))
  | some (.binding b) => value (.loadLocal b)
  | some .this => value (.loadArg .this)
  | none =>
    (none, s.report .unresolvedName span s!"Cannot find value '{name}' in this scope"
      "not a parameter or local variable")

/-- Types of the operands and of the result of an operator. -/
def operandTypes (e : Scope) (s : BodyState) (op : Operator) (lhs rhs : Expr)
    (expected : Option TypeId) : Option TypeId × Option TypeId :=
  let own := (e.infer s lhs).or (e.infer s rhs)
  if op.isComparison then (own, s.types.primitive? .bool)
  else (expected.or own, expected.or own)

/-- Appends the instructions of an expression and gives its value; there is none if an error was
found, and then it has been recorded. -/
def lowerExpr (e : Scope) : BodyState → Expr → Option TypeId → Option InstrId × BodyState
  | s, .literal value _, expected =>
    let (id, s) := lowerLiteral s value expected
    (some id, s)
  | s, .ident name span, _ => e.lowerIdent s name span
  | s, .binary op lhs rhs _, expected =>
    let (operandType, type) := e.operandTypes s op lhs rhs expected
    let (left, s) := e.lowerExpr s lhs operandType
    let (right, s) := e.lowerExpr s rhs operandType
    match left, right with
    | some left, some right =>
      let (id, s) := s.append (.binary op type left right)
      (some id, s)
    | _, _ => (none, s)
  | s, .error span, _ =>
    (none, s.report .malformedExpression span "Malformed expression"
      "the parser could not recover this expression")

def lowerOptional (e : Scope) (s : BodyState) (value : Option Expr) (expected : Option TypeId) :
    Option InstrId × BodyState :=
  match value with
  | some value => e.lowerExpr s value expected
  | none => (none, s)

/-! ## Calls -/

structure Candidate where
  method : MethodRef
  signature : List (Option TypeId)
deriving DecidableEq, Repr

/-- The methods of a name, only static ones if the call needs one. -/
def candidates (t : TypeTable) (owner : TypeId) (name : String) (needsStatic : Bool) :
    List Candidate :=
  (((t.get owner).methodsNamed name).filter fun m => !needsStatic || m.2.isStatic).map fun m =>
    ⟨⟨owner, m.1⟩, m.2.signature⟩

/-- Types that are expected of the arguments: known if there is one candidate only. -/
def expectedTypes (cs : List Candidate) (arity : Nat) : List (Option TypeId) :=
  match cs with
  | [c] => c.signature
  | _ => List.replicate arity none

/-- Lowers arguments up to the first that has no value. -/
def lowerArgs (e : Scope) :
    BodyState → List (Expr × Option TypeId) → Option (List InstrId) × BodyState
  | s, [] => (some [], s)
  | s, (arg, expected) :: rest =>
    match e.lowerExpr s arg expected with
    | (none, s) => (none, s)
    | (some id, s) =>
      match e.lowerArgs s rest with
      | (none, s) => (none, s)
      | (some ids, s) => (some (id :: ids), s)

/-- Every argument has the type of its parameter or an unknown one; unless the match is to be exact,
any argument suits a parameter of type `object`. -/
def Candidate.accepts (exactly : Bool) (object : Option TypeId) (args : List (Option TypeId))
    (c : Candidate) : Bool :=
  (c.signature.zip args).all fun (param, arg) =>
    arg.isNone || param == arg || (!exactly && param == object)

/-- The first candidate that matches exactly, else the first that accepts the arguments. -/
def choose? (object : Option TypeId) (args : List (Option TypeId)) (cs : List Candidate) :
    Option Candidate :=
  (cs.find? (Candidate.accepts true object args)).or
    (cs.find? (Candidate.accepts false object args))

def valueType (e : Scope) (s : BodyState) (id : InstrId) : Option TypeId :=
  s.graph.resultType s.types e.method.type (s.types.method e.method) id

structure Call where
  owner : TypeId
  name : String
  args : List Expr
  span : Span
  needsStatic : Bool
  /-- The name as it is shown in errors. -/
  shown : String

/-- Appends a call of the method that the arguments select. -/
def lowerCall (e : Scope) (s : BodyState) (call : Call) : BodyState :=
  let named := candidates s.types call.owner call.name call.needsStatic
  if named.isEmpty then
    let what := if call.needsStatic then "static function" else "function"
    s.report .unresolvedCall call.span s!"Cannot find {what} '{call.shown}'"
      "no method with this name"
  else
    let fitting := named.filter (·.signature.length == call.args.length)
    match e.lowerArgs s (call.args.zip (expectedTypes fitting call.args.length)) with
    | (none, s) => s
    | (some values, s) =>
      let types := values.map (e.valueType s)
      match choose? (s.types.primitive? .object) types fitting with
      | some chosen => (s.append (.call chosen.method values)).2
      | none =>
        let shown := ", ".intercalate (types.map s.types.nameOf)
        s.report .unresolvedCall call.span s!"No overload of '{call.shown}' accepts ({shown})"
          "argument types do not match"

def printName : String := "print"

def lowerPrint (e : Scope) (s : BodyState) (args : List Expr) : BodyState :=
  match s.types.system? "Console" with
  | none => s
  | some console =>
    args.foldl (fun s arg => e.lowerCall s
      { owner := console, name := "Write", args := [arg], span := arg.span, needsStatic := true
        shown := printName }) s

/-! ## Statements -/

/-- The type of a variable: the declared one, else that of its value, else `System.Object`. -/
def variableType (e : Scope) (s : BodyState) (type : Option TypeExpr) (value : Option Expr) :
    Option TypeId × BodyState :=
  match type with
  | some type =>
    let (id, c) := Context.resolveTypeExpr e.module s.context type
    (id, s.withContext c)
  | none => ((value.bind (e.infer s)).or (s.types.primitive? .object), s)

/-- A variable is not visible in its own initial value. -/
def lowerVar (e : Scope) (s : BodyState) (name : String) (type : Option TypeExpr)
    (value : Option Expr) : BodyState :=
  let (type, s) := e.variableType s type value
  let (init, s) := e.lowerOptional s value type
  let (binding, graph) := s.graph.addParam .entry name type
  ({ s with graph }.append (.alloca binding type init)).2

/-- The constructor of an exception with a message. -/
def exceptionCtor? (t : TypeTable) : Option MethodRef :=
  (t.system? "Exception").bind fun id => t.findMethod? id ".ctor" 1

/-- A text is thrown as the message of an exception. -/
def lowerThrow (e : Scope) (s : BodyState) (value : Expr) : BodyState :=
  let s := match value with
    | .literal (.string _) _ =>
      match e.lowerExpr s value (s.types.primitive? .string) with
      | (none, s) => s
      | (some message, s) =>
        match exceptionCtor? s.types with
        | some ctor => (s.append (.newObject ctor [message])).2
        | none => s
    | _ => (e.lowerExpr s value none).2
  s.setFlow .unreachable

def lowerStmt (e : Scope) (s : BodyState) : Stmt → BodyState
  | .var name type value _ => e.lowerVar s name type value
  | .call (.unqualified name) args span =>
    if name = printName then e.lowerPrint s args
    else e.lowerCall s
      { owner := e.method.type, name, args, span, needsStatic := true, shown := name }
  | .call (.qualified type name) args span =>
    match s.context.resolveType e.module type span with
    | (none, c) => s.withContext c
    | (some owner, c) => e.lowerCall (s.withContext c)
        { owner, name, args, span, needsStatic := false, shown := type.text ++ "::" ++ name }
  | .ret value _ =>
    let (value, s) := e.lowerOptional s value e.returnType
    s.setFlow (.ret value)
  | .throw value _ => e.lowerThrow s value
  | .error span =>
    s.report .malformedExpression span "Malformed statement"
      "the parser could not recover this statement"

/-- Lowers statements up to the first that ends the block. -/
def lowerStmts (e : Scope) : BodyState → List Stmt → BodyState
  | s, [] => s
  | s, stmt :: rest =>
    if s.graph.isTerminated .entry then s else e.lowerStmts (e.lowerStmt s stmt) rest

end Scope

namespace Context

def scopeOf (c : Context) (p : PendingBody) : Scope :=
  let m := c.types.method p.method
  { module := p.module
    method := p.method
    params := m.params
    returnType := m.returnType
    isStatic := m.isStatic }

def lowerBody (c : Context) (p : PendingBody) : Context :=
  let s := (c.scopeOf p).lowerStmts { context := c } p.body
  s.context.withTypes (s.types.setBody p.method s.graph.close)

def lowerBodies (c : Context) (queue : List PendingBody) : Context :=
  queue.foldl lowerBody c

end Context

end TreeCompiler
