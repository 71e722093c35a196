import TreeCompiler.Proofs.Places.Declarations

/-!
# Bodies without places

Lowering of bodies goes along with taking the places away: the instructions are the same, and so are the errors but
for the regions they point at.

* `Scope.lowerExpr_gist`, `Scope.lowerCall_gist`, `Scope.lowerStmt_gist` : the parts of a body;
* `lowerBodies_gist` : all bodies that are queued.
-/

namespace TreeCompiler

open TypeTable BodyState Context List

namespace BodyState
variable (s : BodyState)

@[simp] theorem graph_gist : s.gist.graph = s.graph := rfl

@[simp] theorem context_gist : s.gist.context = s.context.gist := rfl

@[simp] theorem types_gist : s.gist.types = s.types.gist := rfl

@[simp] theorem report_gist (code : ErrorCode) (span : Span) (message label : String) :
    (s.report code span message label).gist = s.gist.report code {} message label :=
  congrArg s.gist.withContext (s.context.report_gist code span message label)

end BodyState

namespace Scope
variable (e : Scope) (s : BodyState)

/-! ## Expressions -/

@[simp] theorem infer_gist (expr : Expr) : e.infer s.gist expr.gist = e.infer s expr := by
  induction expr with
  | literal value span => exact s.context.literalType?_gist value
  | ident name span | error span => rfl
  | binary op lhs rhs span ihl ihr => simp [Expr.gist, infer, ihl, ihr]

@[simp] theorem lowerExpr_gist (expr : Expr) (expected : Option TypeId) :
    e.lowerExpr s.gist expr.gist expected = (e.lowerExpr s expr expected).map id BodyState.gist := by
  induction expr generalizing s expected with
  | literal value span =>
    have hconstant : literalConstant s.gist value expected = literalConstant s value expected := by
      simp [literalConstant]
    rw [Expr.gist, lowerExpr, lowerExpr, lowerLiteral, hconstant]
    rfl
  | ident name span =>
    unfold Expr.gist lowerExpr lowerIdent
    rw [graph_gist]
    cases e.meaning? s.graph name with
    | none => simp
    | some meaning => cases meaning <;> rfl
  | binary op lhs rhs span ihl ihr =>
    have htypes : e.operandTypes s.gist op lhs.gist rhs.gist expected = e.operandTypes s op lhs rhs expected := by
      simp [operandTypes]
    simp only [Expr.gist, lowerExpr, htypes, ihl, ihr, Prod.map, id]
    split <;> rfl
  | error span => simp [Expr.gist, lowerExpr]

@[simp] theorem lowerOptional_gist (value : Option Expr) (expected : Option TypeId) :
    e.lowerOptional s.gist (value.map Expr.gist) expected =
      (e.lowerOptional s value expected).map id BodyState.gist := by
  cases value with
  | none => rfl
  | some value => exact e.lowerExpr_gist s value expected

/-! ## Calls -/

theorem candidates_gist (t : TypeTable) (owner : TypeId) (name : String) (needsStatic : Bool) :
    candidates t.gist owner name needsStatic = candidates t owner name needsStatic := by
  unfold candidates
  rw [get_gist, TypeDef.methodsNamed_gist, filter_map, map_map]
  rfl

theorem lowerArgs_gist (args : List (Expr × Option TypeId)) : e.lowerArgs s.gist (args.map (Prod.map Expr.gist id)) =
      (e.lowerArgs s args).map id BodyState.gist := by
  induction args generalizing s with
  | nil => rfl
  | cons arg args ih =>
    obtain ⟨arg, expected⟩ := arg
    rw [map_cons, Prod.map_apply, id, lowerArgs, lowerArgs, lowerExpr_gist]
    rcases e.lowerExpr s arg expected with ⟨_ | value, s⟩
    · rfl
    · dsimp only [Prod.map, id]
      rw [ih]
      rcases e.lowerArgs s args with ⟨_ | values, s⟩ <;> rfl

theorem valueType_gist : e.valueType s.gist = e.valueType s := by
  funext id
  unfold valueType FlowGraph.resultType
  simp only [graph_gist, BodyState.types_gist, method_gist]
  rfl

def Call.gist (call : Call) : Call :=
  { call with args := call.args.map Expr.gist, span := {} }

@[simp] theorem lowerCall_gist (call : Call) : (e.lowerCall s call).gist = e.lowerCall s.gist call.gist := by
  unfold lowerCall
  dsimp only [Call.gist]
  rw [BodyState.types_gist, candidates_gist, length_map, zip_map_left]
  generalize candidates s.types call.owner call.name call.needsStatic = named
  split
  · exact s.report_gist _ call.span _ _
  · generalize named.filter (·.signature.length == call.args.length) = fitting
    rw [lowerArgs_gist]
    rcases e.lowerArgs s (call.args.zip (expectedTypes fitting call.args.length)) with ⟨values, s⟩
    cases values with
    | none => rfl
    | some values =>
      have hnames : s.types.gist.nameOf = s.types.nameOf := funext s.types.nameOf_gist
      dsimp only [Prod.map, id]
      rw [BodyState.types_gist, primitive?_gist, valueType_gist, hnames]
      split
      · rfl
      · exact s.report_gist _ call.span _ _

theorem lowerPrint_gist (args : List Expr) :
    e.lowerPrint s.gist (args.map Expr.gist) = (e.lowerPrint s args).gist := by
  unfold lowerPrint
  rw [BodyState.types_gist, system?_gist]
  cases s.types.system? "Console" with
  | none => rfl
  | some console =>
    refine foldl_gist (fun s arg => ?_) s args
    rw [Expr.span_gist, lowerCall_gist]
    rfl

/-! ## Statements -/

theorem lowerVar_gist (name : String) (type : Option TypeExpr) (value : Option Expr) :
    e.lowerVar s.gist name (type.map TypeExpr.gist) (value.map Expr.gist) = (e.lowerVar s name type value).gist := by
  have htype : e.variableType s.gist (type.map TypeExpr.gist) (value.map Expr.gist) =
      (e.variableType s type value).map id BodyState.gist := by
    cases type with
    | some type =>
      simp [variableType]
      rfl
    | none => cases value <;> simp [variableType]
  simp only [lowerVar, htype, lowerOptional_gist, Prod.map, id]
  rfl

theorem lowerThrow_gist (value : Expr) : e.lowerThrow s.gist value.gist = (e.lowerThrow s value).gist := by
  have hother : ((e.lowerExpr s.gist value.gist none).2.setFlow .unreachable) =
      ((e.lowerExpr s value none).2.setFlow .unreachable).gist := by
    rw [lowerExpr_gist]
    rfl
  cases value with
  | ident name span | binary op lhs rhs span | error span => exact hother
  | literal value span =>
    cases value with
    | string text =>
      have hmessage := e.lowerExpr_gist s (.literal (.string text) span) (s.types.primitive? .string)
      have hctor (t : TypeTable) : exceptionCtor? t.gist = exceptionCtor? t := by simp [exceptionCtor?]
      unfold lowerThrow Expr.gist
      dsimp only
      rw [BodyState.types_gist, primitive?_gist]
      rw [Expr.gist] at hmessage
      rw [hmessage]
      rcases e.lowerExpr s (.literal (.string text) span) (s.types.primitive? .string) with ⟨_ | message, s⟩
      · rfl
      · dsimp only [Prod.map, id]
        rw [BodyState.types_gist, hctor]
        cases exceptionCtor? s.types <;> rfl
    | _ => exact hother

theorem lowerStmt_gist (stmt : Stmt) : e.lowerStmt s.gist stmt.gist = (e.lowerStmt s stmt).gist := by
  cases stmt with
  | var name type value span => exact e.lowerVar_gist s name type value
  | call callee args span =>
    cases callee with
    | unqualified name =>
      unfold Stmt.gist lowerStmt
      dsimp only
      split
      · exact e.lowerPrint_gist s args
      · rw [lowerCall_gist]
        rfl
    | qualified type name =>
      unfold Stmt.gist lowerStmt
      dsimp only
      rw [context_gist, resolveType_gist _ _ _ span]
      rcases s.context.resolveType e.module type span with ⟨_ | owner, c⟩
      · rfl
      · rw [lowerCall_gist]
        rfl
  | ret value span =>
    have hvalue := e.lowerOptional_gist s value e.returnType
    exact congrArg (fun r => r.2.setFlow (.ret r.1)) hvalue
  | throw value span => exact e.lowerThrow_gist s value
  | error span => exact (s.report_gist _ span _ _).symm

theorem lowerStmts_gist (stmts : List Stmt) :
    e.lowerStmts s.gist (stmts.map Stmt.gist) = (e.lowerStmts s stmts).gist := by
  induction stmts generalizing s with
  | nil => rfl
  | cons stmt stmts ih =>
    rw [map_cons, lowerStmts, lowerStmts, lowerStmt_gist, ih, graph_gist]
    split <;> rfl

end Scope

namespace Context

theorem lowerBody_gist (c : Context) (p : PendingBody) : c.gist.lowerBody p.gist = (c.lowerBody p).gist := by
  have hscope : c.gist.scopeOf p.gist = c.scopeOf p := by
    unfold scopeOf
    rw [types_gist, method_gist]
    rfl
  have hbody := (c.scopeOf p).lowerStmts_gist { context := c } p.body
  unfold lowerBody
  rw [hscope, show p.gist.body = p.body.map Stmt.gist from rfl,
    show ({ context := c.gist } : BodyState) = BodyState.gist { context := c } from rfl, hbody]
  generalize (c.scopeOf p).lowerStmts { context := c } p.body = s
  dsimp only
  rw [BodyState.types_gist, show p.gist.method = p.method from rfl, setBody_gist]
  rfl

theorem lowerBodies_gist (c : Context) (queue : List PendingBody) :
    c.gist.lowerBodies (queue.map PendingBody.gist) = (c.lowerBodies queue).gist :=
  foldl_gist lowerBody_gist c queue

end Context

end TreeCompiler
