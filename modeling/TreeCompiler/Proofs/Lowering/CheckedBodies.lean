import TreeCompiler.Proofs.Lowering.BoundedStates
import TreeCompiler.Proofs.Lowering.CheckedDeclarations

/-!
# Bodies with their handles checked

Every function that lowers a body, once more, with a check before a handle to a type, a method, a block, a
value or a variable is followed. No check ever fails, so that lowering as a whole follows no handle that leads
nowhere.

* `Checked.lowerExpr_eq`, `Checked.lowerCall_eq`, `Checked.lowerStmts_eq` : expressions, calls, statements;
* `Checked.lowerBody_eq` : a body is given to its method.
-/

namespace TreeCompiler.Checked

open Scope FlowGraph Compilation Context List

variable {e : Scope} {s : BodyState} {expected : Option TypeId} {c : Context}

/-! ## Types -/

def methodAt (t : TypeTable) (m : MethodRef) : Except Defect Method := do
  let d ← Defect.entry t.defs m.type.index
  Defect.entry d.methods m.index

theorem methodAt_eq {t : TypeTable} {m : MethodRef} (h : t.HasMethod m) : methodAt t m = .ok (t.method m) :=
  bind_ok (TypeTable.entry_eq_get h.1) h.methodEntry_eq

/-- The type of an expression, without lowering it. -/
def infer (e : Scope) (s : BodyState) : Expr → Except Defect (Option TypeId)
  | .literal value span => return e.infer s (.literal value span)
  | .ident name span => do
    match ← atEntry s.graph (e.meaning? s.graph name) with
    | some (.binding b) => return (← s.graph.paramEntry b).type
    | _ => return e.infer s (.ident name span)
  | .binary op lhs rhs _ =>
    if op.isComparison then return s.types.primitive? .bool
    else return (← infer e s lhs).or (← infer e s rhs)
  | .error span => return e.infer s (.error span)

variable (h : s.Bounded e)
include h

theorem infer_eq (expr : Expr) : infer e s expr = .ok (e.infer s expr) := by
  induction expr with
  | literal value span | error span => rfl
  | ident name span =>
    refine bind_ok (atEntry_eq h.graph.hasBlock _) ?_
    cases hmeaning : e.meaning? s.graph name with
    | none => rfl
    | some meaning =>
      cases meaning with
      | param i => rfl
      | this => rfl
      | binding b =>
        refine bind_ok (HasBinding.paramEntry_eq ((admits_load hmeaning).refers h)) ?_
        rw [Scope.infer, hmeaning]
        rfl
  | binary op lhs rhs span ihl ihr =>
    unfold infer Scope.infer
    split
    · rfl
    · exact bind_ok ihl (bind_ok ihr rfl)

def valueType (e : Scope) (s : BodyState) (id : InstrId) : Except Defect (Option TypeId) := do
  let _ ← methodAt s.types e.method
  match ← Defect.entry s.graph.instructions id.index with
  | .loadLocal b => return (← s.graph.paramEntry b).type
  | .call callee _ => return (← methodAt s.types callee).returnType
  | _ => return e.valueType s id

theorem valueType_eq {id : InstrId} (hid : s.graph.HasResult id) : valueType e s id = .ok (e.valueType s id) := by
  have hlt : id.index < s.graph.instructions.length := hid
  have hentry : s.graph.instruction? id = some s.graph.instructions[id.index] := getElem?_eq_getElem hlt
  have hi := (h.graph.bounded.instruction hentry).refers
  refine bind_ok (methodAt_eq h.method) (bind_ok (Defect.entry_eq_ok_iff.mpr hentry) ?_)
  generalize s.graph.instructions[id.index] = i at hentry hi
  cases i with
  | loadLocal b =>
    refine bind_ok (HasBinding.paramEntry_eq hi) ?_
    rw [Scope.valueType, resultType, hentry]
    rfl
  | call callee args =>
    refine bind_ok (methodAt_eq hi) ?_
    rw [Scope.valueType, resultType, hentry]
    rfl
  | _ => rfl

/-! ## Expressions -/

def append (s : BodyState) (i : Instruction) : Except Defect (InstrId × BodyState) :=
  atEntry s.graph (s.append i)

theorem append_eq (i : Instruction) : append s i = .ok (s.append i) :=
  atEntry_eq h.graph.hasBlock _

def lowerLiteral (s : BodyState) (l : Literal) (expected : Option TypeId) :
    Except Defect (InstrId × BodyState) := do
  let (value, type) ← reading s.types expected.toList (literalConstant s l expected)
  let (source, s) ← append s (.constant value type)
  append s (.load type source)

theorem lowerLiteral_eq (l : Literal) (hexpected : s.types.Covers expected) :
    lowerLiteral s l expected = .ok (Scope.lowerLiteral s l expected) := by
  have htype := (provides_literalConstant (e := e) l fun _ => hexpected).covers h.located
  have hconstant := h.append (i := .constant (literalConstant s l expected).1 (literalConstant s l expected).2)
    ⟨forall_mem_nil _, htype⟩
  refine bind_ok (reading_option hexpected _) (bind_ok (append_eq h _) ?_)
  exact append_eq hconstant _

/-- Appends the instructions of an expression and gives its value. -/
def lowerExpr (e : Scope) : BodyState → Expr → Option TypeId → Except Defect (Option InstrId × BodyState)
  | s, .literal value _, expected => do
    let (id, s) ← lowerLiteral s value expected
    return (some id, s)
  | s, .ident name span, _ => atEntry s.graph (e.lowerIdent s name span)
  | s, .binary op lhs rhs _, expected => do
    let _ ← infer e s lhs
    let _ ← infer e s rhs
    let (operandType, type) := e.operandTypes s op lhs rhs expected
    let (left, s) ← lowerExpr e s lhs operandType
    let (right, s) ← lowerExpr e s rhs operandType
    match left, right with
    | some left, some right =>
      let (id, s) ← append s (.binary op type left right)
      return (some id, s)
    | _, _ => return (none, s)
  | s, .error span, expected => return e.lowerExpr s (.error span) expected

theorem lowerExpr_eq (expr : Expr) (hexpected : s.types.Covers expected) :
    lowerExpr e s expr expected = .ok (e.lowerExpr s expr expected) := by
  induction expr generalizing s expected with
  | literal value span => exact bind_ok (lowerLiteral_eq h value hexpected) rfl
  | ident name span => exact atEntry_eq h.graph.hasBlock _
  | error span => rfl
  | binary op lhs rhs span ihl ihr =>
    have hoperand := (covers_operandTypes h.located op lhs rhs hexpected).1
    rw [lowerExpr, Scope.lowerExpr]
    refine bind_ok (infer_eq h lhs) (bind_ok (infer_eq h rhs) ?_)
    generalize e.operandTypes s op lhs rhs expected = types at hoperand
    obtain ⟨operandType, type⟩ := types
    have hleft := (evaluates_lowerExpr (e := e) lhs fun _ => hoperand).computes
    refine bind_ok (ihl h hoperand) ?_
    dsimp only
    generalize e.lowerExpr s lhs operandType = r at hleft
    obtain ⟨left, s'⟩ := r
    have hoperand' : s'.types.Covers operandType := hleft.adds.types ▸ hoperand
    have hs' := hleft.bounded h
    have hright := (evaluates_lowerExpr (e := e) rhs fun _ => hoperand').computes
    refine bind_ok (ihr hs' hoperand') ?_
    generalize e.lowerExpr s' rhs operandType = r at hright
    obtain ⟨right, s''⟩ := r
    cases left with
    | none => rfl
    | some left =>
      cases right with
      | none => rfl
      | some right => exact bind_ok (append_eq (hright.bounded hs') _) rfl

def lowerOptional (e : Scope) (s : BodyState) (value : Option Expr) (expected : Option TypeId) :
    Except Defect (Option InstrId × BodyState) :=
  match value with
  | some value => lowerExpr e s value expected
  | none => return (none, s)

theorem lowerOptional_eq (value : Option Expr) (hexpected : s.types.Covers expected) :
    lowerOptional e s value expected = .ok (e.lowerOptional s value expected) := by
  cases value with
  | none => rfl
  | some value => exact lowerExpr_eq h value hexpected

/-! ## Calls -/

def candidates (t : TypeTable) (owner : TypeId) (name : String) (needsStatic : Bool) :
    Except Defect (List Candidate) :=
  reading t [owner] (Scope.candidates t owner name needsStatic)

/-- Lowers arguments up to the first that has no value. -/
def lowerArgs (e : Scope) :
    BodyState → List (Expr × Option TypeId) → Except Defect (Option (List InstrId) × BodyState)
  | s, [] => return (some [], s)
  | s, (arg, expected) :: rest => do
    match ← lowerExpr e s arg expected with
    | (none, s) => return (none, s)
    | (some id, s) =>
      match ← lowerArgs e s rest with
      | (none, s) => return (none, s)
      | (some ids, s) => return (some (id :: ids), s)

theorem lowerArgs_eq {args : List (Expr × Option TypeId)}
    (hargs : ∀ a ∈ args, s.types.Covers a.2) : lowerArgs e s args = .ok (e.lowerArgs s args) := by
  induction args generalizing s with
  | nil => rfl
  | cons arg args ih =>
    obtain ⟨arg, expected⟩ := arg
    have hexpected := hargs _ mem_cons_self
    have hfirst := (evaluates_lowerExpr (e := e) arg fun _ => hexpected).computes
    unfold lowerArgs Scope.lowerArgs
    refine bind_ok (lowerExpr_eq h arg hexpected) ?_
    generalize e.lowerExpr s arg expected = r at hfirst
    obtain ⟨value, s'⟩ := r
    cases value with
    | none => rfl
    | some id =>
      refine bind_ok (ih (hfirst.bounded h) fun a ha =>
        hfirst.adds.types ▸ hargs a (mem_cons_of_mem _ ha)) ?_
      dsimp only
      generalize e.lowerArgs s' args = r
      obtain ⟨values, s''⟩ := r
      cases values with
      | none | some ids => rfl

/-- Appends a call of the method that the arguments select; an error shows the types of the arguments. -/
def lowerCall (e : Scope) (s : BodyState) (call : Call) : Except Defect BodyState := do
  let named ← candidates s.types call.owner call.name call.needsStatic
  if named.isEmpty then return e.lowerCall s call
  else
    let fitting := named.filter (·.signature.length == call.args.length)
    match ← lowerArgs e s (call.args.zip (expectedTypes fitting call.args.length)) with
    | (none, s) => return s
    | (some values, s') =>
      let types ← values.mapM (valueType e s')
      match choose? (s'.types.primitive? .object) types fitting with
      | some chosen => return (← append s' (.call chosen.method values)).2
      | none => reading s'.types (types.filterMap id) (e.lowerCall s call)

theorem lowerCall_eq {call : Call} (howner : call.owner.index < s.types.size) :
    lowerCall e s call = .ok (e.lowerCall s call) := by
  have hexpected := fun a => covers_argument h.located call (a := a)
  have hevaluates := e.evaluatesAll_expected s call
  rw [Call.expected, Call.fitting] at hevaluates
  refine bind_ok (reading_one howner _) ?_
  cases hempty : (Scope.candidates s.types call.owner call.name call.needsStatic).isEmpty with
  | true => rfl
  | false =>
    refine bind_ok (lowerArgs_eq h hexpected) ?_
    generalize hargs : e.lowerArgs s (call.args.zip _) = r at hevaluates
    obtain ⟨values, s'⟩ := r
    have hs' : s'.Bounded e := hevaluates.computes.bounded h
    cases values with
    | none =>
      simp only [Scope.lowerCall, hempty, hargs, Bool.false_eq_true, if_false]
      rfl
    | some values =>
      have htypes : values.mapM (valueType e s') = .ok (values.map (e.valueType s')) :=
        mapM_eq_ok_map fun id hid => valueType_eq hs' (hevaluates.defined values rfl id hid).hasResult
      refine bind_ok htypes ?_
      cases hchosen : choose? (s'.types.primitive? .object) (values.map (e.valueType s'))
        ((Scope.candidates s.types call.owner call.name call.needsStatic).filter
          (·.signature.length == call.args.length)) with
      | some chosen =>
        refine bind_ok (append_eq hs' _) ?_
        simp only [Scope.lowerCall, hempty, hargs, hchosen, Bool.false_eq_true, if_false]
        rfl
      | none =>
        refine reading_eq (fun id hid => ?_) _
        obtain ⟨type, hmem, hsome⟩ := mem_filterMap.mp hid
        obtain ⟨value, -, rfl⟩ := mem_map.mp hmem
        exact covers_valueType hs' value id hsome

def lowerPrint (e : Scope) (s : BodyState) (args : List Expr) : Except Defect BodyState :=
  match s.types.system? "Console" with
  | none => return s
  | some console =>
    args.foldlM (fun s arg => lowerCall e s
      { owner := console, name := "Write", args := [arg], span := arg.span, needsStatic := true
        shown := printName }) s

theorem lowerPrint_eq (args : List Expr) : lowerPrint e s args = .ok (e.lowerPrint s args) := by
  have hconsole := s.types.covers_lookup (TypeTable.systemName "Console")
  unfold lowerPrint Scope.lowerPrint
  cases hfound : s.types.system? "Console" with
  | none => rfl
  | some console =>
    refine (foldlM_eq (I := fun s' : BodyState => s'.Bounded e ∧ s.Continues s') args
      (fun s' hs' arg _ => ?_) ⟨h, .refl s⟩).1
    obtain ⟨hs', hcontinues⟩ := hs'
    exact ⟨lowerCall_eq hs' ((hconsole console hfound).trans_le hcontinues.context.size),
      bounded_lowerCall hs' _, hcontinues.trans (e.continues_lowerCall s' _)⟩

/-! ## Statements -/

def variableType (e : Scope) (s : BodyState) (type : Option TypeExpr) (value : Option Expr) :
    Except Defect (Option TypeId × BodyState) := do
  match type with
  | some type =>
    let (id, c) ← resolveTypeExpr e.module s.context type
    return (id, s.withContext c)
  | none =>
    let _ ← value.mapM (infer e s)
    return e.variableType s none value

theorem variableType_eq (type : Option TypeExpr) (value : Option Expr) :
    variableType e s type value = .ok (e.variableType s type value) := by
  cases type with
  | some type => exact bind_ok (resolveTypeExpr_eq e.module s.context type) rfl
  | none =>
    cases value with
    | none => rfl
    | some value =>
      have hvalue : (some value).mapM (infer e s) = .ok (some (e.infer s value)) := by
        rw [Option.mapM_some, infer_eq h value]
        rfl
      exact bind_ok hvalue rfl

/-- A variable is not visible in its own initial value. -/
def lowerVar (e : Scope) (s : BodyState) (name : String) (type : Option TypeExpr) (value : Option Expr) :
    Except Defect BodyState := do
  let (type, s) ← variableType e s type value
  let (init, s) ← lowerOptional e s value type
  let (binding, graph) ← atEntry s.graph (s.graph.addParam .entry name type)
  return (← append { s with graph } (.alloca binding type init)).2

theorem lowerVar_eq (name : String) (type : Option TypeExpr) (value : Option Expr) :
    lowerVar e s name type value = .ok (e.lowerVar s name type value) := by
  obtain ⟨hmoves, hprovides⟩ := e.moves_variableType (P := anyCall) s type value
  have htype := tracks_bounded.moves hmoves h
  have hcovers := hprovides.covers htype.located
  have hinit := (computes_lowerOptional (e := e) value fun _ => hcovers).1
  have hdeclared := ((hinit.bounded htype).graph.addParam name (hinit.adds.types ▸ hcovers)).1
  refine bind_ok (variableType_eq h type value) (bind_ok (lowerOptional_eq htype value hcovers) ?_)
  refine bind_ok (atEntry_eq (hinit.bounded htype).graph.hasBlock _) ?_
  exact bind_ok (atEntry_eq hdeclared.hasBlock _) rfl

def lowerThrown (e : Scope) (s : BodyState) (value : Expr) : Except Defect BodyState := do
  match value with
  | .literal (.string _) _ =>
    match ← lowerExpr e s value (s.types.primitive? .string) with
    | (none, s) => return s
    | (some message, s) =>
      match ← reading s.types (s.types.system? "Exception").toList (exceptionCtor? s.types) with
      | some ctor => return (← append s (.newObject ctor [message])).2
      | none => return s
  | _ => return (← lowerExpr e s value none).2

/-- A text is thrown as the message of an exception. -/
def lowerThrow (e : Scope) (s : BodyState) (value : Expr) : Except Defect BodyState := do
  let s ← lowerThrown e s value
  atEntry s.graph (s.setFlow .unreachable)

theorem exists_lowerThrown_eq (value : Expr) :
    ∃ s', lowerThrown e s value = .ok s' ∧ e.lowerThrow s value = s'.setFlow .unreachable := by
  cases value with
  | literal l span =>
    cases l with
    | string text =>
      have hstring := s.types.covers_primitive? .string
      have hmessage := (evaluates_lowerExpr (e := e) (.literal (.string text) span)
        fun _ => hstring).computes.bounded h
      unfold lowerThrown Scope.lowerThrow
      dsimp only
      rw [lowerExpr_eq h (.literal (.string text) span) hstring]
      generalize e.lowerExpr s (.literal (.string text) span) (s.types.primitive? .string) = r at hmessage
      obtain ⟨message, s'⟩ := r
      cases message with
      | none => exact ⟨s', rfl, rfl⟩
      | some message =>
        have hctor := reading_option (s'.types.covers_lookup (TypeTable.systemName "Exception"))
          (exceptionCtor? s'.types)
        dsimp only
        cases hfound : exceptionCtor? s'.types with
        | none => exact ⟨s', bind_ok rfl (bind_ok (hctor.trans (congrArg Except.ok hfound)) rfl), rfl⟩
        | some ctor =>
          have hthrown := append_eq hmessage (.newObject ctor [message])
          exact ⟨_, bind_ok rfl (bind_ok (hctor.trans (congrArg Except.ok hfound)) (bind_ok hthrown rfl)), rfl⟩
    | _ => exact ⟨_, bind_ok (lowerExpr_eq h _ s.types.covers_none) rfl, rfl⟩
  | _ => exact ⟨_, bind_ok (lowerExpr_eq h _ s.types.covers_none) rfl, rfl⟩

theorem lowerThrow_eq (value : Expr) : lowerThrow e s value = .ok (e.lowerThrow s value) := by
  obtain ⟨s', hthrown, hend⟩ := exists_lowerThrown_eq h value
  have hblock : (e.lowerThrow s value).graph.HasBlock .entry :=
    (bounded_lowerStmt h (.throw value {})).graph.hasBlock
  rw [hend] at hblock ⊢
  have hopen : s'.graph.HasBlock .entry := by
    unfold HasBlock at hblock ⊢
    simpa [BodyState.setFlow, setFlow, modifyBlock] using hblock
  exact bind_ok hthrown (atEntry_eq hopen _)

def lowerStmt (e : Scope) (s : BodyState) : Stmt → Except Defect BodyState
  | .var name type value _ => lowerVar e s name type value
  | .call (.unqualified name) args span =>
    if name = printName then lowerPrint e s args
    else lowerCall e s { owner := e.method.type, name, args, span, needsStatic := true, shown := name }
  | .call (.qualified type name) args span =>
    match s.context.resolveType e.module type span with
    | (none, c) => return s.withContext c
    | (some owner, c) => lowerCall e (s.withContext c)
        { owner, name, args, span, needsStatic := false, shown := type.text ++ "::" ++ name }
  | .ret value _ => do
    let (value, s) ← lowerOptional e s value e.returnType
    atEntry s.graph (s.setFlow (.ret value))
  | .throw value _ => lowerThrow e s value
  | .error span => return e.lowerStmt s (.error span)

theorem lowerStmt_eq (stmt : Stmt) : lowerStmt e s stmt = .ok (e.lowerStmt s stmt) := by
  cases stmt with
  | var name type value span => exact lowerVar_eq h name type value
  | call callee args span =>
    cases callee with
    | unqualified name =>
      rw [lowerStmt, Scope.lowerStmt]
      split
      · exact lowerPrint_eq h args
      · exact lowerCall_eq h h.method.1
    | qualified type name =>
      have hresolve := s.context.resolves_resolveType e.module type span
      have hcontext := h.withContext hresolve.instantiates
      rw [lowerStmt, Scope.lowerStmt]
      generalize s.context.resolveType e.module type span = r at hresolve hcontext
      obtain ⟨owner, c⟩ := r
      cases owner with
      | none => rfl
      | some owner =>
        exact lowerCall_eq hcontext (hresolve.found owner rfl)
  | ret value span =>
    have hvalue := (computes_lowerOptional (e := e) value fun _ => h.result).1.bounded h
    exact bind_ok (lowerOptional_eq h value h.result) (atEntry_eq hvalue.graph.hasBlock _)
  | throw value span => exact lowerThrow_eq h value
  | error span => rfl

/-- Lowers statements up to the first that ends the block. -/
def lowerStmts (e : Scope) : BodyState → List Stmt → Except Defect BodyState
  | s, [] => return s
  | s, stmt :: rest => do
    if ← atEntry s.graph (s.graph.isTerminated .entry) then return s
    else lowerStmts e (← lowerStmt e s stmt) rest

theorem lowerStmts_eq (stmts : List Stmt) : lowerStmts e s stmts = .ok (e.lowerStmts s stmts) := by
  induction stmts generalizing s with
  | nil => rfl
  | cons stmt stmts ih =>
    rw [lowerStmts, Scope.lowerStmts]
    refine bind_ok (atEntry_eq h.graph.hasBlock _) ?_
    split
    · rfl
    · exact bind_ok (lowerStmt_eq h stmt) (ih (bounded_lowerStmt h stmt))

/-! ## Bodies -/

def scopeOf (c : Context) (p : PendingBody) : Except Defect Scope := do
  let _ ← methodAt c.types p.method
  return c.scopeOf p

def lowerBody (c : Context) (p : PendingBody) : Except Defect Context := do
  let e ← scopeOf c p
  let s ← lowerStmts e { context := c } p.body
  let _ ← methodAt s.types p.method
  return s.context.withTypes (s.types.setBody p.method s.graph.close)

omit h in
theorem lowerBody_eq (hc : c.Bounded) {p : PendingBody} (hp : c.types.HasMethod p.method) :
    lowerBody c p = .ok (c.lowerBody p) := by
  have hscope : scopeOf c p = .ok (c.scopeOf p) := bind_ok (methodAt_eq hp) rfl
  have hbody := bounded_scopeOf hc.types hp
  have hend := bounded_lowerStmts hbody p.body
  exact bind_ok hscope (bind_ok (lowerStmts_eq hbody p.body) (bind_ok (methodAt_eq hend.method) rfl))

def lowerBodies (c : Context) (queue : List PendingBody) : Except Defect Context :=
  queue.foldlM lowerBody c

omit h in
theorem lowerBodies_eq (hc : c.Bounded) {queue : List PendingBody}
    (hqueue : ∀ p ∈ queue, c.types.HasMethod p.method) : lowerBodies c queue = .ok (c.lowerBodies queue) := by
  refine (foldlM_eq (I := fun c' : Context => c.Enlarges c') queue (fun c' hc' p hp => ?_) (.refl c)).1
  have hmethod := (hqueue p hp).mono hc'.includes
  exact ⟨lowerBody_eq (hc'.bounded hc) hmethod, hc'.trans (enlarges_lowerBody (hc'.bounded hc) hmethod)⟩

/-! ## Trees -/

def lowered (trees : List Tree) (options : Options) : Except Defect Compilation := do
  let start := start trees options
  let (declared, c) ← declareAll start.context (Tree.declarations trees)
  let l ← fillAll { context := c } ((Tree.declarations trees).zip declared)
  let c ← lowerBodies l.context l.queue
  return { start with context := c, stage := .bodiesLowered }

omit h in
/-- Lowering follows no handle that leads nowhere. -/
theorem lowered_eq (trees : List Tree) (options : Options) :
    lowered trees options = .ok (Compilation.lowered trees options) := by
  have hdeclared := bounded_declared trees options
  have hbodies := lowerBodies_eq hdeclared.context hdeclared.queue
  rw [declared, lowerDeclarations_eq] at hbodies
  refine bind_ok (declareAll_eq _ _) ?_
  refine bind_ok (fillAll_eq (bounded_allRegistered trees options)
    (registered_lt_size trees options)) (bind_ok hbodies ?_)
  rw [Compilation.lowered, lowerDeclarations_eq]
  rfl

end TreeCompiler.Checked
