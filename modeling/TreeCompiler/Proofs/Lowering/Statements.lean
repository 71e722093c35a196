import TreeCompiler.Proofs.Lowering.Faults

/-!
# Statements

Statements are lowered one after the other, up to the first that returns or throws. Each that binds a name
makes one more variable.

* `Scope.lowerStmts_append`, `Scope.open_lowerStmts`, `Scope.bound_lowerStmts` : statements one after the other.
-/

namespace TreeCompiler

open FlowGraph List

namespace Stmt

/-- The name that a statement binds to a new variable. -/
def binds? : Stmt → Option String
  | .var name _ _ _ => some name
  | _ => none

/-- A return or a throw. -/
def ends : Stmt → Bool
  | .ret _ _ => true
  | .throw _ _ => true
  | _ => false

/-- The names that statements bind, in order. -/
def bound (stmts : List Stmt) : List String :=
  stmts.filterMap binds?

theorem bound_cons (stmt : Stmt) (stmts : List Stmt) : bound (stmt :: stmts) = stmt.binds?.toList ++ bound stmts := by
  rw [bound, bound, filterMap_cons]
  cases stmt.binds? <;> rfl

theorem binds?_of_ends {stmt : Stmt} (h : stmt.ends = true) : stmt.binds? = none := by
  cases stmt <;> first | rfl | cases h

end Stmt

/-! ## Graphs -/

namespace FlowGraph
variable {g g' : FlowGraph} {stmt : Stmt}

/-- The names of the variables, in order. -/
def bound (g : FlowGraph) : List String :=
  (g.block .entry).params.map BlockParam.name

theorem bound_congr (h : g'.blockParams = g.blockParams) : g'.bound = g.bound := by
  rw [bound, bound, params_block, params_block, h]

theorem isTerminated_eq (g : FlowGraph) (b : BlockId) :
    g.isTerminated b = (g.blocks.map Block.isTerminated).getD b.index false := by
  rw [isTerminated, block, getD_eq_getElem?_getD, getD_eq_getElem?_getD, getElem?_map]
  cases g.blocks[b.index]? <;> rfl

theorem isTerminated_modifyBlock (g : FlowGraph) (b b' : BlockId) {f : Block → Block}
    (hf : ∀ block, (f block).isTerminated = block.isTerminated) :
    (g.modifyBlock b f).isTerminated b' = g.isTerminated b' := by
  rw [isTerminated_eq, isTerminated_eq, modifyBlock, map_modify_eq hf]

theorem isTerminated_extend (g : FlowGraph) (is : List Instruction) (b : BlockId) :
    (g.extend is).isTerminated b = g.isTerminated b := by
  induction is generalizing g with
  | nil => rfl
  | cons i is ih => exact (ih _).trans (isTerminated_modifyBlock _ .entry b fun _ => rfl)

variable (h : g.blocks = [g.block .entry])
include h

theorem blocks_extend (is : List Instruction) : (g.extend is).blocks = [(g.extend is).block .entry] := by
  induction is generalizing g with
  | nil => exact h
  | cons i is ih => exact ih (single_modifyBlock h _)

/-- One more variable, and the instruction that fills it. -/
def declare (g : FlowGraph) (name : String) (type : Option TypeId) (init : Option InstrId) : FlowGraph :=
  (g.addParam .entry name type).2.extend [.alloca ⟨.entry, g.bound.length⟩ type init]

omit h in
@[simp] theorem instructions_declare (g : FlowGraph) (name : String) (type : Option TypeId)
    (init : Option InstrId) : (g.declare name type init).instructions =
      g.instructions ++ [.alloca ⟨.entry, g.bound.length⟩ type init] :=
  instructions_extend _ _

theorem params_declare (name : String) (type : Option TypeId) (init : Option InstrId) :
    ((g.declare name type init).block .entry).params = (g.block .entry).params ++ [⟨name, type⟩] := by
  rw [declare, params_extend, block_addParam h]

/-- The body `g` has become `g'` by a statement: a name that it binds is that of one more variable, and the
body ends if it ended or the statement ends it. -/
structure Takes (stmt : Stmt) (g g' : FlowGraph) : Prop where
  blocks : g'.blocks = [g'.block .entry]
  bound : g'.bound = g.bound ++ stmt.binds?.toList
  isTerminated : g'.isTerminated .entry = (g.isTerminated .entry || stmt.ends)

theorem takes_extend (hbinds : stmt.binds? = none) (hends : stmt.ends = false) (is : List Instruction) :
    Takes stmt g (g.extend is) where
  blocks := blocks_extend h is
  bound := by rw [bound_congr (blockParams_extend g is), hbinds, Option.toList_none, append_nil]
  isTerminated := by rw [isTerminated_extend, hends, Bool.or_false]

theorem takes_setFlow (hbinds : stmt.binds? = none) (hends : stmt.ends = true) (is : List Instruction) (flow : Flow) :
    Takes stmt g ((g.extend is).setFlow .entry flow) := by
  refine ⟨single_modifyBlock (blocks_extend h is) _, ?_, ?_⟩
  · rw [bound_congr (blockParams_setFlow _ .entry flow), bound_congr (blockParams_extend g is), hbinds,
      Option.toList_none, append_nil]
  · rw [isTerminated, block_setFlow (blocks_extend h is), hends, Bool.or_true]
    rfl

theorem takes_declare (name : String) (type? : Option TypeExpr)
    (value : Option Expr) (span : Span) (is : List Instruction) (type : Option TypeId)
    (init : Option InstrId) : Takes (.var name type? value span) g ((g.extend is).declare name type init) := by
  have hsingle := blocks_extend h is
  refine ⟨blocks_extend (single_addParam hsingle name type) _, ?_, ?_⟩
  · rw [bound, params_declare hsingle, map_append, ← bound, bound_congr (blockParams_extend g is)]
    rfl
  · rw [declare, isTerminated_extend, addParam, isTerminated_modifyBlock, isTerminated_extend]
    · exact (Bool.or_false _).symm
    · exact fun _ => rfl

end FlowGraph

namespace Scope
variable {e : Scope} {s : BodyState} {stmts : List Stmt}

/-! ## One statement -/

theorem examines_lowerOptional (s : BodyState) (value : Option Expr) (expected : Option TypeId) :
    e.Examines (value.toList.flatMap Expr.leaves) s (e.lowerOptional s value expected).2 := by
  cases value with
  | none => exact .nil s
  | some value =>
    rw [Option.toList_some, flatMap_singleton]
    exact (assesses_lowerExpr s value expected).examines

theorem lowerVar_eq (e : Scope) (s : BodyState) (name : String) (type : Option TypeExpr)
    (value : Option Expr) : ∃ is, e.Makes s.graph (value.toList.flatMap Expr.leaves) is ∧
      e.lowerVar s name type value = ⟨(e.variableType s type value).2.context.record
            ((value.toList.flatMap Expr.leaves).filterMap (e.fault? s.graph)),
          (s.graph.extend is).declare name (e.variableType s type value).1
            (e.lowerOptional (e.variableType s type value).2 value (e.variableType s type value).1).1⟩ := by
  have hgraph : (e.variableType s type value).2.graph = s.graph := by
    cases type <;> rfl
  obtain ⟨is, hadded, hmakes⟩ := examines_lowerOptional (e := e) (e.variableType s type value).2 value
    (e.variableType s type value).1
  rw [hgraph] at hadded hmakes
  refine ⟨is, hmakes, ?_⟩
  unfold lowerVar
  dsimp only
  generalize e.lowerOptional _ value _ = r at hadded
  obtain ⟨init, s₁⟩ := r
  obtain rfl : s₁ = _ := hadded
  rw [BodyState.added, hgraph]
  simp [BodyState.append, declare, extend, bound, addParam]

theorem declares_lowerVar (hs : s.graph.blocks = [s.graph.block .entry]) (name : String)
    (type : Option TypeExpr) (value : Option Expr) : (e.lowerVar s name type value).graph.instructions.getLast? =
        some (.alloca ⟨.entry, s.graph.bound.length⟩ (e.variableType s type value).1
          (e.lowerOptional (e.variableType s type value).2 value (e.variableType s type value).1).1) ∧
      ((e.lowerVar s name type value).graph.block .entry).params =
        (s.graph.block .entry).params ++ [⟨name, (e.variableType s type value).1⟩] := by
  obtain ⟨is, -, heq⟩ := e.lowerVar_eq s name type value
  have hbound := bound_congr (s.graph.blockParams_extend is)
  rw [heq, instructions_declare, getLast?_concat, hbound, params_declare (blocks_extend hs is), params_extend]
  exact ⟨rfl, rfl⟩

theorem lowerThrow_eq (e : Scope) (s : BodyState) (value : Expr) : ∃ is,
    is.filterMap Instruction.read? = value.leaves.filterMap (e.reading? s.graph) ∧
      e.lowerThrow s value = (s.added (e.faults s.graph value) is).setFlow .unreachable := by
  have hvalue := fun expected => (assesses_lowerExpr (e := e) s value expected).examines
  unfold lowerThrow
  dsimp only
  split
  next text span =>
    obtain ⟨is, hadded, hmakes⟩ := hvalue (s.types.primitive? .string)
    split
    next s₁ hlowered =>
      rw [hlowered] at hadded
      obtain rfl : s₁ = _ := hadded
      exact ⟨is, hmakes.reads, rfl⟩
    next message s₁ hlowered =>
      rw [hlowered] at hadded
      obtain rfl : s₁ = _ := hadded
      split
      next ctor hctor =>
        refine ⟨is ++ [.newObject ctor [message]], ?_, ?_⟩
        · rw [filterMap_append, hmakes.reads]
          exact append_nil _
        · rw [BodyState.append_eq_added, BodyState.added_added, append_nil]
          rfl
      next => exact ⟨is, hmakes.reads, rfl⟩
  next =>
    obtain ⟨is, hadded, hmakes⟩ := hvalue none
    exact ⟨is, hmakes.reads, by rw [hadded]; rfl⟩

theorem foldl_lowerCall_eq (e : Scope) (s : BodyState) (calls : List Call) :
    ∃ ds is, calls.foldl e.lowerCall s = s.added ds is := by
  induction calls generalizing s with
  | nil => exact ⟨[], [], s.added_nil.symm⟩
  | cons call calls ih =>
    obtain ⟨ds, is, hfirst, -⟩ := e.concludes_lowerCall s call
    obtain ⟨ds', is', hrest⟩ := ih (s.added ds is)
    refine ⟨ds ++ ds', is ++ is', ?_⟩
    rw [foldl_cons, hfirst, hrest, BodyState.added_added]

theorem takes_lowerStmt (e : Scope) (hs : s.graph.blocks = [s.graph.block .entry]) (stmt : Stmt) :
    Takes stmt s.graph (e.lowerStmt s stmt).graph := by
  cases stmt with
  | var name type value span =>
    obtain ⟨is, -, heq⟩ := e.lowerVar_eq s name type value
    rw [lowerStmt, heq]
    exact takes_declare hs name type value span is _ _
  | call callee args span =>
    rcases e.lowerStmt_call s callee args span with ⟨c, -, heq, -⟩ | heq
    · rw [heq]
      exact takes_extend hs rfl rfl []
    · obtain ⟨ds, is, hadded⟩ := e.foldl_lowerCall_eq s (e.callsOf s.types (.call callee args span))
      rw [heq, hadded]
      exact takes_extend hs rfl rfl is
  | ret value span =>
    obtain ⟨is, hadded, -⟩ := examines_lowerOptional (e := e) s value e.returnType
    simp only [lowerStmt]
    rw [hadded]
    exact takes_setFlow hs rfl rfl is _
  | throw value span =>
    obtain ⟨is, -, heq⟩ := e.lowerThrow_eq s value
    rw [lowerStmt, heq]
    exact takes_setFlow hs rfl rfl is _
  | error span => exact takes_extend hs rfl rfl []

/-! ## Statements one after the other -/

theorem lowerStmts_of_terminated (h : s.graph.isTerminated .entry = true) (stmts : List Stmt) :
    e.lowerStmts s stmts = s := by
  cases stmts with
  | nil => rfl
  | cons stmt stmts => rw [lowerStmts, if_pos h]

theorem lowerStmts_cons_of_open (h : s.graph.isTerminated .entry = false) (stmt : Stmt) (stmts : List Stmt) :
    e.lowerStmts s (stmt :: stmts) = e.lowerStmts (e.lowerStmt s stmt) stmts := by
  rw [lowerStmts, h]
  rfl

theorem lowerStmts_append (e : Scope) (s : BodyState) (stmts rest : List Stmt) :
    e.lowerStmts s (stmts ++ rest) = e.lowerStmts (e.lowerStmts s stmts) rest := by
  induction stmts generalizing s with
  | nil => rfl
  | cons stmt stmts ih =>
    rw [cons_append]
    cases h : s.graph.isTerminated .entry with
    | true => rw [lowerStmts_of_terminated h, lowerStmts_of_terminated h, lowerStmts_of_terminated h]
    | false => rw [lowerStmts_cons_of_open h, lowerStmts_cons_of_open h, ih]

/-- Statements that do not end the body leave it open, with one variable for each name that they bind. -/
theorem open_lowerStmts (e : Scope) (hs : s.graph.blocks = [s.graph.block .entry])
    (hopen : s.graph.isTerminated .entry = false) (hends : ∀ stmt ∈ stmts, stmt.ends = false) :
    (e.lowerStmts s stmts).graph.isTerminated .entry = false ∧
      (e.lowerStmts s stmts).graph.bound = s.graph.bound ++ Stmt.bound stmts := by
  induction stmts generalizing s with
  | nil => exact ⟨hopen, (append_nil _).symm⟩
  | cons stmt stmts ih =>
    obtain ⟨hstmt, hrest⟩ := forall_mem_cons.mp hends
    have htakes := takes_lowerStmt e hs stmt
    have hstill := htakes.isTerminated
    rw [hopen, hstmt, Bool.or_false] at hstill
    obtain ⟨hopen', hbound⟩ := ih htakes.blocks hstill hrest
    rw [lowerStmts_cons_of_open hopen]
    refine ⟨hopen', ?_⟩
    rw [hbound, htakes.bound, append_assoc, Stmt.bound_cons]

theorem terminated_lowerStmts (e : Scope) (hs : s.graph.blocks = [s.graph.block .entry])
    (hends : ∃ stmt ∈ stmts, stmt.ends = true) : (e.lowerStmts s stmts).graph.isTerminated .entry = true := by
  induction stmts generalizing s with
  | nil => simp at hends
  | cons stmt stmts ih =>
    cases hopen : s.graph.isTerminated .entry with
    | true => rwa [lowerStmts_of_terminated hopen]
    | false =>
      have htakes := takes_lowerStmt e hs stmt
      rw [lowerStmts_cons_of_open hopen]
      obtain ⟨last, hmem, hlast⟩ := hends
      rcases mem_cons.mp hmem with rfl | hmem
      · have hafter := htakes.isTerminated
        rw [hlast, Bool.or_true] at hafter
        rwa [lowerStmts_of_terminated hafter]
      · exact ih htakes.blocks ⟨last, hmem, hlast⟩

/-- The variables of a body are those that are bound before its end. -/
theorem bound_lowerStmts (e : Scope) (hs : s.graph.blocks = [s.graph.block .entry])
    (hopen : s.graph.isTerminated .entry = false) (stmts : List Stmt) :
    (e.lowerStmts s stmts).graph.bound = s.graph.bound ++ Stmt.bound (stmts.takeWhile (!·.ends)) := by
  induction stmts generalizing s with
  | nil => exact (append_nil _).symm
  | cons stmt stmts ih =>
    have htakes := takes_lowerStmt e hs stmt
    have hafter := htakes.isTerminated
    rw [hopen, Bool.false_or] at hafter
    rw [lowerStmts_cons_of_open hopen, takeWhile_cons]
    cases hends : stmt.ends with
    | true =>
      rw [hends] at hafter
      rw [lowerStmts_of_terminated hafter, htakes.bound, Stmt.binds?_of_ends hends]
      rfl
    | false =>
      rw [hends] at hafter
      rw [ih htakes.blocks hafter, htakes.bound, append_assoc]
      exact congrArg (s.graph.bound ++ ·) (Stmt.bound_cons stmt _).symm

end Scope

/-- What stands after a return or a throw does not matter; statements before which there is none go on where those
before have stopped. -/
theorem Context.code_after_end_ignored (c : Context) (p : PendingBody) (stmts rest other : List Stmt) :
    ((∃ stmt ∈ stmts, stmt.ends = true) →
      (c.scopeOf p).lowerStmts { context := c } (stmts ++ rest) =
        (c.scopeOf p).lowerStmts { context := c } (stmts ++ other) ∧
      c.lowerBody { p with body := stmts ++ rest } = c.lowerBody { p with body := stmts ++ other }) ∧
    ((∀ stmt ∈ stmts, stmt.ends = false) →
      ((c.scopeOf p).lowerStmts { context := c } stmts).graph.isTerminated .entry = false ∧
      (c.scopeOf p).lowerStmts { context := c } (stmts ++ rest) =
        (c.scopeOf p).lowerStmts ((c.scopeOf p).lowerStmts { context := c } stmts) rest) := by
  refine ⟨fun hends => ?_, fun hends => ⟨?_, Scope.lowerStmts_append _ _ _ _⟩⟩
  · have hstop := Scope.terminated_lowerStmts (s := { context := c }) (c.scopeOf p) rfl hends
    have hsame : (c.scopeOf p).lowerStmts { context := c } (stmts ++ rest) =
        (c.scopeOf p).lowerStmts { context := c } (stmts ++ other) := by
      rw [Scope.lowerStmts_append, Scope.lowerStmts_append, Scope.lowerStmts_of_terminated hstop,
        Scope.lowerStmts_of_terminated hstop]
    refine ⟨hsame, ?_⟩
    unfold Context.lowerBody
    exact congrArg (fun s : BodyState => s.context.withTypes (s.types.setBody p.method s.graph.close)) hsame
  · exact (Scope.open_lowerStmts (s := { context := c }) (c.scopeOf p) rfl rfl hends).1

/-- A name that means nothing is reported in a return, but not after it; a variable that is bound to such a name is
there for what comes after. -/
theorem Context.code_after_end_ignored_unknown :
    ((Context.start "Demo").lowerBody { method := ⟨⟨0⟩, 0⟩, module := ⟨["Demo"]⟩, body :=
      [.ret (some (.ident "x" {})) {}] ++ [.ret (some (.ident "y" {})) {}] }).diagnostics.map Diagnostic.code =
        [some .unresolvedName] ∧
    (((Context.start "Demo").scopeOf ⟨⟨⟨0⟩, 0⟩, ⟨["Demo"]⟩, []⟩).lowerStmts { context := .start "Demo" }
      ([.var "x" none (some (.ident "y" {})) {}] ++ [.ret (some (.ident "x" {})) {}])).context.diagnostics.map
        Diagnostic.code = [some .unresolvedName] := by
  have hignored := code_after_end_ignored (.start "Demo") ⟨⟨⟨0⟩, 0⟩, ⟨["Demo"]⟩, []⟩
  have hends := hignored [.ret (some (.ident "x" {})) {}] [.ret (some (.ident "y" {})) {}] []
  have hopen := hignored [.var "x" none (some (.ident "y" {})) {}] [.ret (some (.ident "x" {})) {}] []
  constructor
  · rw [(hends.1 ⟨_, List.mem_singleton.mpr rfl, rfl⟩).2]
    decide +kernel
  · rw [(hopen.2 (by decide)).2]
    decide +kernel

/-! ## Programs -/

namespace Compilation
variable {trees : List Tree} {options : Options} {before after : List PendingBody} {p : PendingBody}

/-- The state `s` is that in which the statement `stmt` of a body is lowered, after the statements `earlier`, and
`last` is that after all statements. -/
structure Precedes (trees : List Tree) (options : Options) (e : Scope) (earlier : List Stmt) (stmt : Stmt)
    (s last : BodyState) : Prop where
  reached : Reached trees options e s
  bounded : s.Bounded e
  bound : s.graph.bound = Stmt.bound earlier
  continues : (e.lowerStmt s stmt).Continues last

theorem precedes_of_queue (h : (declared trees options).queue = before ++ p :: after) {c : Context}
    (hc : (declared trees options).context.lowerBodies before = c) {earlier later : List Stmt} {stmt : Stmt}
    (hbody : p.body = earlier ++ stmt :: later) (hends : ∀ other ∈ earlier, other.ends = false) :
    Precedes trees options (c.scopeOf p) earlier stmt ((c.scopeOf p).lowerStmts { context := c } earlier)
      ((c.scopeOf p).lowerStmts { context := c } p.body) := by
  have henlarges := enlarges_completing trees options h
  have hmethod := ((bounded_declared trees options).queue p (by simp [h])).mono henlarges.includes
  have hbounded := henlarges.bounded (bounded_declared trees options).context
  have hreached : Reached trees options _ _ := .queued h
  rw [hc] at hbounded hmethod hreached
  obtain ⟨hopen, hbound⟩ := (c.scopeOf p).open_lowerStmts (s := { context := c }) rfl rfl hends
  refine ⟨hreached.stmts earlier, ?_, hbound, ?_⟩
  · exact Scope.bounded_lowerStmts (Context.bounded_scopeOf hbounded.types hmethod) earlier
  · rw [hbody, Scope.lowerStmts_append, Scope.lowerStmts_cons_of_open hopen]
    exact (c.scopeOf p).continues_lowerStmts _ later

/-- The variable that a statement binds is in the body at last, in the place that the statements before leave
it. -/
theorem Precedes.param {e : Scope} {earlier : List Stmt} {name : String} {type : Option TypeExpr}
    {value : Option Expr} {span : Span} {s last : BodyState} {m : Method} {g : FlowGraph}
    (h : Precedes trees options e earlier (.var name type value span) s last)
    (hfinishes : Finishes trees options e last m g) :
    (g.block .entry).params[(Stmt.bound earlier).length]? = some ⟨name, (e.variableType s type value).1⟩ := by
  have hparams := (Scope.declares_lowerVar (e := e) h.bounded.graph.blocks name type value).2
  obtain ⟨rest, hrest⟩ := h.continues.params .entry
  rw [← h.bound, FlowGraph.bound, length_map, params_block g, hfinishes.params,
    ← params_block, ← hrest, Scope.lowerStmt, hparams, append_assoc, getElem?_append_right le_rfl, Nat.sub_self]
  rfl

end Compilation

end TreeCompiler
