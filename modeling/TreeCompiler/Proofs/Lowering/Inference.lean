import TreeCompiler.Proofs.Lowering.Statements

/-!
# Inferred types

The type of an expression is inferred before the expression is lowered, and the value that comes of lowering it
has just this type. A variable without a declared type takes the inferred one, so it has the type of the value
that it is filled from.
-/

namespace TreeCompiler

open FlowGraph BodyState

/-- The name and the value of a variable that is bound without a type. -/
def Stmt.untyped? : Stmt → Option (String × Expr)
  | .var name none (some value) _ => some (name, value)
  | _ => none

theorem Stmt.eq_of_untyped? {stmt : Stmt} {name : String} {value : Expr}
    (h : stmt.untyped? = some (name, value)) : ∃ span, stmt = .var name none (some value) span := by
  unfold untyped? at h
  split at h
  next span =>
    cases h
    exact ⟨span, rfl⟩
  next => cases h

theorem BodyState.instruction?_append (s : BodyState) (i : Instruction) :
    (s.append i).2.graph.instruction? (s.append i).1 = some i :=
  s.graph.instruction?_append_self .entry i

namespace Scope
variable {e : Scope} {s : BodyState} {id : InstrId} {expected : Option TypeId}

/-! ## Expressions -/

theorem type_literalConstant {l : Literal} (h : expected = none ∨ expected = s.context.literalType? l) :
    (literalConstant s l expected).2 = s.context.literalType? l := by
  unfold literalConstant
  dsimp only
  rcases h with rfl | rfl
  · rfl
  · split
    · split <;> rfl
    · rfl

theorem valueType_lowerIdent (he : e.Serves (s.types.method e.method)) {name : String} {span : Span}
    (h : (e.lowerIdent s name span).1 = some id) :
    e.valueType (e.lowerIdent s name span).2 id = e.infer s (.ident name span) := by
  cases hmeaning : e.meaning? s.graph name with
  | none =>
    rw [lowerIdent, hmeaning] at h
    cases h
  | some m =>
    rw [lowerIdent_of_meaning hmeaning] at h ⊢
    cases h
    rw [infer, hmeaning, valueType, resultType, instruction?_append]
    cases m with
    | param i =>
      rw [he.params]
      rfl
    | binding b =>
      change (param _ b).type = _
      rw [param, params_block, BodyState.append, blockParams_append, ← params_block]
      rfl
    | this => rfl

theorem type_operandTypes {op : Operator} {lhs rhs : Expr} {span : Span} {expected : Option TypeId}
    (h : expected = none ∨ expected = e.infer s (.binary op lhs rhs span)) :
    (e.operandTypes s op lhs rhs expected).2 = e.infer s (.binary op lhs rhs span) := by
  unfold operandTypes
  rw [infer] at h ⊢
  dsimp only
  split
  next => rfl
  next hop =>
    rw [if_neg hop] at h
    rcases h with rfl | rfl
    · rfl
    · exact Option.or_self

/-- The value of an expression has the type that is inferred for it. -/
theorem valueType_lowerExpr (he : e.Serves (s.types.method e.method)) {expr : Expr}
    (hexpected : expected = none ∨ expected = e.infer s expr) (h : (e.lowerExpr s expr expected).1 = some id) :
    e.valueType (e.lowerExpr s expr expected).2 id = e.infer s expr := by
  cases expr with
  | literal value span =>
    cases h
    change e.valueType (lowerLiteral s value expected).2 (lowerLiteral s value expected).1 =
      s.context.literalType? value
    rw [valueType, resultType, lowerLiteral, instruction?_append]
    exact type_literalConstant hexpected
  | ident name span => exact valueType_lowerIdent he h
  | binary op lhs rhs span =>
    have htype := type_operandTypes hexpected
    simp only [lowerExpr] at h ⊢
    split at h
    next left right hl hr =>
      cases h
      rw [valueType, resultType, instruction?_append]
      exact htype
    next => cases h
  | error span => cases h

/-! ## Variables -/

theorem continues_lowerVar (e : Scope) (s : BodyState) (name : String) (type : Option TypeExpr)
    (value : Option Expr) :
    (e.lowerOptional (e.variableType s type value).2 value (e.variableType s type value).1).2.Continues
      (e.lowerVar s name type value) :=
  .declare _ name _ _

end Scope

/-! ## Programs -/

namespace Compilation
variable {trees : List Tree} {options : Options}

/-- A value has the type in the finished program that it had when it was made. -/
theorem Finishes.resultType_eq {e : Scope} {s last : BodyState} {m : Method} {g : FlowGraph} {id : InstrId}
    (h : Finishes trees options e last m g) (hs : s.Bounded e) (hcontinues : s.Continues last)
    (hid : s.graph.HasResult id) :
    g.resultType (lowered trees options).assembly.types e.method.type m id = e.valueType s id := by
  refine FlowGraph.resultType_eq hs.graph.bounded (hcontinues.types.evolves.keeps.trans h.types) ?_ (fun b => ?_) ?_
    _ hid
  · rw [h.instructions]
    exact hcontinues.instructions
  · rw [params_block g, h.params, ← params_block]
    exact hcontinues.params b
  · rw [h.header, hcontinues.types.method_eq]

/-- A variable without a declared type has the inferred type of its value, which is the type of the value that it
is filled from. -/
theorem inferred_of_precedes {e : Scope} {earlier : List Stmt} {stmt : Stmt} {name : String} {value : Expr}
    {s last : BodyState} {m : Method} {g : FlowGraph} {type : TypeId} {id : InstrId}
    (h : Precedes trees options e earlier stmt s last) (hfinishes : Finishes trees options e last m g)
    (hstmt : stmt.untyped? = some (name, value)) (htype : e.infer s value = some type)
    (hvalue : (e.lowerExpr s value (some type)).1 = some id) :
    .alloca ⟨.entry, (Stmt.bound earlier).length⟩ (some type) (some id) ∈ g.instructions ∧
      (g.block .entry).params[(Stmt.bound earlier).length]? = some ⟨name, some type⟩ ∧
      g.resultType (lowered trees options).assembly.types e.method.type m id = some type := by
  obtain ⟨span, rfl⟩ := Stmt.eq_of_untyped? hstmt
  have hvariable : e.variableType s none (some value) = (some type, s) := by
    rw [Scope.variableType, Option.bind_some, htype]
    rfl
  have hlast := (Scope.declares_lowerVar (e := e) h.bounded.graph.blocks name none (some value)).1
  have hparam := h.param hfinishes
  have hmade := e.continues_lowerVar s name none (some value)
  rw [hvariable] at hlast hparam hmade
  rw [Scope.lowerOptional] at hlast hmade
  rw [hvalue, h.bound] at hlast
  refine ⟨?_, hparam, ?_⟩
  · rw [hfinishes.instructions]
    exact h.continues.instructions.subset (List.mem_of_getLast? hlast)
  · have hcovers : s.types.Covers (some type) := htype ▸ Scope.covers_infer h.bounded.located value
    have hevaluates := Scope.evaluates_lowerExpr (e := e) value fun _ => hcovers
    rw [hfinishes.resultType_eq (hevaluates.computes.bounded h.bounded) (hmade.trans h.continues)
        (hevaluates.defined id hvalue).hasResult,
      Scope.valueType_lowerExpr h.reached.serves (Or.inr htype.symm) hvalue, htype]

/-- While bodies are lowered, the value of an expression has the type that is inferred for the expression before,
whether this type or none is expected of it. In every body a variable without a declared type whose value has an
inferred type, and is made, has the type of the value that it is filled from. -/
theorem inferred_types_agree (trees : List Tree) (options : Options) :
    (∀ e s, Reached trees options e s → ∀ expr expected id,
      expected = none ∨ expected = e.infer s expr → (e.lowerExpr s expr expected).1 = some id →
      e.valueType (e.lowerExpr s expr expected).2 id = e.infer s expr) ∧
    ∀ before p after c, (declared trees options).queue = before ++ p :: after →
      (declared trees options).context.lowerBodies before = c →
      ∃ m g, (lowered trees options).assembly.types.methodEntry p.method = .ok m ∧ m.body = some g ∧
        ∀ earlier stmt later s name value type id, p.body = earlier ++ stmt :: later →
          (∀ other ∈ earlier, other.ends = false) →
          (c.scopeOf p).lowerStmts { context := c } earlier = s →
          stmt.untyped? = some (name, value) → (c.scopeOf p).infer s value = some type →
          ((c.scopeOf p).lowerExpr s value (some type)).1 = some id →
          .alloca ⟨.entry, (Stmt.bound earlier).length⟩ (some type) (some id) ∈ g.instructions ∧
          (g.block .entry).params[(Stmt.bound earlier).length]? = some ⟨name, some type⟩ ∧
          g.resultType (lowered trees options).assembly.types p.method.type m id = some type := by
  refine ⟨fun e s h expr expected id hexpected hid => ?_, fun before p after c h hc => ?_⟩
  · exact Scope.valueType_lowerExpr h.serves hexpected hid
  · obtain ⟨m, hfinishes⟩ := finishes_of_queue h hc
    refine ⟨m, _, hfinishes.entry, hfinishes.body, ?_⟩
    rintro earlier stmt later s name value type id hbody hends rfl hstmt htype hvalue
    exact inferred_of_precedes (precedes_of_queue h hc hbody hends) hfinishes hstmt htype hvalue

/-- A variable that is filled with a comparison of numbers. -/
def comparisonTree : Tree :=
  { module := ⟨["Demo"]⟩
    body := [
      .fn { name := "f", params := [{ name := "x", type := .named ⟨["i64"]⟩ {} }], body := some [
        .var "y" none (some (.binary .lt (.binary .add (.ident "x" {}) (.ofInt 1) {}) (.ident "x" {}) {})) {}] }] }

theorem inferred_types_agree_comparisonTree : ∃ p after m g type id,
    (declared [comparisonTree] {}).queue = [] ++ p :: after ∧
    (lowered [comparisonTree] {}).assembly.types.methodEntry p.method = .ok m ∧ m.body = some g ∧
    (declared [comparisonTree] {}).context.types.primitive? .bool = some type ∧
    .alloca ⟨.entry, 0⟩ (some type) (some id) ∈ g.instructions ∧
    g.resultType (lowered [comparisonTree] {}).assembly.types p.method.type m id = some type := by
  have hmain : (declared [comparisonTree] {}).queue.head?.any (fun p => p.body.head?.any fun stmt =>
      stmt.untyped?.any fun v =>
        (((declared [comparisonTree] {}).context.scopeOf p).infer
            { context := (declared [comparisonTree] {}).context } v.2).any fun type =>
          (declared [comparisonTree] {}).context.types.primitive? .bool == some type &&
          (((declared [comparisonTree] {}).context.scopeOf p).lowerExpr
            { context := (declared [comparisonTree] {}).context } v.2 (some type)).1.isSome) = true := by
    decide +kernel
  obtain ⟨p, hhead, hp⟩ := (Option.any_eq_true _ _).mp hmain
  obtain ⟨stmt, hstmt, hp⟩ := (Option.any_eq_true _ _).mp hp
  obtain ⟨v, hv, hp⟩ := (Option.any_eq_true _ _).mp hp
  obtain ⟨type, htype, hp⟩ := (Option.any_eq_true _ _).mp hp
  rw [Bool.and_eq_true, beq_iff_eq] at hp
  obtain ⟨hbool, hp⟩ := hp
  obtain ⟨id, hid⟩ := Option.isSome_iff_exists.mp hp
  obtain ⟨after, hqueue⟩ := List.head?_eq_some_iff.mp hhead
  obtain ⟨later, hbody⟩ := List.head?_eq_some_iff.mp hstmt
  have hfirst : (declared [comparisonTree] {}).queue = [] ++ p :: after := hqueue
  obtain ⟨m, g, hm, hg, hvariables⟩ := (inferred_types_agree [comparisonTree] {}).2 [] p after
    (declared [comparisonTree] {}).context hfirst rfl
  obtain ⟨halloca, -, hresult⟩ := hvariables [] stmt later { context := (declared [comparisonTree] {}).context }
    v.1 v.2 type id hbody (List.forall_mem_nil _) rfl hv htype hid
  exact ⟨p, after, m, g, type, id, hfirst, hm, hg, hbool, halloca, hresult⟩

end Compilation

end TreeCompiler
