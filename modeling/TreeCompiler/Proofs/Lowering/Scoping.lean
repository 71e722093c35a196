import TreeCompiler.Proofs.Lowering.Statements

/-!
# Names in bodies

A name in a body is that of a parameter, else of the latest variable that a statement before has bound to it,
else of the object itself. What it means depends on the statements before alone, and not on how they were
lowered.
-/

namespace TreeCompiler

open List FlowGraph BodyState

/-! ## What names mean -/

namespace Scope
variable {e : Scope} {g : FlowGraph}

/-- What a name means after the statements `earlier`: the first parameter of that name, else the variable of
the latest statement that binds it, else the object itself, if there is one. -/
inductive Reads (e : Scope) (earlier : List Stmt) (name : String) : Option Meaning → Prop where
  | param {before after : List Parameter} {p : Parameter} : e.params = before ++ p :: after → p.name = name →
      (∀ q ∈ before, q.name ≠ name) → Reads e earlier name (some (.param before.length))
  | binding {before after : List Stmt} {stmt : Stmt} : (∀ p ∈ e.params, p.name ≠ name) →
      earlier = before ++ stmt :: after → stmt.binds? = some name →
      (∀ other ∈ after, other.binds? ≠ some name) →
      Reads e earlier name (some (.binding ⟨.entry, (Stmt.bound before).length⟩))
  | this : (∀ p ∈ e.params, p.name ≠ name) → (∀ stmt ∈ earlier, stmt.binds? ≠ some name) →
      name = "this" → e.isStatic = false → Reads e earlier name (some .this)
  | nothing : (∀ p ∈ e.params, p.name ≠ name) → (∀ stmt ∈ earlier, stmt.binds? ≠ some name) →
      ¬ (name = "this" ∧ e.isStatic = false) → Reads e earlier name none

theorem exists_split_of_findIdx? {α : Type} {l : List α} {P : α → Bool} {i : Nat}
    (h : l.findIdx? P = some i) : ∃ before a after, l = before ++ a :: after ∧ before.length = i ∧
      P a = true ∧ ∀ b ∈ before, P b = false := by
  obtain ⟨hlt, hp, hbefore⟩ := findIdx?_eq_some_iff_getElem.mp h
  refine ⟨l.take i, l[i], l.drop (i + 1), ?_, ?_, hp, fun b hb => ?_⟩
  · rw [getElem_cons_drop, take_append_drop]
  · rw [length_take]
    omega
  · obtain ⟨j, hj, rfl⟩ := getElem_of_mem hb
    rw [length_take] at hj
    rw [getElem_take]
    exact Bool.eq_false_iff.mpr (hbefore j (by omega))

variable {earlier : List Stmt} (hbound : g.bound = Stmt.bound earlier)
include hbound

theorem split_of_findParam? {name : String} {b : BindingId} (h : g.findParam? .entry name = some b) :
    ∃ before stmt after, earlier = before ++ stmt :: after ∧ stmt.binds? = some name ∧
      (∀ other ∈ after, other.binds? ≠ some name) ∧ b = ⟨.entry, (Stmt.bound before).length⟩ := by
  obtain ⟨i, hi, rfl⟩ := Option.map_eq_some_iff.mp h
  obtain ⟨late, v, early, hsplit, rfl, hname, hlate⟩ := exists_split_of_findIdx? hi
  have hparams : (g.block .entry).params = early.reverse ++ v :: late.reverse := by
    rw [← reverse_reverse (g.block .entry).params, hsplit, reverse_append, reverse_cons,
      append_assoc, singleton_append]
  rw [bound, hparams, map_append, map_cons, beq_iff_eq.mp hname] at hbound
  -- the names of the variables before and after are those that the statements before and after bind
  obtain ⟨first, second, rfl, hfirst, hsecond⟩ := filterMap_eq_append_iff.mp hbound.symm
  obtain ⟨skipped, stmt, after, rfl, hskipped, hstmt, hafter⟩ := filterMap_eq_cons_iff.mp hsecond
  refine ⟨first ++ skipped, stmt, after, (append_assoc _ _ _).symm, hstmt, fun other hother hbinds => ?_, ?_⟩
  · have hmem : name ∈ after.filterMap Stmt.binds? := mem_filterMap.mpr ⟨other, hother, hbinds⟩
    rw [hafter] at hmem
    obtain ⟨w, hw, rfl⟩ := mem_map.mp hmem
    have hnot := hlate w (mem_reverse.mp hw)
    rw [beq_self_eq_true] at hnot
    cases hnot
  · rw [Stmt.bound, filterMap_append, hfirst, filterMap_eq_nil_iff.mpr hskipped, append_nil, hparams]
    simp only [length_append, length_cons, length_reverse, length_map]
    congr 1
    omega

theorem not_bound_of_findParam? {name : String} (h : g.findParam? .entry name = none) :
    ∀ stmt ∈ earlier, stmt.binds? ≠ some name := by
  intro stmt hstmt hbinds
  have hmem : name ∈ g.bound := hbound ▸ mem_filterMap.mpr ⟨stmt, hstmt, hbinds⟩
  obtain ⟨v, hv, rfl⟩ := mem_map.mp hmem
  have hnot := findIdx?_eq_none_iff.mp (Option.map_eq_none_iff.mp h) v (mem_reverse.mpr hv)
  exact beq_eq_false_iff_ne.mp hnot rfl

/-- Names mean what the statements before say. -/
theorem reads_meaning? (name : String) : e.Reads earlier name (e.meaning? g name) := by
  unfold meaning?
  split
  next i hi =>
    obtain ⟨before, p, after, hsplit, rfl, hname, hbefore⟩ := exists_split_of_findIdx? hi
    exact .param hsplit (beq_iff_eq.mp hname) fun q hq => beq_eq_false_iff_ne.mp (hbefore q hq)
  next hparams =>
    have hnone : ∀ p ∈ e.params, p.name ≠ name :=
      fun p hp => beq_eq_false_iff_ne.mp (findIdx?_eq_none_iff.mp hparams p hp)
    split
    next b hb =>
      obtain ⟨before, stmt, after, hsplit, hbinds, hafter, rfl⟩ := split_of_findParam? hbound hb
      exact .binding hnone hsplit hbinds hafter
    next hvariables =>
      have hnot := not_bound_of_findParam? hbound hvariables
      split
      next hthis => exact .this hnone hnot hthis.1 ((Bool.not_eq_true' _).mp hthis.2)
      next hthis => exact .nothing hnone hnot fun h => hthis ⟨h.1, (Bool.not_eq_true' _).mpr h.2⟩

end Scope

/-! ## What is looked at -/

def Expr.ident? : Expr → Option (String × Span)
  | .ident name span => some (name, span)
  | _ => none

/-- All leaves of the expressions in a statement, in order. -/
def Stmt.leaves : Stmt → List Expr
  | .var _ _ value _ => value.toList.flatMap Expr.leaves
  | .call _ args _ => args.flatMap Expr.leaves
  | .ret value _ => value.toList.flatMap Expr.leaves
  | .throw value _ => value.leaves
  | .error _ => []

namespace Scope
variable {e : Scope} {g : FlowGraph} {s : BodyState} {args : List Expr} {console : TypeId} {call : Call}

/-- The leaves of a statement that are looked at, where `ds` is recorded. These are all leaves, but a call that
does not print may be given up: before its arguments, if its type or its name is not found, or after the first
argument with which something is wrong. -/
inductive LooksAt (e : Scope) (s : BodyState) (ds : List Diagnostic) : Stmt → List Expr → Prop where
  | all (stmt : Stmt) : LooksAt e s ds stmt stmt.leaves
  | unknown (callee : Callee) (args : List Expr) (span : Span) (d : Diagnostic) :
      callee ≠ .unqualified printName →
      (∀ call ∈ e.callsOf s.types (.call callee args span), call.Unknown s.types) →
      ds = [d] → d.code = some .unresolvedType ∨ d.code = some .unresolvedCall →
      LooksAt e s ds (.call callee args span) []
  | faulty (callee : Callee) (before : List Expr) (arg : Expr) (after : List Expr) (span : Span) :
      callee ≠ .unqualified printName → ds = e.faults s.graph arg → ds ≠ [] →
      LooksAt e s ds (.call callee (before ++ arg :: after) span) ((before ++ [arg]).flatMap Expr.leaves)

/-- The instructions read what the names in the leaves mean, in order. For each name that means nothing an
error is recorded, in order, and there is no other error of this kind. -/
structure Follows (meaning : String → Option Meaning) (leaves : List Expr) (ds : List Diagnostic)
    (is : List Instruction) : Prop where
  reads : is.filterMap Instruction.read? = (leaves.filterMap Expr.ident?).filterMap fun n => meaning n.1
  reports : ds.filter (·.code == some .unresolvedName) =
    ((leaves.filterMap Expr.ident?).filter fun n => (meaning n.1).isNone).map fun n => unknownName n.1 n.2

/-- Of what is wrong with leaves, the errors about names are those about names that mean nothing. -/
theorem filter_faults (leaves : List Expr) : (leaves.filterMap (e.fault? g)).filter (·.code == some .unresolvedName) =
      ((leaves.filterMap Expr.ident?).filter fun n => (e.meaning? g n.1).isNone).map
        fun n => unknownName n.1 n.2 := by
  induction leaves with
  | nil => rfl
  | cons leaf leaves ih =>
    cases leaf with
    | literal value span | binary op lhs rhs span | error span => exact ih
    | ident name span =>
      have hident : (Expr.ident name span).ident? = some (name, span) := rfl
      rw [filterMap_cons_some hident, filter_cons]
      cases hmeaning : e.meaning? g name with
      | some m =>
        have hfault : e.fault? g (.ident name span) = none := if_pos (by
          by_contra hnot
          rw [meaning?_eq_none_iff.mpr hnot] at hmeaning
          cases hmeaning)
        rw [filterMap_cons_none hfault]
        exact ih
      | none =>
        have hfault : e.fault? g (.ident name span) = some (unknownName name span) :=
          if_neg (meaning?_eq_none_iff.mp hmeaning)
        rw [filterMap_cons_some hfault]
        exact congrArg (unknownName name span :: ·) ih

namespace Follows
variable {meaning : String → Option Meaning} {leaves leaves' : List Expr} {ds ds' : List Diagnostic}
  {is is' : List Instruction} {code : ErrorCode}

theorem append (h : Follows meaning leaves ds is) (h' : Follows meaning leaves' ds' is') :
    Follows meaning (leaves ++ leaves') (ds ++ ds') (is ++ is') where
  reads := by rw [filterMap_append, filterMap_append, filterMap_append, h.reads, h'.reads]
  reports := by
    rw [filter_append, filterMap_append, filter_append, map_append, h.reports, h'.reports]

theorem of_quiet (hcode : code ≠ .unresolvedName) (hds : ∀ d ∈ ds, d.code = some code)
    (his : is.filterMap Instruction.read? = []) : Follows meaning [] ds is where
  reads := his
  reports := by
    refine filter_eq_nil_iff.mpr fun d hd hname => hcode (Option.some.inj ?_)
    rw [← hds d hd]
    exact beq_iff_eq.mp hname

theorem report (h : Follows meaning leaves ds is) {d : Diagnostic} (hd : d.code = some code)
    (hcode : code ≠ .unresolvedName) : Follows meaning leaves (ds ++ [d]) is := by
  have hquiet : Follows meaning [] [d] [] := of_quiet hcode (forall_mem_singleton.mpr hd) rfl
  have hboth := h.append hquiet
  rwa [append_nil, append_nil] at hboth

theorem concat (h : Follows meaning leaves ds is) {i : Instruction} (hi : i.read? = none) :
    Follows meaning leaves ds (is ++ [i]) := by
  have hquiet : Follows meaning [] [] [i] := ⟨filterMap_cons_none hi, rfl⟩
  have hboth := h.append hquiet
  rwa [append_nil, append_nil] at hboth

theorem of_reads (h : is.filterMap Instruction.read? = leaves.filterMap (e.reading? g)) :
    Follows (e.meaning? g) leaves (leaves.filterMap (e.fault? g)) is where
  reads := by
    rw [h, filterMap_filterMap]
    congr 1
    funext leaf
    cases leaf <;> rfl
  reports := filter_faults leaves

end Follows

/-- From `s` to `s'` a statement is lowered whose names mean what `meaning` says. -/
def Respects (e : Scope) (meaning : String → Option Meaning) (stmt : Stmt) (s s' : BodyState) : Prop :=
  ∃ leaves ds is, e.LooksAt s ds stmt leaves ∧ s'.context.diagnostics = s.context.diagnostics ++ ds ∧
    s'.graph.instructions = s.graph.instructions ++ is ∧ Follows meaning leaves ds is

/-! ## Calls -/

theorem attended_of_faulty (h : e.argumentFaults g args ≠ []) :
    ∃ before arg after, args = before ++ arg :: after ∧ e.attended g args = before ++ [arg] ∧
      e.argumentFaults g args = e.faults g arg := by
  induction args with
  | nil => exact absurd rfl h
  | cons arg args ih =>
    by_cases hsilent : e.faults g arg = []
    · obtain ⟨hattended, hfaults⟩ := argumentFaults_cons_of_silent hsilent args
      obtain ⟨before, last, after, rfl, hrest, heq⟩ := ih (hfaults ▸ h)
      exact ⟨arg :: before, last, after, rfl, by rw [hattended, hrest, cons_append], hfaults.trans heq⟩
    · obtain ⟨hattended, hfaults⟩ := argumentFaults_cons_of_fault hsilent args
      exact ⟨[], arg, args, rfl, hattended, hfaults⟩

/-- Of a call whose name is found the arguments are looked at, up to the first with which something is
wrong. -/
theorem Concludes.follows {ds : List Diagnostic} {is : List Instruction} (h : e.Concludes s call ds is)
    (hknown : ¬ call.Unknown s.types) :
    Follows (e.meaning? s.graph) ((e.attended s.graph call.args).flatMap Expr.leaves) ds is := by
  have hargs : ∀ {is}, call.Prepares e s is → Follows (e.meaning? s.graph)
      ((e.attended s.graph call.args).flatMap Expr.leaves) (e.argumentFaults s.graph call.args) is :=
    fun hprepares => .of_reads hprepares.makes.reads
  cases h with
  | unknown message label hunknown => exact absurd hunknown hknown
  | faulty hprepares => exact hargs hprepares
  | unfit message label hprepares hsilent =>
    have hreport := (hargs hprepares).report (d := .error .unresolvedCall call.span message label) rfl (by decide)
    rwa [hsilent] at hreport
  | made method values hprepares hsilent =>
    have hcall := (hargs hprepares).concat (i := .call method values) rfl
    rwa [hsilent] at hcall

theorem respects_lowerCall {callee : Callee} {span : Span} (hprint : callee ≠ .unqualified printName)
    (hcalls : e.callsOf s.types (.call callee args span) = [call]) (hargs : call.args = args) :
    e.Respects (e.meaning? s.graph) (.call callee args span) s (e.lowerCall s call) := by
  subst hargs
  obtain ⟨ds, is, hadded, hconcludes⟩ := e.concludes_lowerCall s call
  rw [hadded]
  -- the name is found, and nothing is wrong with the arguments
  have hall : ∀ {ds is}, e.Concludes s call ds is → ¬ call.Unknown s.types → e.argumentFaults s.graph call.args = [] →
      e.Respects (e.meaning? s.graph) (.call callee call.args span) s (s.added ds is) := by
    intro ds is hconcludes hknown hsilent
    have hfollows := hconcludes.follows hknown
    rw [attended_eq_self hsilent] at hfollows
    exact ⟨_, ds, is, .all (.call callee call.args span), rfl, instructions_extend _ _, hfollows⟩
  cases hconcludes with
  | unknown message label hunknown =>
    refine ⟨[], _, [], .unknown callee call.args span _ hprint ?_ rfl (Or.inr rfl), rfl, ?_, ?_⟩
    · rw [hcalls]
      exact forall_mem_singleton.mpr hunknown
    · exact (append_nil _).symm
    · have hcode : ErrorCode.unresolvedCall ≠ .unresolvedName := by decide
      exact .of_quiet hcode (forall_mem_singleton.mpr rfl) rfl
  | faulty hprepares hfaulty =>
    have hfollows := (Concludes.faulty hprepares hfaulty).follows hprepares.known
    obtain ⟨before, arg, after, hsplit, hattended, hfaults⟩ := attended_of_faulty hfaulty
    rw [hattended] at hfollows
    rw [hsplit] at hfollows ⊢
    refine ⟨_, _, is, .faulty callee before arg after span hprint ?_ ?_, rfl, instructions_extend _ _, hfollows⟩
    · rw [← hsplit, hfaults]
    · rw [← hsplit]
      exact hfaulty
  | unfit message label hprepares hsilent =>
    exact hall (.unfit message label hprepares hsilent) hprepares.known hsilent
  | made method values hprepares hsilent =>
    exact hall (.made method values hprepares hsilent) hprepares.known hsilent

/-- Calls of one argument each: every argument is looked at, whatever is wrong with those before. -/
theorem follows_foldl_lowerCall {calls : List Call} (hknown : ∀ call ∈ calls, ¬ call.Unknown s.types)
    (hargs : ∀ call ∈ calls, ∃ arg, call.args = [arg]) : ∃ ds is, calls.foldl e.lowerCall s = s.added ds is ∧
      Follows (e.meaning? s.graph) (calls.flatMap fun call => call.args.flatMap Expr.leaves) ds is := by
  induction calls generalizing s with
  | nil => exact ⟨[], [], s.added_nil.symm, rfl, rfl⟩
  | cons call calls ih =>
    obtain ⟨hcall, hrest⟩ := forall_mem_cons.mp hknown
    obtain ⟨⟨arg, harg⟩, hargs⟩ := forall_mem_cons.mp hargs
    obtain ⟨ds, is, hadded, hconcludes⟩ := e.concludes_lowerCall s call
    have hfirst := hconcludes.follows hcall
    have hattended : e.attended s.graph call.args = call.args := by
      rw [harg, attended]
      split <;> rfl
    rw [hattended] at hfirst
    obtain ⟨ds', is', hadded', hfollows⟩ := ih (s := s.added ds is) hrest hargs
    rw [graph_added, meaning?_congr (s.graph.params_extend is .entry)] at hfollows
    refine ⟨ds ++ ds', is ++ is', ?_, hfirst.append hfollows⟩
    rw [foldl_cons, hadded, hadded', added_added]

theorem respects_lowerPrint (hconsole : s.types.system? "Console" = some console)
    (hwrites : candidates s.types console "Write" true ≠ []) (args : List Expr) (span : Span) :
    e.Respects (e.meaning? s.graph) (.call (.unqualified printName) args span) s (e.lowerPrint s args) := by
  have hcalls : ∀ call ∈ e.callsOf s.types (.call (.unqualified printName) args span),
      ¬ call.Unknown s.types ∧ ∃ arg, call.args = [arg] := by
    simp only [callsOf, hconsole]
    intro call hcall
    obtain ⟨arg, -, rfl⟩ := mem_map.mp (by simpa using hcall)
    exact ⟨hwrites, arg, rfl⟩
  obtain ⟨ds, is, hadded, hfollows⟩ := follows_foldl_lowerCall (e := e) (fun call hcall => (hcalls call hcall).1)
    fun call hcall => (hcalls call hcall).2
  have hleaves : ((e.callsOf s.types (.call (.unqualified printName) args span)).flatMap
      fun call => call.args.flatMap Expr.leaves) = args.flatMap Expr.leaves := by
    simp [callsOf, hconsole, flatMap_map]
  have hlower : e.lowerPrint s args = s.added ds is := by
    rw [← hadded]
    simp [callsOf, lowerPrint, hconsole, foldl_map]
  rw [hleaves] at hfollows
  rw [hlower]
  exact ⟨_, ds, is, .all _, rfl, instructions_extend _ _, hfollows⟩

/-! ## Statements -/

theorem seeks_variableType (e : Scope) (s : BodyState) (type : Option TypeExpr) (value : Option Expr) :
    s.context.Seeks (e.variableType s type value).2.context := by
  cases type with
  | none => exact .of_eq rfl
  | some type => exact (Context.resolves_resolveTypeExpr e.module s.context type).seeks

theorem respects_lowerVar (s : BodyState) (name : String) (type : Option TypeExpr) (value : Option Expr)
    (span : Span) : e.Respects (e.meaning? s.graph) (.var name type value span) s (e.lowerVar s name type value) := by
  obtain ⟨is, hmakes, heq⟩ := e.lowerVar_eq s name type value
  obtain ⟨ds, hseeks, hcodes⟩ := e.seeks_variableType s type value
  have hcode : ErrorCode.unresolvedType ≠ .unresolvedName := by decide
  have htype : Follows (e.meaning? s.graph) [] ds [] := .of_quiet hcode hcodes rfl
  have hvalue := htype.append (.of_reads hmakes.reads)
  rw [heq]
  generalize (e.lowerOptional _ value _).1 = init
  have hall := hvalue.concat (i := .alloca ⟨.entry, (s.graph.extend is).bound.length⟩ (e.variableType s type value).1
    init) rfl
  refine ⟨_, _, _, .all (.var name type value span), ?_, ?_, hall⟩
  · rw [Context.record, hseeks, append_assoc]
  · rw [instructions_declare, instructions_extend, append_assoc, nil_append]

/-- The names of a statement mean what they mean before it. -/
theorem respects_lowerStmt (hconsole : s.types.system? "Console" = some console)
    (hwrites : candidates s.types console "Write" true ≠ []) (stmt : Stmt) :
    e.Respects (e.meaning? s.graph) stmt s (e.lowerStmt s stmt) := by
  cases stmt with
  | var name type value span => exact respects_lowerVar s name type value span
  | call callee args span =>
    cases callee with
    | unqualified name =>
      rw [lowerStmt]
      split
      next hprint =>
        subst hprint
        exact respects_lowerPrint hconsole hwrites args span
      next hprint =>
        refine respects_lowerCall (fun h => hprint (Callee.unqualified.inj h)) ?_ rfl
        rw [callsOf, if_neg hprint]
    | qualified type name =>
      cases htype : s.context.types.resolveIn? e.module type with
      | none =>
        have hcalls : e.callsOf s.types (.call (.qualified type name) args span) = [] := by
          rw [callsOf, types, htype]
          rfl
        have hcode : ErrorCode.unresolvedType ≠ .unresolvedName := by decide
        rw [lowerStmt, Context.resolveType, htype]
        refine ⟨[], _, [], .unknown _ args span _ (fun h => by cases h) ?_ rfl (Or.inl rfl), rfl,
          (append_nil _).symm, .of_quiet hcode (forall_mem_singleton.mpr rfl) rfl⟩
        rw [hcalls]
        exact forall_mem_nil _
      | some owner =>
        rw [lowerStmt, Context.resolveType, htype]
        refine respects_lowerCall (fun h => by cases h) ?_ rfl
        rw [callsOf, types, htype]
        rfl
  | ret value span =>
    obtain ⟨is, hadded, hmakes⟩ := examines_lowerOptional (e := e) s value e.returnType
    simp only [lowerStmt]
    rw [hadded]
    exact ⟨_, _, is, .all (.ret value span), rfl, instructions_extend _ _, .of_reads hmakes.reads⟩
  | throw value span =>
    obtain ⟨is, hreads, heq⟩ := e.lowerThrow_eq s value
    rw [lowerStmt, heq]
    exact ⟨_, _, is, .all (.throw value span), rfl, instructions_extend _ _, .of_reads hreads⟩
  | error span =>
    have hcode : ErrorCode.malformedExpression ≠ .unresolvedName := by decide
    exact ⟨[], _, [], .all (.error span), rfl, (append_nil _).symm,
      .of_quiet hcode (forall_mem_singleton.mpr rfl) rfl⟩

end Scope

/-! ## Programs -/

namespace Compilation
variable {trees : List Tree} {options : Options} {before after : List PendingBody} {p : PendingBody}

/-- The variables of a body are those of the statements that bind names before its end, one for each and in
order. In every statement up to the end, each name that is looked at is read as the statements before it say, and
if it means nothing, that is reported. Here `c` is the state in which the body is lowered, and `s` that in which
the statement is. -/
theorem names_follow_scope (h : (declared trees options).queue = before ++ p :: after) {c : Context}
    (hc : (declared trees options).context.lowerBodies before = c) :
    ∃ m g, (lowered trees options).assembly.types.methodEntry p.method = .ok m ∧ m.body = some g ∧
      (c.scopeOf p).Serves m ∧ g.bound = Stmt.bound (p.body.takeWhile (!·.ends)) ∧
      ∀ earlier stmt later s, p.body = earlier ++ stmt :: later → (∀ other ∈ earlier, other.ends = false) →
        (c.scopeOf p).lowerStmts { context := c } earlier = s →
        ((c.scopeOf p).lowerStmt s stmt).graph.instructions <+: g.instructions ∧
        ((c.scopeOf p).lowerStmt s stmt).context.diagnostics <+: (lowered trees options).diagnostics ∧
        (∃ meaning, (∀ name, (c.scopeOf p).Reads earlier name (meaning name)) ∧
          (c.scopeOf p).Respects meaning stmt s ((c.scopeOf p).lowerStmt s stmt)) ∧
        ∀ name type value span, stmt = .var name type value span → ∃ held init,
          ((c.scopeOf p).lowerStmt s stmt).graph.instructions.getLast? =
            some (.alloca ⟨.entry, (Stmt.bound earlier).length⟩ held init) ∧
          (g.block .entry).params[(Stmt.bound earlier).length]? = some ⟨name, held⟩ := by
  obtain ⟨m, hfinishes⟩ := finishes_of_queue h hc
  refine ⟨m, _, hfinishes.entry, hfinishes.body, hfinishes.serves, ?_, ?_⟩
  · rw [FlowGraph.bound_congr hfinishes.params]
    exact (c.scopeOf p).bound_lowerStmts (s := { context := c }) rfl rfl p.body
  · rintro earlier stmt later s hbody hends rfl
    have hprecedes := precedes_of_queue h hc hbody hends
    obtain ⟨console, hconsole, hwrites⟩ := hprecedes.reached.console
    have hcontinues := hprecedes.continues
    refine ⟨?_, hcontinues.context.diagnostics.trans hfinishes.diagnostics, ⟨_, Scope.reads_meaning? hprecedes.bound,
      Scope.respects_lowerStmt hconsole hwrites stmt⟩, ?_⟩
    · rw [hfinishes.instructions]
      exact hcontinues.instructions
    · rintro name type value span rfl
      have hlast := (Scope.declares_lowerVar (e := c.scopeOf p) hprecedes.bounded.graph.blocks name type value).1
      rw [hprecedes.bound] at hlast
      exact ⟨_, _, hlast, hprecedes.param hfinishes⟩

/-- A function whose parameter is read, then two variables of one name, the second made from the first, and then
the second; a third comes too late. -/
def shadowTree : Tree :=
  { module := ⟨["Demo"]⟩
    body := [
      .fn { name := "f", params := [{ name := "x", type := .named ⟨["i32"]⟩ {} }], body := some [
        .var "y" none (some (.ident "x" {})) {},
        .var "y" none (some (.binary .add (.ident "y" {}) (.ident "z" {}) {})) {},
        .ret (some (.ident "y" {})) {},
        .var "y" none none {}] }] }

theorem names_follow_scope_shadowTree : ∃ p after m g,
    (declared [shadowTree] {}).queue = [] ++ p :: after ∧
    (lowered [shadowTree] {}).assembly.types.methodEntry p.method = .ok m ∧ m.body = some g ∧
    g.bound = ["y", "y"] ∧
    g.instructions.filterMap Instruction.read? = [.param 0, .binding ⟨.entry, 0⟩, .binding ⟨.entry, 1⟩] ∧
    (lowered [shadowTree] {}).diagnostics.map Diagnostic.code = [some .unresolvedName] := by
  have hmain : (declared [shadowTree] {}).queue.head?.any (fun p =>
      Stmt.bound (p.body.takeWhile (!·.ends)) == ["y", "y"] &&
      (((lowered [shadowTree] {}).assembly.types.methodEntry p.method).toOption.bind Method.body).any fun g =>
        g.instructions.filterMap Instruction.read? == [.param 0, .binding ⟨.entry, 0⟩, .binding ⟨.entry, 1⟩]) =
      true := by
    decide +kernel
  obtain ⟨p, hhead, hp⟩ := (Option.any_eq_true _ _).mp hmain
  obtain ⟨after, hqueue⟩ := List.head?_eq_some_iff.mp hhead
  have hfirst : (declared [shadowTree] {}).queue = [] ++ p :: after := hqueue
  obtain ⟨m, g, hm, hg, -, hbound, -⟩ := names_follow_scope hfirst rfl
  rw [hm, Bool.and_eq_true, beq_iff_eq] at hp
  obtain ⟨hnames, hreads⟩ := hp
  obtain ⟨g', hg', hreads⟩ := (Option.any_eq_true _ _).mp hreads
  cases hg.symm.trans hg'
  exact ⟨p, after, m, g, hfirst, hm, hg, hbound.trans hnames, beq_iff_eq.mp hreads, by decide +kernel⟩

/-- A call of a function that is not there, of a name that means nothing. -/
def missingTree : Tree :=
  { module := ⟨["Demo"]⟩
    body := [.fn { name := "main", body := some [.call (.unqualified "missing") [.ident "y" {}] {}] }] }

/-- In `missingTree` there is a name that is neither read nor reported. -/
theorem unresolved_call_hides_name : ∃ p after m g,
    (declared [missingTree] {}).queue = [] ++ p :: after ∧
    (lowered [missingTree] {}).assembly.types.methodEntry p.method = .ok m ∧ m.body = some g ∧
    ((p.body.flatMap Stmt.leaves).filterMap Expr.ident?).map Prod.fst = ["y"] ∧
    g.instructions.filterMap Instruction.read? = [] ∧
    (lowered [missingTree] {}).diagnostics.map Diagnostic.code = [some .unresolvedCall] := by
  have hmain : (declared [missingTree] {}).queue.head?.any (fun p =>
      ((p.body.flatMap Stmt.leaves).filterMap Expr.ident?).map Prod.fst == ["y"] &&
      (((lowered [missingTree] {}).assembly.types.methodEntry p.method).toOption.bind Method.body).any fun g =>
        g.instructions.filterMap Instruction.read? == []) = true := by
    decide +kernel
  obtain ⟨p, hhead, hp⟩ := (Option.any_eq_true _ _).mp hmain
  obtain ⟨after, hqueue⟩ := List.head?_eq_some_iff.mp hhead
  have hfirst : (declared [missingTree] {}).queue = [] ++ p :: after := hqueue
  obtain ⟨m, hm, -⟩ := methodEntry_lowered_of_queue hfirst
  rw [hm, Bool.and_eq_true, beq_iff_eq] at hp
  obtain ⟨hnames, hreads⟩ := hp
  obtain ⟨g, hg, hreads⟩ := (Option.any_eq_true _ _).mp hreads
  exact ⟨p, after, m, g, hfirst, hm, hg, hnames, beq_iff_eq.mp hreads, by decide +kernel⟩

end Compilation

end TreeCompiler
