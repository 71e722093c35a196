import TreeCompiler.Proofs.Lowering.Overloads

/-!
# Errors in bodies

An expression has a value unless it has an error, and what is wrong with it is said once for each place.
-/

namespace TreeCompiler

open List BodyState FlowGraph

/-! ## Growth -/

namespace FlowGraph

/-- Instructions at the end of the first block. -/
def extend (g : FlowGraph) (is : List Instruction) : FlowGraph :=
  is.foldl (fun g i => (g.append .entry i).2) g

variable (g : FlowGraph)

@[simp] theorem extend_nil : g.extend [] = g :=
  rfl

theorem extend_append (is js : List Instruction) : g.extend (is ++ js) = (g.extend is).extend js :=
  foldl_append

variable (is : List Instruction)

@[simp] theorem instructions_extend : (g.extend is).instructions = g.instructions ++ is := by
  induction is generalizing g with
  | nil => rw [extend_nil, append_nil]
  | cons i is ih =>
    have hfirst : (g.append .entry i).2.instructions = g.instructions ++ [i] := rfl
    change ((g.append .entry i).2.extend is).instructions = _
    rw [ih, hfirst, append_assoc, singleton_append]

@[simp] theorem blockParams_extend : (g.extend is).blockParams = g.blockParams := by
  induction is generalizing g with
  | nil => rfl
  | cons i is ih => exact (ih _).trans (blockParams_append g .entry i)

theorem params_extend (b : BlockId) : ((g.extend is).block b).params = (g.block b).params := by
  rw [params_block, params_block, blockParams_extend]

theorem extend_eq_self_iff {g : FlowGraph} {is : List Instruction} : g.extend is = g ↔ is = [] := by
  constructor
  · intro h
    have hsame := congrArg instructions h
    rw [instructions_extend] at hsame
    exact append_right_eq_self.mp hsame
  · rintro rfl
    rfl

end FlowGraph

def Context.record (c : Context) (ds : List Diagnostic) : Context :=
  { c with diagnostics := c.diagnostics ++ ds }

namespace BodyState

/-- Diagnostics are recorded and instructions are appended. -/
def added (s : BodyState) (ds : List Diagnostic) (is : List Instruction) : BodyState :=
  ⟨s.context.record ds, s.graph.extend is⟩

variable (s : BodyState)

@[simp] theorem added_nil : s.added [] [] = s := by
  rw [added, Context.record, append_nil, extend_nil]

@[simp] theorem added_added (ds ds' : List Diagnostic) (is is' : List Instruction) :
    (s.added ds is).added ds' is' = s.added (ds ++ ds') (is ++ is') := by
  simp only [added, Context.record, append_assoc, extend_append]

variable (ds : List Diagnostic) (is : List Instruction)

@[simp] theorem diagnostics_added : (s.added ds is).context.diagnostics = s.context.diagnostics ++ ds :=
  rfl

@[simp] theorem graph_added : (s.added ds is).graph = s.graph.extend is :=
  rfl

theorem append_eq_added (i : Instruction) : (s.append i).2 = s.added [] [i] := by
  rw [added, Context.record, append_nil]
  rfl

theorem report_eq_added (code : ErrorCode) (span : Span) (message label : String) :
    s.report code span message label = s.added [.error code span message label] [] :=
  rfl

end BodyState

/-! ## Leaves -/

namespace Expr

/-- What the operators of an expression stand between, from left to right. -/
def leaves : Expr → List Expr
  | .literal value span => [.literal value span]
  | .ident name span => [.ident name span]
  | .binary _ lhs rhs _ => lhs.leaves ++ rhs.leaves
  | .error span => [.error span]

theorem leaves_ne_nil (expr : Expr) : expr.leaves ≠ [] := by
  induction expr with
  | binary op lhs rhs span ihl ihr => exact append_ne_nil_of_left_ne_nil ihl _
  | _ => exact cons_ne_nil _ _

end Expr

def Instruction.read? : Instruction → Option Scope.Meaning
  | .loadArg (.param i) => some (.param i)
  | .loadArg .this => some .this
  | .loadLocal b => some (.binding b)
  | _ => none

namespace Scope
variable {e : Scope} {g g' : FlowGraph} {s s' s'' : BodyState} {args : List Expr} {arg : Expr} (m : Meaning)

/-- A name means something: it is that of a parameter, of a variable, or of the object itself. -/
def Knows (e : Scope) (g : FlowGraph) (name : String) : Prop :=
  (∃ p ∈ e.params, p.name = name) ∨ (∃ v ∈ (g.block .entry).params, v.name = name) ∨
    name = "this" ∧ e.isStatic = false

instance (e : Scope) (g : FlowGraph) (name : String) : Decidable (e.Knows g name) :=
  inferInstanceAs (Decidable (_ ∨ _))

theorem meaning?_eq_none_iff {name : String} : e.meaning? g name = none ↔ ¬ e.Knows g name := by
  have hparam : e.params.findIdx? (·.name == name) = none ↔ ¬ ∃ p ∈ e.params, p.name = name := by
    simp [findIdx?_eq_none_iff]
  have hvariable : g.findParam? .entry name = none ↔ ¬ ∃ v ∈ (g.block .entry).params, v.name = name := by
    simp [findParam?, findIdx?_eq_none_iff]
  unfold meaning? Knows
  rw [not_or, not_or, ← hparam, ← hvariable]
  cases e.params.findIdx? (·.name == name) with
  | some i => simp
  | none => cases g.findParam? .entry name <;> simp

def unknownName (name : String) (span : Span) : Diagnostic :=
  .error .unresolvedName span s!"Cannot find value '{name}' in this scope" "not a parameter or local variable"

/-- The error about a part of an expression that could not be read. -/
def malformed (span : Span) : Diagnostic :=
  .error .malformedExpression span "Malformed expression" "the parser could not recover this expression"

def fault? (e : Scope) (g : FlowGraph) : Expr → Option Diagnostic
  | .ident name span => if e.Knows g name then none else some (unknownName name span)
  | .error span => some (malformed span)
  | _ => none

def reading? (e : Scope) (g : FlowGraph) : Expr → Option Meaning
  | .ident name _ => e.meaning? g name
  | _ => none

/-- What is wrong with an expression: one error for each leaf that has one, from left to right. -/
def faults (e : Scope) (g : FlowGraph) (expr : Expr) : List Diagnostic :=
  expr.leaves.filterMap (e.fault? g)

section Congr
variable (h : (g'.block .entry).params = (g.block .entry).params)
include h

theorem meaning?_congr : e.meaning? g' = e.meaning? g := by
  funext name
  simp only [meaning?, findParam?, h]

theorem reading?_congr : e.reading? g' = e.reading? g := by
  funext leaf
  cases leaf <;> simp only [reading?, meaning?_congr h]

theorem fault?_congr : e.fault? g' = e.fault? g := by
  have hknows : ∀ name, e.Knows g' name ↔ e.Knows g name := by
    intro name
    rw [Knows, Knows, h]
  funext leaf
  cases leaf <;> simp only [fault?, hknows]

end Congr

/-- The instructions make values. They read what the names in the leaves mean, in order, and there are none
only if there is something wrong with each leaf. -/
structure Makes (e : Scope) (g : FlowGraph) (leaves : List Expr) (is : List Instruction) : Prop where
  values : ∀ i ∈ is, i.isValue = true
  reads : is.filterMap Instruction.read? = leaves.filterMap (e.reading? g)
  nil_iff : is = [] ↔ ∀ leaf ∈ leaves, (e.fault? g leaf).isSome = true

namespace Makes
variable {leaves leaves' : List Expr} {is is' : List Instruction}

theorem append (h : e.Makes g leaves is) (h' : e.Makes g leaves' is') :
    e.Makes g (leaves ++ leaves') (is ++ is') where
  values := forall_mem_append.mpr ⟨h.values, h'.values⟩
  reads := by rw [filterMap_append, filterMap_append, h.reads, h'.reads]
  nil_iff := by rw [append_eq_nil_iff, forall_mem_append, h.nil_iff, h'.nil_iff]

theorem concat (h : e.Makes g leaves is) {i : Instruction} (hvalue : i.isValue = true)
    (hread : i.read? = none) (hleaf : ∃ leaf ∈ leaves, e.fault? g leaf = none) : e.Makes g leaves (is ++ [i]) := by
  refine ⟨forall_mem_append.mpr ⟨h.values, forall_mem_singleton.mpr hvalue⟩, ?_, ?_⟩
  · rw [filterMap_append, h.reads, filterMap_cons_none hread]
    exact append_nil _
  · obtain ⟨leaf, hmem, hnone⟩ := hleaf
    refine iff_of_false (append_ne_nil_of_right_ne_nil _ (cons_ne_nil _ _)) fun hall => ?_
    have hsome := hall leaf hmem
    rw [hnone] at hsome
    cases hsome

end Makes

/-- From `s` to `s'` leaves are looked at: what is wrong with them is recorded, and instructions are appended
that make values. -/
def Examines (e : Scope) (leaves : List Expr) (s s' : BodyState) : Prop :=
  ∃ is, s' = s.added (leaves.filterMap (e.fault? s.graph)) is ∧ e.Makes s.graph leaves is

namespace Examines
variable {leaves leaves' : List Expr}

theorem nil (s : BodyState) : e.Examines [] s s :=
  ⟨[], s.added_nil.symm, forall_mem_nil _, rfl, by simp⟩

variable (h : e.Examines leaves s s')
include h

theorem params_eq : (s'.graph.block .entry).params = (s.graph.block .entry).params := by
  obtain ⟨is, rfl, -⟩ := h
  exact s.graph.params_extend is .entry

theorem trans (h' : e.Examines leaves' s' s'') : e.Examines (leaves ++ leaves') s s'' := by
  have hfault := fault?_congr (e := e) h.params_eq
  have hreading := reading?_congr (e := e) h.params_eq
  obtain ⟨is, rfl, hmakes⟩ := h
  obtain ⟨is', rfl, hvalues, hreads, hnil⟩ := h'
  rw [hfault] at hnil ⊢
  rw [hreading] at hreads
  refine ⟨is ++ is', ?_, hmakes.append ⟨hvalues, hreads, hnil⟩⟩
  rw [added_added, filterMap_append]

theorem append {i : Instruction} (hvalue : i.isValue = true)
    (hread : i.read? = none) (hleaf : ∃ leaf ∈ leaves, e.fault? s.graph leaf = none) :
    e.Examines leaves s (s'.append i).2 := by
  obtain ⟨is, rfl, hmakes⟩ := h
  refine ⟨is ++ [i], ?_, hmakes.concat hvalue hread hleaf⟩
  rw [append_eq_added, added_added, append_nil]

end Examines

/-! ## Expressions -/

/-- Lowering the expression in the state `s` gives `r`: its leaves are looked at, and there is a value
unless something is wrong with them. -/
structure Assesses (e : Scope) (s : BodyState) (expr : Expr) (r : Option InstrId × BodyState) : Prop where
  examines : e.Examines expr.leaves s r.2
  none_iff : r.1 = none ↔ e.faults s.graph expr ≠ []

theorem assesses_lowerLiteral (s : BodyState) (l : Literal) (span : Span) (expected : Option TypeId) :
    e.Assesses s (.literal l span) (some (lowerLiteral s l expected).1, (lowerLiteral s l expected).2) := by
  have hcode : (lowerLiteral s l expected).2 =
      s.added [] [.constant (literalConstant s l expected).1 (literalConstant s l expected).2,
        .load (literalConstant s l expected).2 ⟨s.graph.instructions.length⟩] := by
    rw [lowerLiteral, append_eq_added, append_eq_added, added_added]
    rfl
  refine ⟨⟨_, hcode, ?_, rfl, ?_⟩, ?_⟩
  · exact forall_mem_cons.mpr ⟨rfl, forall_mem_singleton.mpr rfl⟩
  · simp [fault?, Expr.leaves]
  · simp [faults, fault?, Expr.leaves]

@[simp] theorem Meaning.read?_load : m.load.read? = some m := by
  cases m <;> rfl

@[simp] theorem Meaning.isValue_load : m.load.isValue = true := by
  cases m <;> rfl

theorem assesses_lowerIdent (s : BodyState) (name : String) (span : Span) :
    e.Assesses s (.ident name span) (e.lowerIdent s name span) := by
  cases hmeaning : e.meaning? s.graph name with
  | none =>
    have hfault : e.fault? s.graph (.ident name span) = some (unknownName name span) :=
      if_neg (meaning?_eq_none_iff.mp hmeaning)
    rw [lowerIdent, hmeaning]
    refine ⟨⟨[], ?_, forall_mem_nil _, ?_, ?_⟩, ?_⟩
    · simp [Expr.leaves, hfault, report_eq_added, unknownName]
    · simp [Expr.leaves, reading?, hmeaning]
    · simp [Expr.leaves, hfault]
    · simp [faults, Expr.leaves, hfault]
  | some m =>
    have hknows : e.Knows s.graph name := by
      by_contra hnot
      rw [meaning?_eq_none_iff.mpr hnot] at hmeaning
      cases hmeaning
    have hfault : e.fault? s.graph (.ident name span) = none := if_pos hknows
    rw [lowerIdent_of_meaning hmeaning]
    refine ⟨⟨[m.load], ?_, ?_, ?_, ?_⟩, ?_⟩
    · simp [Expr.leaves, hfault, append_eq_added]
    · exact forall_mem_singleton.mpr m.isValue_load
    · simp [Expr.leaves, reading?, hmeaning]
    · simp [Expr.leaves, hfault]
    · simp [faults, Expr.leaves, hfault]

/-- Both operands are looked at, whatever is wrong with the first. -/
theorem assesses_lowerExpr (s : BodyState) (expr : Expr) (expected : Option TypeId) :
    e.Assesses s expr (e.lowerExpr s expr expected) := by
  induction expr generalizing s expected with
  | literal value span => exact assesses_lowerLiteral s value span expected
  | ident name span => exact assesses_lowerIdent s name span
  | binary op lhs rhs span ihl ihr =>
    have hleft := ihl s (e.operandTypes s op lhs rhs expected).1
    have hright := ihr (e.lowerExpr s lhs (e.operandTypes s op lhs rhs expected).1).2
      (e.operandTypes s op lhs rhs expected).1
    have hboth := hleft.examines.trans hright.examines
    have hnone := hright.none_iff
    rw [faults, fault?_congr hleft.examines.params_eq, ← faults] at hnone
    have hfaults : e.faults s.graph (.binary op lhs rhs span) =
        e.faults s.graph lhs ++ e.faults s.graph rhs := filterMap_append
    unfold lowerExpr
    dsimp only
    split
    next left right hl hr =>
      have hlhs : e.faults s.graph lhs = [] := by
        by_contra hne
        rw [hleft.none_iff.mpr hne] at hl
        cases hl
      have hrhs : e.faults s.graph rhs = [] := by
        by_contra hne
        rw [hnone.mpr hne] at hr
        cases hr
      obtain ⟨leaf, hleaf⟩ := exists_mem_of_ne_nil _ lhs.leaves_ne_nil
      refine ⟨hboth.append rfl rfl ⟨leaf, mem_append_left _ hleaf, ?_⟩, ?_⟩
      · exact filterMap_eq_nil_iff.mp hlhs leaf hleaf
      · rw [hfaults, hlhs, hrhs]
        simp
    next hmissing =>
      refine ⟨hboth, iff_of_true rfl fun hsilent => ?_⟩
      rw [hfaults, append_eq_nil_iff] at hsilent
      obtain ⟨left, hl⟩ := Option.ne_none_iff_exists'.mp fun h => hleft.none_iff.mp h hsilent.1
      obtain ⟨right, hr⟩ := Option.ne_none_iff_exists'.mp fun h => hnone.mp h hsilent.2
      exact hmissing left right hl hr
  | error span =>
    refine ⟨⟨[], rfl, forall_mem_nil _, rfl, ?_⟩, ?_⟩
    · simp [Expr.leaves, fault?]
    · simp [lowerExpr, faults, Expr.leaves, fault?]

/-! ## Calls -/

/-- The arguments of a call that are looked at: all up to the first with which something is wrong. -/
def attended (e : Scope) (g : FlowGraph) : List Expr → List Expr
  | [] => []
  | arg :: args => if e.faults g arg = [] then arg :: e.attended g args else [arg]

theorem attended_congr (h : e.fault? g' = e.fault? g) (args : List Expr) :
    e.attended g' args = e.attended g args := by
  induction args with
  | nil => rfl
  | cons arg args ih =>
    have hfaults : e.faults g' arg = e.faults g arg := congrArg (arg.leaves.filterMap ·) h
    rw [attended, attended, hfaults, ih]

/-- What is wrong with the arguments of a call: only the first with which something is wrong counts. -/
def argumentFaults (e : Scope) (g : FlowGraph) (args : List Expr) : List Diagnostic :=
  ((e.attended g args).flatMap Expr.leaves).filterMap (e.fault? g)

theorem argumentFaults_cons_of_silent (h : e.faults g arg = []) (args : List Expr) :
    e.attended g (arg :: args) = arg :: e.attended g args ∧
      e.argumentFaults g (arg :: args) = e.argumentFaults g args := by
  have hfirst : e.attended g (arg :: args) = arg :: e.attended g args := if_pos h
  refine ⟨hfirst, ?_⟩
  rw [argumentFaults, hfirst, flatMap_cons, filterMap_append, ← faults, h, nil_append]
  rfl

theorem argumentFaults_cons_of_fault (h : e.faults g arg ≠ []) (args : List Expr) :
    e.attended g (arg :: args) = [arg] ∧ e.argumentFaults g (arg :: args) = e.faults g arg := by
  have hfirst : e.attended g (arg :: args) = [arg] := if_neg h
  refine ⟨hfirst, ?_⟩
  rw [argumentFaults, hfirst, flatMap_singleton]
  rfl

theorem attended_eq_self (h : e.argumentFaults g args = []) : e.attended g args = args := by
  induction args with
  | nil => rfl
  | cons arg args ih =>
    by_cases harg : e.faults g arg = []
    · obtain ⟨hattended, hfaults⟩ := argumentFaults_cons_of_silent harg args
      rw [hattended, ih (hfaults ▸ h)]
    · rw [(argumentFaults_cons_of_fault harg args).2] at h
      exact absurd h harg

/-- Arguments are lowered up to the first that has no value. -/
theorem examines_lowerArgs (s : BodyState) (args : List (Expr × Option TypeId)) :
    e.Examines ((e.attended s.graph (args.map Prod.fst)).flatMap Expr.leaves) s (e.lowerArgs s args).2 ∧
      ((e.lowerArgs s args).1 = none ↔ e.argumentFaults s.graph (args.map Prod.fst) ≠ []) := by
  induction args generalizing s with
  | nil => exact ⟨.nil s, by simp [lowerArgs, argumentFaults, attended]⟩
  | cons arg args ih =>
    obtain ⟨hfirst, hnone⟩ := assesses_lowerExpr (e := e) s arg.1 arg.2
    rw [map_cons]
    unfold lowerArgs
    split
    next s₁ hlowered =>
      rw [hlowered] at hfirst hnone
      obtain ⟨hattended, hfaults⟩ := argumentFaults_cons_of_fault (hnone.mp rfl) (args.map Prod.fst)
      rw [hattended, hfaults, flatMap_singleton]
      exact ⟨hfirst, iff_of_true rfl (hnone.mp rfl)⟩
    next id s₁ hlowered =>
      rw [hlowered] at hfirst hnone
      have hsilent : e.faults s.graph arg.1 = [] := by
        by_contra hne
        cases hnone.mpr hne
      obtain ⟨hattended, hfaults⟩ := argumentFaults_cons_of_silent hsilent (args.map Prod.fst)
      obtain ⟨hrest, hvalues⟩ := ih s₁
      have hfault := fault?_congr (e := e) hfirst.params_eq
      rw [attended_congr hfault] at hrest
      rw [argumentFaults, attended_congr hfault, hfault, ← argumentFaults] at hvalues
      rw [hattended, hfaults, flatMap_cons]
      split
      next s₂ hlowered' =>
        rw [hlowered'] at hrest hvalues
        exact ⟨hfirst.trans hrest, hvalues⟩
      next ids s₂ hlowered' =>
        rw [hlowered'] at hrest hvalues
        refine ⟨hfirst.trans hrest, iff_of_false (fun h => by cases h) fun hne => ?_⟩
        cases hvalues.mpr hne

theorem Call.map_fst_expected (call : Call) (t : TypeTable) : (call.expected t).map Prod.fst = call.args := by
  refine map_fst_zip ?_
  have hlength := call.length_expected t
  rw [expected, length_zip] at hlength
  omega

def Call.Unknown (call : Call) (t : TypeTable) : Prop :=
  candidates t call.owner call.name call.needsStatic = []

/-- Lowering the arguments of a call appends the instructions, and records what is wrong with them. -/
structure Call.Prepares (call : Call) (e : Scope) (s : BodyState) (is : List Instruction) : Prop where
  known : ¬ call.Unknown s.types
  lowered : (e.lowerArgs s (call.expected s.types)).2 = s.added (e.argumentFaults s.graph call.args) is
  makes : e.Makes s.graph ((e.attended s.graph call.args).flatMap Expr.leaves) is

/-- What lowering a call records, and what it appends. If no method has the name, this is reported and
nothing else happens. Otherwise the arguments are lowered. Unless something is wrong with them, a method that
they suit is called last, or it is reported that there is none. -/
inductive Concludes (e : Scope) (s : BodyState) (call : Call) :
    List Diagnostic → List Instruction → Prop where
  | unknown (message label : String) : call.Unknown s.types →
      Concludes e s call [.error .unresolvedCall call.span message label] []
  | faulty {is : List Instruction} : call.Prepares e s is → e.argumentFaults s.graph call.args ≠ [] →
      Concludes e s call (e.argumentFaults s.graph call.args) is
  | unfit {is : List Instruction} (message label : String) : call.Prepares e s is →
      e.argumentFaults s.graph call.args = [] →
      Concludes e s call [.error .unresolvedCall call.span message label] is
  | made {is : List Instruction} (method : MethodRef) (values : List InstrId) : call.Prepares e s is →
      e.argumentFaults s.graph call.args = [] → Concludes e s call [] (is ++ [.call method values])

theorem concludes_lowerCall (e : Scope) (s : BodyState) (call : Call) :
    ∃ ds is, e.lowerCall s call = s.added ds is ∧ e.Concludes s call ds is := by
  obtain ⟨⟨is, hadded, hmakes⟩, hnone⟩ := examines_lowerArgs (e := e) s (call.expected s.types)
  rw [call.map_fst_expected] at hadded hmakes hnone
  unfold lowerCall
  dsimp only
  rw [← Call.fitting, ← Call.expected]
  split
  next hempty => exact ⟨_, [], s.report_eq_added _ _ _ _, .unknown _ _ (isEmpty_iff.mp hempty)⟩
  next hsome =>
    have hprepares : call.Prepares e s is := ⟨fun h => hsome (isEmpty_iff.mpr h), hadded, hmakes⟩
    rw [← argumentFaults] at hadded
    split
    next s' hlowered =>
      rw [hlowered] at hadded hnone
      exact ⟨_, is, hadded, .faulty hprepares (hnone.mp rfl)⟩
    next values s' hlowered =>
      rw [hlowered] at hadded hnone
      have hsilent : e.argumentFaults s.graph call.args = [] := by
        by_contra hne
        cases hnone.mpr hne
      rw [hsilent] at hadded
      obtain rfl : s' = s.added [] is := hadded
      split
      next chosen hchosen =>
        refine ⟨_, _, ?_, .made chosen.method values hprepares hsilent⟩
        rw [append_eq_added, added_added, append_nil]
      next =>
        rw [report_eq_added, added_added, append_nil, nil_append]
        exact ⟨_, is, rfl, .unfit _ _ hprepares hsilent⟩

theorem code_of_mem_faults {leaves : List Expr} {d : Diagnostic} (h : d ∈ leaves.filterMap (e.fault? g)) :
    d.code = some .unresolvedName ∨ d.code = some .malformedExpression := by
  obtain ⟨leaf, -, hfault⟩ := mem_filterMap.mp h
  cases leaf with
  | literal value span | binary op lhs rhs span => cases hfault
  | ident name span =>
    rw [fault?] at hfault
    split at hfault <;> cases hfault
    exact Or.inl rfl
  | error span =>
    cases hfault
    exact Or.inr rfl

theorem all_faulty_iff_of_silent (h : e.argumentFaults g args = []) :
    (∀ leaf ∈ (e.attended g args).flatMap Expr.leaves, (e.fault? g leaf).isSome = true) ↔ args = [] := by
  have hnone := filterMap_eq_nil_iff.mp h
  rw [attended_eq_self h] at hnone ⊢
  constructor
  · intro hall
    by_contra hne
    obtain ⟨arg, harg⟩ := exists_mem_of_ne_nil _ hne
    obtain ⟨leaf, hleaf⟩ := exists_mem_of_ne_nil _ arg.leaves_ne_nil
    have hmem := mem_flatMap_of_mem harg hleaf
    have hsome := hall leaf hmem
    rw [hnone leaf hmem] at hsome
    cases hsome
  · rintro rfl
    exact forall_mem_nil _

theorem call?_of_isValue {i : Instruction} (h : i.isValue = true) : i.call? = none := by
  cases i <;> first | rfl | cases h

/-- Lowering a call appends a call last, and records nothing, or it appends none and records why: what is
wrong with the arguments, or once that the call is unresolved. -/
theorem Concludes.accounts {call : Call} {ds : List Diagnostic} {is : List Instruction}
    (h : e.Concludes s call ds is) :
    (ds = [] ∧ ∃ args method values, is = args ++ [.call method values] ∧ ∀ i ∈ args, i.call? = none) ∨
    (ds ≠ [] ∧ (∀ i ∈ is, i.call? = none) ∧ (ds = e.argumentFaults s.graph call.args ∨
      ∃ message label, ds = [.error .unresolvedCall call.span message label])) := by
  cases h with
  | unknown message label => exact Or.inr ⟨cons_ne_nil _ _, forall_mem_nil _, Or.inr ⟨_, _, rfl⟩⟩
  | faulty hprepares hfaulty =>
    exact Or.inr ⟨hfaulty, fun i hi => call?_of_isValue (hprepares.makes.values i hi), Or.inl rfl⟩
  | unfit message label hprepares =>
    exact Or.inr ⟨cons_ne_nil _ _, fun i hi => call?_of_isValue (hprepares.makes.values i hi), Or.inr ⟨_, _, rfl⟩⟩
  | made method values hprepares =>
    exact Or.inl ⟨rfl, _, method, values, rfl, fun i hi => call?_of_isValue (hprepares.makes.values i hi)⟩

/-- A call that is reported as unresolved is reported once. What is appended on the way makes the values of
its arguments, so the body stays as it was if and only if no method has the name or there are no
arguments. -/
theorem unresolved_call_keeps_arguments (e : Scope) (s : BodyState) (call : Call) {ds : List Diagnostic}
    (hds : (e.lowerCall s call).context.diagnostics = s.context.diagnostics ++ ds) {d : Diagnostic}
    (hd : d ∈ ds) (hcode : d.code = some .unresolvedCall) :
    ds = [d] ∧
    (call.Unknown s.types → (e.lowerCall s call).graph = s.graph) ∧
    (¬ call.Unknown s.types →
      (e.lowerCall s call).graph = (e.lowerArgs s (call.expected s.types)).2.graph ∧
      ∃ is, (e.lowerCall s call).graph = s.graph.extend is ∧ (∀ i ∈ is, i.isValue = true) ∧
        (is = [] ↔ call.args = [])) ∧
    ((e.lowerCall s call).graph = s.graph ↔ call.Unknown s.types ∨ call.args = []) := by
  obtain ⟨ds', is, hadded, hconcludes⟩ := e.concludes_lowerCall s call
  rw [hadded, BodyState.diagnostics_added] at hds
  obtain rfl := List.append_cancel_left hds
  rw [hadded, BodyState.graph_added, FlowGraph.extend_eq_self_iff]
  cases hconcludes with
  | unknown message label hunknown =>
    obtain rfl := List.mem_singleton.mp hd
    exact ⟨rfl, fun _ => rfl, fun h => absurd hunknown h, iff_of_true rfl (Or.inl hunknown)⟩
  | faulty hprepares hfaulty =>
    rcases code_of_mem_faults hd with hname | hmalformed
    · cases hcode.symm.trans hname
    · cases hcode.symm.trans hmalformed
  | unfit message label hprepares hsilent =>
    have hnil : is = [] ↔ call.args = [] := hprepares.makes.nil_iff.trans (all_faulty_iff_of_silent hsilent)
    obtain rfl := List.mem_singleton.mp hd
    refine ⟨rfl, fun h => absurd h hprepares.known, fun _ => ⟨?_, is, rfl, hprepares.makes.values, hnil⟩, ?_⟩
    · rw [hprepares.lowered, BodyState.graph_added]
    · rw [hnil, or_iff_right hprepares.known]
  | made method values hprepares hsilent => cases hd

end Scope

/-! ## Programs -/

namespace Compilation
variable {trees : List Tree} {options : Options} {e : Scope} {s : BodyState}

/-- While bodies are lowered, every literal has a type. An expression has no value if and only if something is
wrong with it, and what is recorded is just that: one error for each name that means nothing and for each part
that could not be read, from left to right. A call is appended last, and nothing is recorded, or none is
appended, and what is recorded is what is wrong with its arguments or, once, that it is unresolved. -/
theorem reports_faults (h : Reached trees options e s) :
    (∀ l, (s.context.literalType? l).isSome = true) ∧
    (∀ expr expected,
      ((e.lowerExpr s expr expected).1 = none ↔ e.faults s.graph expr ≠ []) ∧
      (e.lowerExpr s expr expected).2.context.diagnostics =
        s.context.diagnostics ++ e.faults s.graph expr) ∧
    ∀ call, ∃ ds is, (e.lowerCall s call).context.diagnostics = s.context.diagnostics ++ ds ∧
      (e.lowerCall s call).graph = s.graph.extend is ∧
      ((ds = [] ∧ ∃ args method values, is = args ++ [.call method values] ∧ ∀ i ∈ args, i.call? = none) ∨
       (ds ≠ [] ∧ (∀ i ∈ is, i.call? = none) ∧ (ds = e.argumentFaults s.graph call.args ∨
         ∃ message label, ds = [.error .unresolvedCall call.span message label]))) := by
  refine ⟨fun l => Scope.isSome_literalType? h.grounded l, fun expr expected => ?_, fun call => ?_⟩
  · obtain ⟨⟨is, hadded, -⟩, hnone⟩ := Scope.assesses_lowerExpr (e := e) s expr expected
    refine ⟨hnone, ?_⟩
    rw [hadded]
    rfl
  · obtain ⟨ds, is, hadded, hconcludes⟩ := e.concludes_lowerCall s call
    refine ⟨ds, is, ?_, ?_, hconcludes.accounts⟩
    · rw [hadded, BodyState.diagnostics_added]
    · rw [hadded, BodyState.graph_added]

/-- A function that is called with a text where it takes a number. -/
def misfitTree : Tree :=
  { module := ⟨["Demo"]⟩
    body := [
      .fn { name := "main", body := some [.call (.unqualified "take") [.ofString "text"] {}] },
      .fn { name := "take", params := [{ name := "n", type := .named ⟨["i32"]⟩ {} }], body := some [] }] }

/-- The sum of an unknown name, of something that could not be read, and of a number. -/
def faultyExpr : Expr :=
  .binary .add (.binary .add (.ident "y" {}) (.error {}) {}) (.ofInt 1) {}

theorem reports_faults_misfitTree : ∃ e s, Reached [misfitTree] {} e s ∧
    (e.lowerExpr s faultyExpr none).1 = none ∧
    (e.lowerExpr s faultyExpr none).2.context.diagnostics.map Diagnostic.code =
      [some .unresolvedName, some .malformedExpression] := by
  obtain ⟨e, s, hreached, hfaults⟩ := Reached.exists_first [misfitTree] {}
    (fun e s => s.context.diagnostics.isEmpty &&
      (e.faults s.graph faultyExpr).map Diagnostic.code ==
        [some .unresolvedName, some .malformedExpression]) (by decide +kernel)
  rw [Bool.and_eq_true, List.isEmpty_iff, beq_iff_eq] at hfaults
  obtain ⟨hsilent, hcodes⟩ := hfaults
  obtain ⟨hnone, hdiagnostics⟩ := (reports_faults hreached).2.1 faultyExpr none
  refine ⟨e, s, hreached, hnone.mpr fun h => ?_, ?_⟩
  · rw [h] at hcodes
    cases hcodes
  · rw [hdiagnostics, hsilent, List.nil_append, hcodes]

/-- The call in the first function of `misfitTree`. -/
def misfitCall (owner : TypeId) : Scope.Call :=
  { owner, name := "take", args := [.ofString "text"], span := {}, needsStatic := true, shown := "take" }

theorem misfitCall_reported : ∃ e s d, Reached [misfitTree] {} e s ∧
    (e.lowerCall s (misfitCall e.method.type)).context.diagnostics = s.context.diagnostics ++ [d] ∧
    d.code = some .unresolvedCall ∧ ¬ (misfitCall e.method.type).Unknown s.types ∧
    (e.lowerCall s (misfitCall e.method.type)).graph.instructions ≠ s.graph.instructions := by
  obtain ⟨e, s, hreached, hcall⟩ := Reached.exists_first [misfitTree] {} (fun e s => s.context.diagnostics.isEmpty &&
      ((e.lowerCall s (misfitCall e.method.type)).context.diagnostics.map Diagnostic.code == [some .unresolvedCall] &&
      (!(Scope.candidates s.types e.method.type "take" true).isEmpty &&
      (e.lowerCall s (misfitCall e.method.type)).graph.instructions != s.graph.instructions))) (by decide +kernel)
  simp only [Bool.and_eq_true, List.isEmpty_iff, beq_iff_eq, bne_iff_ne, Bool.not_eq_true',
    isEmpty_eq_false_iff] at hcall
  obtain ⟨hsilent, hcodes, hknown, hcode⟩ := hcall
  obtain ⟨d, hd, hreported⟩ := map_eq_singleton_iff.mp hcodes
  refine ⟨e, s, d, hreached, ?_, hreported, hknown, hcode⟩
  rw [hd, hsilent, nil_append]

theorem unresolved_call_keeps_arguments_misfitTree : ∃ e s d, Reached [misfitTree] {} e s ∧
    (e.lowerCall s (misfitCall e.method.type)).context.diagnostics = s.context.diagnostics ++ [d] ∧
    d.code = some .unresolvedCall ∧ (e.lowerCall s (misfitCall e.method.type)).graph =
      (e.lowerArgs s ((misfitCall e.method.type).expected s.types)).2.graph := by
  obtain ⟨e, s, d, hreached, hreported, hcode, hknown, -⟩ := misfitCall_reported
  exact ⟨e, s, d, hreached, hreported, hcode, ((Scope.unresolved_call_keeps_arguments e s _ hreported
    (List.mem_singleton.mpr rfl) hcode).2.2.1 hknown).1⟩

/-- In `misfitTree` the call is reported as unresolved, and the body is not what it was. -/
theorem unresolved_call_changes_body : ∃ e s d, Reached [misfitTree] {} e s ∧
    (e.lowerCall s (misfitCall e.method.type)).context.diagnostics = s.context.diagnostics ++ [d] ∧
    d.code = some .unresolvedCall ∧ (e.lowerCall s (misfitCall e.method.type)).graph ≠ s.graph := by
  obtain ⟨e, s, d, hreached, hreported, hcode, -, hchanged⟩ := misfitCall_reported
  exact ⟨e, s, d, hreached, hreported, hcode, fun h => hchanged (congrArg FlowGraph.instructions h)⟩

end Compilation

end TreeCompiler
