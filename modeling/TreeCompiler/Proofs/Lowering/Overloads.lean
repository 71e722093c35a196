import TreeCompiler.Proofs.Lowering.BoundedStates
import TreeCompiler.Proofs.Lowering.Calls
import TreeCompiler.Proofs.Lowering.Written

/-!
# Overloads

A call is written with a name and arguments; which method of that name is called depends on the types that
the arguments have once they are lowered. The methods that a call may mean are those of its name in one
type, with as many parameters as there are arguments. The first whose parameters have just the types of the
arguments is called, and if there is none, the first that accepts them.

* `BodyState.Continues s s'` : what the body had in `s` it has in `s'`, so that values keep their types
  (`FlowGraph.resultType_eq`).
-/

namespace TreeCompiler

open List TypeTable Context FlowGraph

theorem Method.signature_of_header {m m' : Method} (h : m'.header = m.header) : m'.signature = m.signature := by
  rw [signature, signature, params_of_header h]

namespace TypeTable
variable {t t' t'' : TypeTable}

theorem methodEntry_of_body {ref : MethodRef} {g : FlowGraph} (h : (t.method ref).body = some g) :
    ∃ m, t.methodEntry ref = .ok m ∧ m.body = some g := by
  rw [method, getD_eq_getElem?_getD] at h
  cases hm : (t.get ref.type).methods[ref.index]? with
  | none =>
    rw [hm] at h
    cases h
  | some m =>
    rw [hm] at h
    exact ⟨m, Defect.entry_eq_ok_iff.mpr hm, h⟩

/-- All types have the same methods, apart from their bodies. -/
def SameHeaders (t t' : TypeTable) : Prop :=
  ∀ id, (t'.get id).methods.map Method.header = (t.get id).methods.map Method.header

theorem SameHeaders.symm (h : t.SameHeaders t') : t'.SameHeaders t :=
  fun id => (h id).symm

theorem SameHeaders.trans (h : t.SameHeaders t') (h' : t'.SameHeaders t'') : t.SameHeaders t'' :=
  fun id => (h' id).trans (h id)

theorem Extends.sameHeaders (h : t.Extends t') : t.SameHeaders t' :=
  fun id => congrArg (map Method.header) (h.methods_get id)

theorem SameHeaders.getElem? (h : t.SameHeaders t') {id : TypeId} {i : Nat} {m : Method}
    (hm : (t.get id).methods[i]? = some m) : ∃ m', (t'.get id).methods[i]? = some m' ∧ m'.header = m.header := by
  have hnew : ((t'.get id).methods.map Method.header)[i]? = some m.header := by
    rw [h id, getElem?_map, hm]
    rfl
  rw [getElem?_map] at hnew
  exact Option.map_eq_some_iff.mp hnew

theorem sameHeaders_lowerBodies (c : Context) (queue : List PendingBody) :
    c.types.SameHeaders (c.lowerBodies queue).types := by
  refine invariant_lowerBodies (Q := c.types.SameHeaders) (fun t t' hregisters ht => ?_)
    (fun t m g ht id => ?_) (fun _ => rfl) queue
  · exact ht.trans (Extends.sameHeaders (.single hregisters))
  · rw [map_header_setBody, ht id]

end TypeTable

/-! ## Values keep their types -/

namespace FlowGraph
variable {g g' : FlowGraph}

@[simp] theorem blockParams_close (g : FlowGraph) : g.close.blockParams = g.blockParams := by
  rw [blockParams, close, map_map]
  rfl

/-- The type of a value stays the same while the graph and the table grow. -/
theorem resultType_eq {t t' : TypeTable} (hg : g.Bounded t) (ht : t.Keeps t')
    (hinstructions : g.instructions <+: g'.instructions) (hparams : ∀ b, (g.block b).params <+: (g'.block b).params)
    {m m' : Method} (hm : m'.header = m.header) (owner : TypeId) {id : InstrId} (hid : g.HasResult id) :
    g'.resultType t' owner m' id = g.resultType t owner m id := by
  have hlt : id.index < g.instructions.length := hid
  have hi : g.instruction? id = some g.instructions[id.index] := getElem?_eq_getElem hlt
  have hi' : g'.instruction? id = some g.instructions[id.index] :=
    List.getElem?_eq_some_iff.mpr ⟨hlt.trans_le hinstructions.length_le, (hinstructions.getElem hlt).symm⟩
  have hrefers := (hg.instruction hi).refers
  rw [resultType, resultType, hi, hi']
  generalize g.instructions[id.index] = i at hrefers
  cases i with
  | loadArg arg =>
    cases arg with
    | this => rfl
    | param n => exact congrArg (fun ps : List Parameter => ps[n]?.bind (·.type)) (Method.params_of_header hm)
  | loadLocal b =>
    -- the variable is one of those that were there
    have hb : b.index < (g.block b.block).params.length := hrefers.2
    have hlater : (g'.block b.block).params[b.index]? = (g.block b.block).params[b.index]? := by
      obtain ⟨later, hlater⟩ := hparams b.block
      rw [← hlater, getElem?_append_left hb]
    exact congrArg (fun p : Option BlockParam => (p.getD default).type) hlater
  | call callee args =>
    obtain ⟨c, hc⟩ := hasMethod_iff.mp hrefers
    obtain ⟨c', hc', hheader⟩ := ht.methodEntry hc
    change (t'.method callee).returnType = (t.method callee).returnType
    rw [t.method_of_methodEntry callee c hc, t'.method_of_methodEntry callee c' hc']
    exact (congrArg Method.returnType hheader :)
  | _ => rfl

end FlowGraph

/-! ## The selection -/

namespace TypeTable

/-- Every argument whose type is known has the type of its parameter. -/
def Matches (params args : List (Option TypeId)) : Prop :=
  Forall₂ (fun param arg => arg = none ∨ param = arg) params args

/-- Every argument whose type is known has the type of its parameter, unless the parameter takes any
object. -/
def Accepts (t : TypeTable) (params args : List (Option TypeId)) : Prop :=
  Forall₂ (fun param arg => arg = none ∨ param = arg ∨
    ∃ object, t.primitive? .object = some object ∧ param = some object) params args

theorem Matches.accepts {t : TypeTable} {params args : List (Option TypeId)} (h : Matches params args) :
    t.Accepts params args :=
  h.imp fun _ _ hmatch => hmatch.imp_right Or.inl

end TypeTable

namespace Scope
variable {call : Call} {t : TypeTable} {m : Method} {args : List (Option TypeId)} {c : Candidate}
  {object : TypeId} {t' : TypeTable}

open TypeTable (Matches)

/-- The method at place `i` of the addressed type is one that the call may mean. -/
structure Call.Eligible (call : Call) (t : TypeTable) (i : Nat) (m : Method) : Prop where
  entry : (t.get call.owner).methods[i]? = some m
  name : m.name = call.name
  arity : m.params.length = call.args.length
  isStatic : call.needsStatic = true → m.isStatic = true

/-- Arguments of these types select the method `m` at the handle `chosen`. -/
structure Call.Selects (call : Call) (t : TypeTable) (args : List (Option TypeId)) (chosen : MethodRef)
    (m : Method) : Prop where
  owner : chosen.type = call.owner
  eligible : call.Eligible t chosen.index m
  accepts : t.Accepts m.signature args
  /-- If there are exact matches, it is the first of them. -/
  exact : ∀ i c, call.Eligible t i c → Matches c.signature args →
    Matches m.signature args ∧ chosen.index ≤ i
  /-- If there are none, it is the first that accepts the arguments. -/
  first : ∀ i c, call.Eligible t i c → t.Accepts c.signature args →
    Matches m.signature args ∨ chosen.index ≤ i

theorem Call.Eligible.of_sameHeaders {i : Nat} (h : call.Eligible t i m) (hsame : t.SameHeaders t') :
    ∃ m', call.Eligible t' i m' ∧ m'.header = m.header := by
  obtain ⟨m', hentry, hheader⟩ := hsame.getElem? h.entry
  refine ⟨m', ⟨hentry, ?_, ?_, ?_⟩, hheader⟩
  · rw [Method.name_of_header hheader, h.name]
  · rw [Method.params_of_header hheader, h.arity]
  · rw [Method.isStatic_of_header hheader]
    exact h.isStatic

theorem Call.Selects.of_sameHeaders {chosen : MethodRef} (h : call.Selects t args chosen m) (hsame : t.SameHeaders t')
    (hobject : t'.primitive? .object = t.primitive? .object) : ∃ m', call.Selects t' args chosen m' := by
  obtain ⟨m', heligible, hheader⟩ := h.eligible.of_sameHeaders hsame
  have hsignature := Method.signature_of_header hheader
  have haccepts : t'.Accepts = t.Accepts := by
    unfold TypeTable.Accepts
    rw [hobject]
  have hback : ∀ i c', call.Eligible t' i c' → ∃ c, call.Eligible t i c ∧ c'.signature = c.signature := by
    intro i c' hc'
    obtain ⟨c, hc, hsigns⟩ := hc'.of_sameHeaders hsame.symm
    exact ⟨c, hc, (Method.signature_of_header hsigns).symm⟩
  refine ⟨m', h.owner, heligible, ?_, fun i c' hc' hmatch => ?_, fun i c' hc' haccept => ?_⟩
  · rw [haccepts, hsignature]
    exact h.accepts
  · obtain ⟨c, hc, heq⟩ := hback i c' hc'
    rw [hsignature]
    exact h.exact i c hc (heq ▸ hmatch)
  · obtain ⟨c, hc, heq⟩ := hback i c' hc'
    rw [hsignature]
    rw [haccepts, heq] at haccept
    exact h.first i c hc haccept

theorem Call.mem_fitting_iff :
    c ∈ call.fitting t ↔ ∃ i m, call.Eligible t i m ∧ c = ⟨⟨call.owner, i⟩, m.signature⟩ := by
  constructor
  · intro hc
    obtain ⟨hcandidate, harity⟩ := mem_filter.mp hc
    obtain ⟨htype, m, hm, hname, hsignature, hstatic⟩ := methodEntry_of_mem_candidates hcandidate
    obtain ⟨⟨type, i⟩, signature⟩ := c
    cases htype
    cases hsignature
    have hlength : m.signature.length = call.args.length := beq_iff_eq.mp harity
    rw [Method.signature, length_map] at hlength
    exact ⟨i, m, ⟨Defect.entry_eq_ok_iff.mp hm, hname, hlength, hstatic⟩, rfl⟩
  · rintro ⟨i, m, ⟨hentry, hname, harity, hstatic⟩, rfl⟩
    refine mem_filter.mpr ⟨mem_map.mpr ⟨(i, m), mem_filter.mpr ⟨?_, ?_⟩, rfl⟩, ?_⟩
    · refine mem_filter.mpr ⟨mem_map.mpr ⟨(m, i), mem_zipIdx_iff_getElem?.mpr hentry, rfl⟩, ?_⟩
      exact beq_iff_eq.mpr hname
    · cases hneeds : call.needsStatic with
      | false => rfl
      | true => exact hstatic hneeds
    · rw [Method.signature, length_map, harity]
      exact beq_self_eq_true _

theorem Call.pairwise_fitting (call : Call) (t : TypeTable) :
    (call.fitting t).Pairwise fun c c' => c.method.index < c'.method.index := by
  refine Pairwise.filter _ (pairwise_map.mpr (.filter _ (.filter _ (pairwise_map.mpr ?_))))
  have hindices : ((t.get call.owner).methods.zipIdx.map Prod.snd).Pairwise (· < ·) := by
    rw [zipIdx_map_snd]
    exact pairwise_lt_range'
  exact pairwise_map.mp hindices

theorem index_le_of_find? {cs : List Candidate} {p : Candidate → Bool} {d : Candidate}
    (hsorted : cs.Pairwise fun c c' => c.method.index < c'.method.index) (hc : cs.find? p = some c)
    (hd : d ∈ cs) (hp : p d = true) : c.method.index ≤ d.method.index := by
  obtain ⟨-, before, after, rfl, hbefore⟩ := find?_eq_some_iff_append.mp hc
  rcases mem_append.mp hd with hearly | hlate
  · have hnot := hbefore d hearly
    rw [hp] at hnot
    cases hnot
  · rcases mem_cons.mp hlate with rfl | hafter
    · exact le_rfl
    · have hrest := (pairwise_append.mp hsorted).2.1
      exact (rel_of_pairwise_cons hrest hafter).le

theorem accepts_iff (hobject : t.primitive? .object = some object) (args : List (Option TypeId))
    (hlength : c.signature.length = args.length) :
    (c.accepts true (some object) args = true ↔ Matches c.signature args) ∧
      (c.accepts false (some object) args = true ↔ t.Accepts c.signature args) := by
  unfold Candidate.accepts TypeTable.Accepts TypeTable.Matches
  simp only [all_eq_true, forall₂_iff_zip, hlength, true_and, hobject, Option.some.injEq,
    exists_eq_left', Bool.or_eq_true, Option.isNone_iff_eq_none, beq_iff_eq, Bool.and_eq_true,
    Bool.not_true, Bool.not_false, Bool.false_eq_true, false_and, or_false, or_assoc, Prod.forall]

/-- The candidate that is chosen is the one that the types of the arguments select. -/
theorem selects_of_choose? {chosen : Candidate} (hobject : t.primitive? .object = some object)
    (hlength : args.length = call.args.length) (h : choose? (some object) args (call.fitting t) = some chosen) :
    ∃ m, call.Selects t args chosen.method m := by
  have hchecks : ∀ i m, call.Eligible t i m → _ := fun i m hm =>
    accepts_iff hobject args (c := ⟨⟨call.owner, i⟩, m.signature⟩) <| by
      rw [hlength, ← hm.arity, Method.signature, length_map]
  have hfits : ∀ i m, call.Eligible t i m → _ := fun i m hm => Call.mem_fitting_iff.mpr ⟨i, m, hm, rfl⟩
  have hsorted := call.pairwise_fitting t
  obtain ⟨i, m, hm, rfl⟩ := Call.mem_fitting_iff.mp (mem_of_choose? h)
  refine ⟨m, ?_⟩
  rcases Option.or_eq_some_iff.mp h with hexact | ⟨hnone, haccepts⟩
  · have hmatches : Matches m.signature args := (hchecks i m hm).1.mp (find?_some hexact)
    refine ⟨rfl, hm, hmatches.accepts, fun j c hc hmatch => ⟨hmatches, ?_⟩, fun _ _ _ _ => Or.inl hmatches⟩
    exact index_le_of_find? hsorted hexact (hfits j c hc) ((hchecks j c hc).1.mpr hmatch)
  · refine ⟨rfl, hm, (hchecks i m hm).2.mp (find?_some haccepts), fun j c hc hmatch => ?_,
      fun j c hc haccept => Or.inr ?_⟩
    · exact (find?_eq_none.mp hnone _ (hfits j c hc) ((hchecks j c hc).1.mpr hmatch)).elim
    · exact index_le_of_find? hsorted haccepts (hfits j c hc) ((hchecks j c hc).2.mpr haccept)

variable {e : Scope}

/-! ## Calls that are asked for -/

/-- What a statement calls, by the names that types have. An unqualified name is that of a static method of
the type at hand, but printing writes each argument to the console. -/
def callsOf (e : Scope) (t : TypeTable) : Stmt → List Call
  | .call (.unqualified name) args span =>
    if name = printName then
      (t.system? "Console").toList.flatMap fun console => args.map fun arg =>
        { owner := console, name := "Write", args := [arg], span := arg.span, needsStatic := true
          shown := printName }
    else [{ owner := e.method.type, name, args, span, needsStatic := true, shown := name }]
  | .call (.qualified type name) args span =>
    (t.resolveIn? e.module type).toList.map fun owner =>
      { owner, name, args, span, needsStatic := false, shown := type.text ++ "::" ++ name }
  | _ => []

/-- What the statements up to the first that ends the body call. Names mean what they mean when a statement
is lowered. -/
def asked (e : Scope) : BodyState → List Stmt → List Call
  | _, [] => []
  | s, stmt :: rest =>
    if s.graph.isTerminated .entry then []
    else e.callsOf s.types stmt ++ e.asked (e.lowerStmt s stmt) rest

theorem lowerStmt_call (e : Scope) (s : BodyState) (callee : Callee) (args : List Expr) (span : Span) :
    (∃ c, s.context.Instantiates c ∧ e.lowerStmt s (.call callee args span) = s.withContext c ∧
      e.callsOf s.types (.call callee args span) = []) ∨
    e.lowerStmt s (.call callee args span) = (e.callsOf s.types (.call callee args span)).foldl e.lowerCall s := by
  cases callee with
  | unqualified name =>
    refine Or.inr ?_
    rw [lowerStmt, callsOf]
    split
    · unfold lowerPrint
      cases s.types.system? "Console" with
      | none => rfl
      | some console => simp [foldl_map]
    · rfl
  | qualified type name =>
    have hresolves := (s.context.resolves_resolveType e.module type span).instantiates
    rw [lowerStmt, callsOf]
    rw [resolveType] at hresolves ⊢
    change (∃ c, _ ∧ _ ∧ (s.context.types.resolveIn? e.module type).toList.map _ = []) ∨ _ =
      ((s.context.types.resolveIn? e.module type).toList.map _).foldl e.lowerCall s
    cases hfound : s.context.types.resolveIn? e.module type with
    | none =>
      rw [hfound] at hresolves
      exact Or.inl ⟨_, hresolves, rfl, rfl⟩
    | some owner => exact Or.inr rfl

/-! ## Calls that are made -/

/-- The call that is made is the one that was asked for: it goes to the method that the types of its values
select, and the values are made one after the other. -/
structure Answers (t : TypeTable) (owner : TypeId) (m : Method) (g : FlowGraph) (call : Call)
    (made : MethodRef × List InstrId) : Prop where
  selects : ∃ callee, call.Selects t (made.2.map (g.resultType t owner m)) made.1 callee
  ordered : made.2.Pairwise fun v w => v.index < w.index
  values : ∀ v ∈ made.2, g.HasResult v

theorem Answers.mono {g g' : FlowGraph} {owner : TypeId} {m' : Method} {made : MethodRef × List InstrId}
    (h : Answers t owner m g call made) (hg : g.Bounded t) (hobject : t.primitive? .object = some object)
    (hkeeps : t.Keeps t') (hsame : t.SameHeaders t') (hinstructions : g.instructions <+: g'.instructions)
    (hparams : ∀ b, (g.block b).params <+: (g'.block b).params) (hm : m'.header = m.header) :
    Answers t' owner m' g' call made := by
  obtain ⟨callee, hselects⟩ := h.selects
  have htypes : made.2.map (g'.resultType t' owner m') = made.2.map (g.resultType t owner m) :=
    map_congr_left fun v hv =>
      resultType_eq hg hkeeps hinstructions hparams hm owner (h.values v hv)
  refine ⟨?_, h.ordered, fun v hv => (h.values v hv).trans_le hinstructions.length_le⟩
  rw [htypes]
  exact hselects.of_sameHeaders hsame ((hkeeps.lookup hobject).trans hobject.symm)

/-- From `s` to `s'` the calls that are asked for are made, in order, apart from those that are reported. -/
structure Resolves (e : Scope) (calls : List Call) (s s' : BodyState) : Prop where
  continues : s.Continues s'
  bounded : s'.Bounded e
  made : ∃ answered made, answered.Sublist calls ∧ (s'.context.diagnostics = [] → answered = calls) ∧
    s'.graph.calls = s.graph.calls ++ made ∧
    Forall₂ (Answers s'.types e.method.type (s'.types.method e.method) s'.graph) answered made

namespace Resolves
variable {s s' s'' : BodyState} {calls calls' : List Call}

theorem of_same (hcontinues : s.Continues s') (hbounded : s'.Bounded e)
    (hcalls : s'.graph.calls = s.graph.calls) : e.Resolves [] s s' :=
  ⟨hcontinues, hbounded, [], [], Sublist.refl _, fun _ => rfl, by rw [hcalls, append_nil], .nil⟩

theorem trans (h : e.Resolves calls s s') (h' : e.Resolves calls' s' s'')
    (hobject : s'.types.primitive? .object = some object) : e.Resolves (calls ++ calls') s s'' := by
  obtain ⟨answered, made, hsub, hall, hcalls, hanswers⟩ := h.made
  obtain ⟨answered', made', hsub', hall', hcalls', hanswers'⟩ := h'.made
  have hmore := h'.continues
  refine ⟨h.continues.trans hmore, h'.bounded, answered ++ answered', made ++ made', hsub.append hsub', ?_, ?_, ?_⟩
  · intro hsilent
    rw [hall (hmore.context.silent hsilent), hall' hsilent]
  · rw [hcalls', hcalls, append_assoc]
  · refine rel_append (hanswers.imp fun call call' hanswer => ?_) hanswers'
    refine hanswer.mono h.bounded.graph.bounded hobject hmore.types.evolves.keeps hmore.types.sameHeaders
      hmore.instructions hmore.params ?_
    rw [hmore.types.method_eq]

end Resolves

theorem lowerCall_cases (e : Scope) (s : BodyState) (call : Call) :
    (e.lowerCall s call).context.diagnostics ≠ [] ∧ (e.lowerCall s call).graph.calls = s.graph.calls ∨
    ∃ values s' chosen, e.lowerArgs s (call.expected s.types) = (some values, s') ∧
      choose? (s'.types.primitive? .object) (values.map (e.valueType s')) (call.fitting s.types) = some chosen ∧
      e.lowerCall s call = (s'.append (.call chosen.method values)).2 := by
  have hargs := e.evaluatesAll_expected s call
  have hcalls := hargs.computes.calls
  unfold lowerCall
  dsimp only
  rw [← Call.fitting, ← Call.expected]
  split
  · exact Or.inl ⟨s.report_ne_nil _ _ _ _, rfl⟩
  · split
    next s' hlowered =>
      rw [hlowered] at hargs hcalls
      refine Or.inl ⟨fun hsilent => ?_, hcalls⟩
      cases hargs.found hsilent
    next values s' hlowered =>
      rw [hlowered] at hcalls
      split
      next chosen hchosen => exact Or.inr ⟨values, s', chosen, hlowered, hchosen, rfl⟩
      next => exact Or.inl ⟨s'.report_ne_nil _ _ _ _, hcalls⟩

variable {s s' : BodyState} {object : TypeId} {call : Call} {values : List InstrId} {chosen : Candidate}
  (hs : s.Bounded e)
include hs

variable (hobject : s.types.primitive? .object = some object)
include hobject

theorem answers_of_choose? (hlowered : e.lowerArgs s (call.expected s.types) = (some values, s'))
    (hchosen : choose? (s'.types.primitive? .object) (values.map (e.valueType s')) (call.fitting s.types) =
      some chosen) : s'.Bounded e ∧
      Answers s'.types e.method.type (s'.types.method e.method) s'.graph call (chosen.method, values) := by
  have hargs := e.evaluatesAll_expected s call
  rw [hlowered] at hargs
  have htypes := hargs.computes.adds.types
  rw [htypes, hobject] at hchosen
  obtain ⟨callee, hselects⟩ := selects_of_choose? hobject
    (by rw [length_map, hargs.length values rfl, call.length_expected]) hchosen
  rw [← htypes] at hselects
  exact ⟨hargs.computes.bounded hs, ⟨callee, hselects⟩, hargs.ordered values rfl,
    fun v hv => (hargs.defined values rfl v hv).hasResult⟩

theorem resolves_lowerCall (call : Call) : e.Resolves [call] s (e.lowerCall s call) := by
  have hcontinues := e.continues_lowerCall s call
  refine ⟨hcontinues, bounded_lowerCall hs call, ?_⟩
  rcases e.lowerCall_cases s call with ⟨hreported, hcalls⟩ | ⟨values, s', chosen, hlowered, hchosen, heq⟩
  · refine ⟨[], [], nil_sublist _, fun hsilent => (hreported hsilent).elim, ?_, .nil⟩
    rw [hcalls, append_nil]
  · obtain ⟨hs', hanswers⟩ := answers_of_choose? hs hobject hlowered hchosen
    have hcalls := (e.evaluatesAll_expected s call).computes.calls
    rw [hlowered] at hcalls
    have hobject' := hcontinues.types.evolves.keeps.lookup hobject
    rw [heq] at hobject' ⊢
    refine ⟨[call], [(chosen.method, values)], Sublist.refl _, fun _ => rfl, ?_, .cons ?_ .nil⟩
    · rw [BodyState.append, calls_append, hcalls]
      rfl
    · exact hanswers.mono hs'.graph.bounded hobject' (.refl _) (fun _ => rfl) (prefix_append _ _)
        (prefix_params_of_eq (blockParams_append _ _ _)) rfl

theorem resolves_foldl_lowerCall (calls : List Call) : e.Resolves calls s (calls.foldl e.lowerCall s) := by
  induction calls generalizing s with
  | nil => exact .of_same (.refl s) hs rfl
  | cons call calls ih =>
    have hfirst := resolves_lowerCall hs hobject call
    have hobject' := hfirst.continues.types.evolves.keeps.lookup hobject
    exact hfirst.trans (ih hfirst.bounded hobject') hobject'

theorem resolves_lowerStmt (stmt : Stmt) : e.Resolves (e.callsOf s.types stmt) s (e.lowerStmt s stmt) := by
  have hcontinues := e.continues_lowerStmt s stmt
  have hbounded := bounded_lowerStmt hs stmt
  cases stmt with
  | call callee args span =>
    rcases e.lowerStmt_call s callee args span with ⟨c, -, heq, hnone⟩ | heq
    · rw [hnone]
      refine .of_same hcontinues hbounded ?_
      rw [heq]
      rfl
    · rw [heq]
      exact resolves_foldl_lowerCall hs hobject _
  | _ => exact .of_same hcontinues hbounded (tracks_calls_eq.lowerStmt s trivial)

theorem resolves_lowerStmts (stmts : List Stmt) : e.Resolves (e.asked s stmts) s (e.lowerStmts s stmts) := by
  induction stmts generalizing s with
  | nil => exact .of_same (.refl s) hs rfl
  | cons stmt stmts ih =>
    unfold asked lowerStmts
    split
    · exact .of_same (.refl s) hs rfl
    · have hfirst := resolves_lowerStmt hs hobject stmt
      have hobject' := hfirst.continues.types.evolves.keeps.lookup hobject
      exact hfirst.trans (ih hfirst.bounded hobject') hobject'

end Scope

/-! ## Programs -/

theorem Context.prefix_diagnostics_lowerBodies (c : Context) (queue : List PendingBody) :
    c.diagnostics <+: (c.lowerBodies queue).diagnostics := by
  refine foldlRecOn (motive := fun c' : Context => c.diagnostics <+: c'.diagnostics) queue _
    prefix_rfl fun c' hc' p _ => ?_
  exact hc'.trans ((c'.scopeOf p).continues_lowerStmts { context := c' } p.body).context.diagnostics

namespace Compilation
variable {trees : List Tree} {options : Options} {before after : List PendingBody} {p : PendingBody}

/-- The method `m` of a program, whose scope is `e`, has the body `g`, and `last` is the state after all
statements of this body. -/
structure Finishes (trees : List Tree) (options : Options) (e : Scope) (last : BodyState) (m : Method)
    (g : FlowGraph) : Prop where
  entry : (lowered trees options).assembly.types.methodEntry e.method = .ok m
  body : m.body = some g
  serves : e.Serves m
  header : m.header = (last.types.method e.method).header
  types : last.types.Keeps (lowered trees options).assembly.types
  diagnostics : last.context.diagnostics <+: (lowered trees options).diagnostics
  instructions : g.instructions = last.graph.instructions
  params : g.blockParams = last.graph.blockParams

section Queue
variable (h : (declared trees options).queue = before ++ p :: after)
include h

theorem lowered_eq_of_queue : (lowered trees options).context =
      (((declared trees options).context.lowerBodies before).lowerBody p).lowerBodies after := by
  change (declared trees options).context.lowerBodies (declared trees options).queue = _
  rw [h, Context.lowerBodies, foldl_append]
  rfl

theorem methodEntry_lowered_of_queue : ∃ m, (lowered trees options).assembly.types.methodEntry p.method = .ok m ∧
      m.header = (((declared trees options).context.lowerBodies before).types.method p.method).header ∧
      m.body = some (((declared trees options).context.lowerBodies before).bodyOf p) := by
  obtain ⟨es, -, haccounts⟩ := accounts_lowerDeclarations trees options
  obtain ⟨old, hold, hnone, -⟩ := haccounts.methodEntry_of_mem_queue (p := p) (by simp [h])
  have hbody := (declared trees options).context.bodies_eq haccounts.nodup_queue h
  have hkeeps := ((declared trees options).context.evolves_lowerBodies before).keeps
  obtain ⟨mid, hmid, hheader⟩ := hkeeps.methodEntry hold
  refine ⟨_, (methodEntry_lowerBodies_iff _ (declared trees options).queue p.method _).mpr ⟨old, hold, rfl⟩, ?_, ?_⟩
  · rw [method_of_methodEntry _ _ _ hmid, hheader]
    rfl
  · rw [hbody]
    rfl

variable {c : Context} (hc : (declared trees options).context.lowerBodies before = c)
include hc

theorem finishes_of_queue : ∃ m,
      Finishes trees options (c.scopeOf p) ((c.scopeOf p).lowerStmts { context := c } p.body) m (c.bodyOf p) := by
  obtain ⟨m, hm, hheader, hbody⟩ := methodEntry_lowered_of_queue h
  have hlowered := lowered_eq_of_queue h
  rw [hc] at hheader hbody hlowered
  have hcontinues := (c.scopeOf p).continues_lowerStmts { context := c } p.body
  have hreports := (c.lowerBody p).prefix_diagnostics_lowerBodies after
  have hkeeps := (keeps_setBody ((c.scopeOf p).lowerStmts { context := c } p.body).types p.method
    ((c.scopeOf p).lowerStmts { context := c } p.body).graph.close).trans
      ((c.lowerBody p).evolves_lowerBodies after).keeps
  rw [← hlowered] at hreports hkeeps
  refine ⟨m, hm, hbody, ⟨?_, ?_⟩, ?_, hkeeps, hreports, rfl, blockParams_close _⟩
  · exact (Method.params_of_header hheader).symm
  · exact (Method.isStatic_of_header hheader).symm
  · rw [hcontinues.types.method_eq]
    exact hheader

theorem resolves_of_queue : (c.scopeOf p).Resolves ((c.scopeOf p).asked { context := c } p.body) { context := c }
        ((c.scopeOf p).lowerStmts { context := c } p.body) ∧
      ∃ object, c.types.primitive? .object = some object := by
  have henlarges := enlarges_completing trees options h
  have hmethod := (bounded_declared trees options).queue p (by simp [h])
  have hdeclared := ((start trees options).context.evolves_lowerDeclarations trees).keeps
  have hbodies := ((declared trees options).context.evolves_lowerBodies before).keeps
  rw [types_start] at hdeclared
  obtain ⟨object, hobject⟩ := Option.isSome_iff_exists.mp ((grounded_install options.target).primitives .object)
  have hobject' := hbodies.lookup (hdeclared.lookup hobject)
  have hbounded := henlarges.bounded (bounded_declared trees options).context
  have hmethod' := hmethod.mono henlarges.includes
  rw [hc] at hobject' hbounded hmethod'
  exact ⟨Scope.resolves_lowerStmts (bounded_scopeOf hbounded.types hmethod') hobject' p.body, object, hobject'⟩

end Queue

theorem ordered_of_mem_calls {ref : MethodRef} {g : FlowGraph} {made : MethodRef × List InstrId}
    (hg : ((lowered trees options).assembly.types.method ref).body = some g) (hmade : made ∈ g.calls) :
    made.2.Pairwise fun v w => v.index < w.index := by
  obtain ⟨m, hm, hg⟩ := methodEntry_of_body hg
  obtain ⟨old, hold, rfl⟩ := (methodEntry_lowerBodies_iff _ (declared trees options).queue ref m).mp hm
  rcases Option.or_eq_some_iff.mp hg with hqueued | ⟨-, hbody⟩
  · -- the body was queued
    have hmem := ((declared trees options).context.isSome_bodies_iff (declared trees options).queue ref).mp
      (by rw [hqueued]; rfl)
    obtain ⟨p, hp, rfl⟩ := mem_map.mp hmem
    obtain ⟨before, after, hsplit⟩ := append_of_mem hp
    obtain ⟨es, -, haccounts⟩ := accounts_lowerDeclarations trees options
    rw [bodies_eq _ haccounts.nodup_queue hsplit] at hqueued
    cases hqueued
    obtain ⟨answered, calls, -, -, hcalls, hanswers⟩ := (resolves_of_queue hsplit rfl).1.made
    have hordered := hanswers.flip.imp fun _ _ hanswer => And.intro hanswer.ordered hanswer
    have hclosed : made ∈ FlowGraph.calls .empty ++ calls := hcalls.subst hmade
    exact ((forall₂_and_left _ _).mp hordered).1 made hclosed
  · -- the body is that of the constructor of a variant
    rw [← method_of_methodEntry _ _ _ hold] at hbody
    obtain ⟨t, fields, -, rfl⟩ := eq_variantBody hbody
    rw [(Lowering.calls_variantBody t.objectCtor? fields).1] at hmade
    obtain ⟨ctor, -, rfl⟩ := mem_map.mp hmade
    exact pairwise_singleton _ _

/-- Every call of a program goes to the method that the types of its values select. The calls of a body are
those that its statements ask for, in order; one that is asked for and not made is reported. Here `c` is the
state in which the body is lowered. -/
theorem calls_select_overloads (h : (declared trees options).queue = before ++ p :: after) {c : Context}
    (hc : (declared trees options).context.lowerBodies before = c) :
    ∃ m g answered, (lowered trees options).assembly.types.methodEntry p.method = .ok m ∧ m.body = some g ∧
      answered.Sublist ((c.scopeOf p).asked { context := c } p.body) ∧
      ((lowered trees options).diagnostics = [] → answered = (c.scopeOf p).asked { context := c } p.body) ∧
      List.Forall₂ (Scope.Answers (lowered trees options).assembly.types p.method.type m g) answered g.calls := by
  obtain ⟨m, hfinishes⟩ := finishes_of_queue h hc
  obtain ⟨hresolves, object, hobject⟩ := resolves_of_queue h hc
  obtain ⟨answered, made, hsub, hall, hcalls, hanswers⟩ := hresolves.made
  have hextends := hresolves.continues.types
  have hsame := (hextends.sameHeaders.symm).trans (TypeTable.sameHeaders_lowerBodies c (p :: after))
  refine ⟨m, _, answered, hfinishes.entry, hfinishes.body, hsub, fun hsilent => hall ?_, ?_⟩
  · have hprefix : (c.lowerBody p).diagnostics <+: [] := hsilent ▸ hfinishes.diagnostics
    exact List.prefix_nil.mp hprefix
  · have hclosed : (c.bodyOf p).calls = made := hcalls
    rw [hclosed]
    refine hanswers.imp fun call made hanswer => ?_
    refine hanswer.mono hresolves.bounded.graph.bounded (hextends.evolves.keeps.lookup hobject) hfinishes.types
      ?_ List.prefix_rfl (FlowGraph.prefix_params_of_eq (FlowGraph.blockParams_close _)) hfinishes.header
    change TypeTable.SameHeaders _ (lowered trees options).context.types
    rw [lowered_eq_of_queue h, hc]
    exact hsame

/-- Three functions of one name, and calls of each. -/
def showTree : Tree :=
  let overload (type : String) : Decl :=
    .fn { name := "show", params := [{ name := "x", type := .named ⟨[type]⟩ {} }], body := some [] }
  { module := ⟨["Demo"]⟩
    body := [
      .fn { name := "main", body := some [
        .call (.unqualified "show") [.ofString "text"] {},
        .call (.unqualified "show") [.ofInt 1] {},
        .call (.unqualified "show") [.literal (.bool true) {}] {},
        .call (.unqualified "print") [.ofInt 2, .ofString "text"] {}] },
      overload "obj", overload "i32", overload "string"] }

theorem calls_select_overloads_showTree : ∃ p after m g answered,
    (declared [showTree] {}).queue = [] ++ p :: after ∧
    (lowered [showTree] {}).assembly.types.methodEntry p.method = .ok m ∧ m.body = some g ∧
    g.calls.map (·.1.index) = [3, 2, 1, 3, 0] ∧
    List.Forall₂ (Scope.Answers (lowered [showTree] {}).assembly.types p.method.type m g) answered g.calls := by
  have hmain : (declared [showTree] {}).queue.head?.bind (fun p =>
      ((lowered [showTree] {}).assembly.types.methodEntry p.method).toOption.bind fun m =>
        m.body.map fun g => g.calls.map (·.1.index)) = some [3, 2, 1, 3, 0] := by
    decide +kernel
  obtain ⟨p, hhead, hmain⟩ := Option.bind_eq_some_iff.mp hmain
  obtain ⟨after, hqueue⟩ := List.head?_eq_some_iff.mp hhead
  have hfirst : (declared [showTree] {}).queue = [] ++ p :: after := hqueue
  obtain ⟨m, g, answered, hm, hg, -, -, hanswers⟩ := calls_select_overloads hfirst rfl
  rw [hm] at hmain
  obtain ⟨g', hg', hcalls⟩ := Option.map_eq_some_iff.mp hmain
  cases hg.symm.trans hg'
  exact ⟨p, after, m, g, answered, hfirst, hm, hg, hcalls, hanswers⟩

end Compilation

end TreeCompiler
