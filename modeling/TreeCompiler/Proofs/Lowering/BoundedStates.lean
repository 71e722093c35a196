import TreeCompiler.Proofs.Lowering.Registration

/-!
# All states are within bounds

Whatever state lowering goes through, every handle in it leads somewhere. While the bodies of a program are lowered,
the table has all types of the platform, as they were, and the scope of a body stays that of its method.

* `Scope.Move.bounded`, `Scope.bounded_lowerStmts` : one step of lowering a body, and statements;
* `enlarges_serveAll`, `edits_filling`, `enlarges_lowerBodies` : the three passes.
-/

namespace TreeCompiler

namespace BodyState

/-- Every handle in the state and in the scope leads somewhere. -/
structure Bounded (e : Scope) (s : BodyState) : Prop where
  types : s.types.Bounded
  graph : s.graph.Draft s.types
  method : s.types.HasMethod e.method
  params : ∀ p ∈ e.params, s.types.Covers p.type
  result : s.types.Covers e.returnType

namespace Bounded
variable {e : Scope} {s : BodyState} (h : s.Bounded e)
include h

theorem located : s.Located e := by
  refine ⟨List.forall_mem_cons.mpr ⟨fun id hid => ?_, ?_⟩, h.result, fun id m hm type htype => ?_⟩
  · cases hid
    exact h.method.1
  · exact List.forall_mem_append.mpr ⟨List.forall_mem_map.mpr h.params, List.forall_mem_map.mpr h.graph.entry.params⟩
  · obtain ⟨i, hi⟩ := List.mem_iff_getElem?.mp hm
    have hbounded := h.types.method ⟨id, i⟩
    rw [s.types.method_of_methodEntry ⟨id, i⟩ m (Defect.entry_eq_ok_iff.mpr hi)] at hbounded
    obtain ⟨p, hp, rfl⟩ := List.mem_map.mp htype
    exact hbounded.params p hp

theorem withContext {firm : Prop} {c : Context} (hc : s.context.Consults firm c) : (s.withContext c).Bounded e := by
  have hincludes := hc.types.includes
  exact ⟨hc.types.bounded h.types, h.graph.mono hincludes, h.method.mono hincludes,
    fun p hp => (h.params p hp).mono hincludes.size, h.result.mono hincludes.size⟩

theorem append {i : Instruction} (hi : i.Bounded s.types s.graph) : (s.append i).2.Bounded e :=
  ⟨h.types, (h.graph.append hi).1, h.method, h.params, h.result⟩

theorem setFlow {flow : Flow} (hflow : flow.Bounded s.graph) : (s.setFlow flow).Bounded e :=
  ⟨h.types, (h.graph.setFlow hflow).1, h.method, h.params, h.result⟩

theorem declare (name : String) {type : Option TypeId} (htype : s.types.Covers type)
    {init : Option InstrId} (hinit : ∀ id, init = some id → s.graph.HasResult id) :
    (s.declare name type init).Bounded e := by
  obtain ⟨hdraft, hmore, hbinding⟩ := h.graph.addParam name htype
  have hdeclared : BodyState.Bounded e { s with graph := (s.graph.addParam .entry name type).2 } :=
    ⟨h.types, hdraft, h.method, h.params, h.result⟩
  refine hdeclared.append (i := .alloca (s.graph.addParam .entry name type).1 type init)
    ⟨fun id hid => ?_, hbinding, htype⟩
  exact (hinit id (Option.mem_toList.mp hid)).mono hmore

end Bounded

end BodyState

theorem FlowGraph.Defines.hasResult {g : FlowGraph} {id : InstrId} (h : Defines g.instructions id) :
    g.HasResult id := by
  obtain ⟨i, hi, -⟩ := h
  exact (List.getElem?_eq_some_iff.mp hi).1

namespace Scope
variable {P : QualifiedName → Method → Prop} {e : Scope} {s s' : BodyState}

theorem Admits.refers (hs : s.Bounded e) {i : Instruction} (h : e.Admits s i) : i.Refers s.types s.graph := by
  cases i with
  | constant value type | load type source | binary op type left right => exact h.covers hs.located
  | loadArg arg => trivial
  | loadLocal b =>
    obtain ⟨index, hindex, rfl⟩ := List.mem_map.mp h
    exact ⟨hs.graph.hasBlock, List.mem_range.mp hindex⟩
  | _ => exact h.elim

theorem Move.bounded (h : e.Move P s s') (hs : s.Bounded e) : s'.Bounded e := by
  cases h with
  | compute h =>
    cases h with
    | report span message label hcode => exact hs.withContext (.report _ ⟨hcode, False.elim⟩ _ _ _)
    | value hi hoperands => exact hs.append ⟨fun a ha => (hoperands a ha).hasResult, hi.refers hs⟩
  | look hlook => exact hs.withContext hlook
  | call hentry _ hvalues =>
    exact hs.append ⟨fun a ha => (hvalues a ha).hasResult, TypeTable.hasMethod_iff.mpr ⟨_, hentry⟩⟩
  | declare name htype hinit => exact hs.declare name (htype.covers hs.located) fun v hv => (hinit v hv).hasResult
  | @close flow hjump hvalue =>
    refine hs.setFlow ?_
    cases flow with
    | ret value => exact fun id hid => (hvalue id (congrArg Flow.ret hid)).hasResult
    | jump target => exact absurd rfl (hjump target)
    | unreachable => trivial

theorem tracks_bounded : e.Tracks P fun s s' => s.Bounded e → s'.Bounded e where
  refl _ := id
  trans h h' hs := h' (h hs)
  move := Move.bounded
  raise s ctor message hctor hmessage hs := by
    obtain ⟨c, hc, -⟩ := methodEntry_of_exceptionCtor? hctor
    have hobject := hs.append (i := .newObject ctor [message])
      ⟨fun a ha => List.mem_singleton.mp ha ▸ hmessage.hasResult, TypeTable.hasMethod_iff.mpr ⟨c, hc⟩⟩
    exact hobject.setFlow trivial

theorem covers_valueType (h : s.Bounded e) (id : InstrId) : s.types.Covers (e.valueType s id) :=
  h.graph.bounded.resultType h.types h.method id

theorem Computes.bounded (h : e.Computes s s') (hs : s.Bounded e) : s'.Bounded e :=
  tracks_bounded.moves (P := anyCall) h.moves hs

theorem bounded_lowerCall (hs : s.Bounded e) (call : Call) : (e.lowerCall s call).Bounded e :=
  tracks_bounded.moves (P := anyCall) (moves_lowerCall fun _ _ _ _ => trivial) hs

theorem bounded_lowerStmt (hs : s.Bounded e) (stmt : Stmt) : (e.lowerStmt s stmt).Bounded e :=
  tracks_bounded.lowerStmt s (callsWithin_anyCall _ stmt) hs

theorem bounded_lowerStmts (hs : s.Bounded e) (stmts : List Stmt) : (e.lowerStmts s stmts).Bounded e :=
  tracks_bounded.lowerStmts s (fun stmt _ => callsWithin_anyCall _ stmt) hs

end Scope

namespace Context
variable {c : Context} {p : PendingBody}

theorem bounded_scopeOf (hc : c.types.Bounded) (hp : c.types.HasMethod p.method) :
    BodyState.Bounded (c.scopeOf p) { context := c } where
  types := hc
  graph := .empty _
  method := hp
  params := (hc.method p.method).params
  result := (hc.method p.method).result

theorem enlarges_lowerBody (hc : c.Bounded) (hp : c.types.HasMethod p.method) : c.Enlarges (c.lowerBody p) := by
  have hbounded := Scope.bounded_lowerStmts (bounded_scopeOf hc.types hp) p.body
  have hcontext := ((c.scopeOf p).continues_lowerStmts { context := c } p.body).context.enlarges
  exact hcontext.trans (.setBody p.method hbounded.graph.close.bounded)

end Context

/-! ## Passes -/

open TypeTable List Context

theorem TypeDef.Bare.bounded {d : TypeDef} (h : d.Bare) (t : TypeTable) : d.Bounded t := by
  have hfields : d.fields = [] := congrArg (·.1) h.members
  have hmethods : d.methods = [] := congrArg (·.2.1) h.members
  have hproperties : d.properties = [] := congrArg (·.2.2) h.members
  constructor
  · simp [h.bases]
  · simp [h.definition, Covers]
  · simp [h.args]
  · simp [h.attributes, HasAttributes]
  · simp [hfields]
  · simp [hmethods]
  · simp [hproperties]

/-! ## Passes -/

namespace Context

theorem enlarges_serveAll (c : Context) {rs : List Request} (hrs : ∀ d, .type d ∈ rs → d.Bare) :
    c.Enlarges (c.serveAll rs).2 :=
  serveAll_rel .refl .trans .push (fun _ d hd _ => .register ((hrs d hd).bounded _)) c

/-- Bodies of methods that there are. -/
theorem enlarges_lowerBodies {c : Context} (hc : c.Bounded) {queue : List PendingBody}
    (hqueue : ∀ p ∈ queue, c.types.HasMethod p.method) : c.Enlarges (c.lowerBodies queue) := by
  induction queue generalizing c with
  | nil => exact .refl c
  | cons p queue ih =>
    have hfirst := enlarges_lowerBody hc (hqueue p mem_cons_self)
    exact hfirst.trans (ih (hfirst.bounded hc) fun q hq =>
      (hqueue q (mem_cons_of_mem _ hq)).mono hfirst.includes)

end Context

/-! ## States -/

namespace Compilation

/-- The types of the platform refer to one another. -/
theorem bounded_platform (options : Options) : (platform options).Bounded := by
  have hhandles : ∀ d ∈ (platform options).defs,
      (∀ b ∈ d.bases, b.index < (platform options).size) ∧ d.genericDefinition = none ∧
        d.genericArgs = [] ∧ d.attributes = [] ∧ d.properties = [] ∧
        (∀ f ∈ d.fields, (∀ id ∈ f.type, id.index < (platform options).size) ∧ f.attributes = []) ∧
        ∀ m ∈ d.methods, m.body = none ∧ m.attributes = [] ∧
          (∀ id ∈ m.returnType, id.index < (platform options).size) ∧
          ∀ p ∈ m.params, ∀ id ∈ p.type, id.index < (platform options).size := by
    unfold platform
    cases options.target <;> decide +kernel
  intro d hd
  obtain ⟨hbases, hdefinition, hargs, hattributes, hproperties, hfields, hmethods⟩ := hhandles d hd
  refine ⟨hbases, ?_, ?_, ?_, fun f hf => ⟨(hfields f hf).1, ?_⟩, fun m hm => ?_, ?_⟩
  · simp [hdefinition, Covers]
  · simp [hargs]
  · simp [hattributes, HasAttributes]
  · simp [(hfields f hf).2, HasAttributes]
  · obtain ⟨hbody, hattributes, hresult, hparams⟩ := hmethods m hm
    refine ⟨hresult, hparams, ?_, ?_⟩
    · simp [hattributes, HasAttributes]
    · simp [hbody]
  · simp [hproperties]

variable (trees : List Tree) (options : Options)

theorem bounded_start : (start trees options).context.Bounded := by
  refine ⟨?_, fun m hm => ?_⟩
  · rw [types_start]
    exact bounded_platform options
  · cases hm

theorem registered_lt_size : ∀ d ∈ registrations trees options, d.1.decl.Registered
    (fun id _ => id.index < (allRegistered trees options).types.size) d.1.module d.2 :=
  fun d hd => (registered_declareAll _ _ d hd).imp fun _ _ hholds => hholds.1

theorem enlarges_registering {before after : List Request} (h : asked trees options = before ++ after) :
    (start trees options).context.Enlarges ((start trees options).context.serveAll before).2 := by
  refine enlarges_serveAll _ fun d hd => ?_
  have hmem : Request.type d ∈ asked trees options := h ▸ mem_append_left _ hd
  exact bare_of_mem_requests hmem

theorem bounded_allRegistered : (allRegistered trees options).Bounded := by
  have hall := enlarges_registering trees options (append_nil (asked trees options)).symm
  rw [serveAll_asked] at hall
  exact hall.bounded (bounded_start trees options)

theorem edits_filling {before after : List (Declaration × Declared)}
    (h : registrations trees options = before ++ after) : (allRegistered trees options).Edits
      (.basesOf fun _ => True) (Lowering.fillAll { context := allRegistered trees options } before).context :=
  Lowering.edits_registeredAll { context := allRegistered trees options } fun d hd =>
    registered_lt_size trees options d (h ▸ mem_append_left _ hd)

/-- Once all declarations are lowered, the methods whose bodies are queued are there. -/
theorem bounded_declared : (declared trees options).Bounded := by
  obtain ⟨es, -, haccounts⟩ := accounts_lowerDeclarations trees options
  refine ⟨?_, fun p hp => ?_⟩
  · have hfilled := (edits_filling trees options (append_nil (registrations trees options)).symm).fills.enlarges.bounded
      (bounded_allRegistered trees options)
    rw [declared, lowerDeclarations_eq]
    exact hfilled
  · obtain ⟨m, hm, -⟩ := haccounts.methodEntry_of_mem_queue hp
    exact hasMethod_iff.mpr ⟨m, hm⟩

theorem enlarges_completing {before after : List PendingBody}
    (h : (declared trees options).queue = before ++ after) : (declared trees options).context.Enlarges
      ((declared trees options).context.lowerBodies before) :=
  enlarges_lowerBodies (bounded_declared trees options).context fun p hp =>
    (bounded_declared trees options).queue p (h ▸ mem_append_left _ hp)

theorem bounded_lowered : (lowered trees options).context.Bounded :=
  (enlarges_completing trees options (append_nil (declared trees options).queue).symm).bounded
    (bounded_declared trees options).context

/-- At all times every handle leads somewhere. -/
theorem bounded_of_visits {c : Context} (h : Visits trees options c) : c.Bounded := by
  cases h with
  | registering before after h =>
    exact (enlarges_registering trees options h).bounded (bounded_start trees options)
  | filling before after h =>
    exact (edits_filling trees options h).fills.enlarges.bounded (bounded_allRegistered trees options)
  | completing before after h =>
    exact (enlarges_completing trees options h).bounded (bounded_declared trees options).context

end Compilation

/-! ## States in which bodies are lowered -/

namespace Compilation
variable {trees : List Tree} {options : Options} {e : Scope} {s : BodyState}

/-- States that lowering the bodies of a program leads to, each with the scope of the body: an empty body
after those before it in the queue, and then whatever comes of steps of lowering. -/
inductive Reached (trees : List Tree) (options : Options) : Scope → BodyState → Prop where
  | queued {before after : List PendingBody} {p : PendingBody} :
      (declared trees options).queue = before ++ p :: after →
      Reached trees options (((declared trees options).context.lowerBodies before).scopeOf p)
        { context := (declared trees options).context.lowerBodies before }
  | lowers {e : Scope} {s s' : BodyState} : Reached trees options e s → e.Lowers Scope.anyCall s s' →
      Reached trees options e s'

namespace Reached

variable (h : Reached trees options e s)
include h

theorem stmts (body : List Stmt) : Reached trees options e (e.lowerStmts s body) := by
  induction body generalizing s with
  | nil => exact h
  | cons stmt body ih =>
    unfold Scope.lowerStmts
    split
    · exact h
    · exact ih (h.lowers (Scope.lowers_lowerStmt s (Scope.callsWithin_anyCall e.module stmt)))

theorem run : Run options (start trees options).context s.context := by
  induction h with
  | queued hsplit => exact (run_declared trees options).trans (run_completing trees options hsplit).1
  | lowers _ hlowers ih =>
    exact ih.trans ((Scope.tracks_continues.lowers hlowers).context.steps fun _ _ => trivial)

/-- A scope stays that of its method while types are registered. -/
theorem serves : e.Serves (s.types.method e.method) := by
  induction h with
  | queued hsplit => exact ⟨rfl, rfl⟩
  | lowers _ hlowers ih =>
    rw [(Scope.tracks_continues.lowers hlowers).types.method_eq]
    exact ih

theorem grounded : s.types.Grounded :=
  (sound_of_run trees options h.run).grounded

theorem get_eq {id : TypeId} (hid : id.index < (platform options).size) :
    s.types.get id = (platform options).get id := by
  have hstart := types_start trees options
  have hsame := Steps.get_eq h.run (hstart.symm ▸ hid) (Nat.not_le_of_lt hid)
  rw [hstart] at hsame
  exact hsame

/-- There is a function that writes to the console. -/
theorem console : ∃ console, s.types.system? "Console" = some console ∧
    Scope.candidates s.types console "Write" true ≠ [] := by
  have hplatform : ((platform options).system? "Console").any
      (fun console => !(Scope.candidates (platform options) console "Write" true).isEmpty) = true := by
    unfold platform
    cases options.target <;> decide +kernel
  obtain ⟨console, hconsole, hwrites⟩ := (Option.any_eq_true _ _).mp hplatform
  have hlt := (lookup_spec hconsole).1
  refine ⟨console, (keeps_of_run trees options h.run).lookup hconsole, ?_⟩
  rw [Scope.candidates, h.get_eq hlt]
  exact isEmpty_eq_false_iff.mp ((Bool.not_eq_true' _).mp hwrites)

omit h in
/-- The empty body that is lowered first. -/
theorem exists_first (trees : List Tree) (options : Options) (P : Scope → BodyState → Bool)
    (h : ((declared trees options).queue.head?.any fun p =>
      P ((declared trees options).context.scopeOf p) { context := (declared trees options).context }) = true) :
    ∃ e s, Reached trees options e s ∧ P e s = true := by
  obtain ⟨p, hhead, hp⟩ := (Option.any_eq_true _ _).mp h
  obtain ⟨after, hqueue⟩ := head?_eq_some_iff.mp hhead
  have hfirst : (declared trees options).queue = [] ++ p :: after := hqueue
  exact ⟨_, _, .queued hfirst, hp⟩

end Reached

end Compilation

end TreeCompiler
