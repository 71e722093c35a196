import Mathlib.Tactic.MkIffOfInductiveProp
import TreeCompiler.Compilation

/-!
# Sessions

A caller may ask a compilation for its steps in any order, and may go on after a call that broke off. A call
works in place: what it changed before it broke off stays changed.

* `Session.lowerDeclarations`, `lowerBodies`, `emit`, `compile` : the calls, in place.
-/

namespace TreeCompiler

open Compilation TypeTable Lowering List Machine MethodScope

/-- A compilation in use, with the steps that succeeded so far. -/
structure Session where
  compilation : Compilation
  taken : List Step := []

namespace Session
variable (s : Session) (call : Call) (calls : List Call)

inductive Break where
  /-- The stage does not allow a step. -/
  | outOfOrder (e : OutOfOrder)
  /-- The target meets a defect of the assembly. -/
  | defect (d : Defect)

/-- Work on a session. If it breaks off, the session stays as it is at that point. -/
abbrev Action := EStateM Break Session

/-! ## Calls -/

def alter (f : Compilation → Compilation) : Action Unit :=
  modify fun s => { s with compilation := f s.compilation }

def note (step : Step) : Action Unit :=
  modify fun s => { s with taken := s.taken ++ [step] }

def lowerDeclarations : Action Unit := do
  let c := (← get).compilation
  match c.stage with
  | .unstarted =>
    let l := c.context.lowerDeclarations c.trees
    alter fun c => { c with context := l.context }
    alter fun c => { c with stage := .declarationsLowered l.queue }
    note .lowerDeclarations
  | stage => throw (.outOfOrder { step := .lowerDeclarations, stage })

/-- The stage is moved on before it is known whether bodies may be lowered, and put back if not. -/
def lowerBodies : Action Unit := do
  let previous := (← get).compilation.stage
  alter fun c => { c with stage := .bodiesLowered }
  match previous with
  | .declarationsLowered queue =>
    alter fun c => { c with context := c.context.lowerBodies queue }
    note .lowerBodies
  | stage =>
    alter fun c => { c with stage }
    throw (.outOfOrder { step := .lowerBodies, stage })

def deliver : Except EmitError Artifact → Action (Except CompileError Artifact)
  | .ok artifact => do
    alter fun c => { c with stage := .emitted }
    note .emit
    return .ok artifact
  | .error (.defect d) => throw (.defect d)
  | .error e => return .error (.emission e)

def emit : Action (Except CompileError Artifact) := do
  let c := (← get).compilation
  match c.stage with
  | .bodiesLowered => deliver (c.options.target.emit c.assembly)
  | stage => throw (.outOfOrder { step := .emit, stage })

def compile : Action (Except CompileError Artifact) := do
  lowerDeclarations
  lowerBodies
  let c := (← get).compilation
  if c.hasErrors then return .error (.failed c.errorCount) else emit

inductive Call where
  | lowerDeclarations
  | lowerBodies
  | emit
  | compile
deriving DecidableEq, Repr

inductive Reply where
  | done
  | result (r : Except CompileError Artifact)
  | broken (b : Break)

def Call.action : Call → Action Reply
  | .lowerDeclarations => do Session.lowerDeclarations; return .done
  | .lowerBodies => do Session.lowerBodies; return .done
  | .emit => return .result (← Session.emit)
  | .compile => return .result (← Session.compile)

def settle : EStateM.Result Break Session Reply → Reply × Session
  | .ok reply s => (reply, s)
  | .error b s => (.broken b, s)

def perform : Reply × Session :=
  settle (call.action.run s)

/-- A call with its reply and the session before and after it. -/
structure Exchange where
  before : Session
  call : Call
  reply : Reply
  after : Session

def exchanges : Session → List Call → List Exchange
  | _, [] => []
  | s, call :: calls =>
    let (reply, after) := s.perform call
    { before := s, call, reply, after } :: after.exchanges calls

theorem exchanges_cons : s.exchanges (call :: calls) =
      { before := s, call, reply := (s.perform call).1, after := (s.perform call).2 } ::
        (s.perform call).2.exchanges calls := rfl

theorem perform_of_mem_exchanges {s : Session} {calls : List Call} {x : Exchange} (hx : x ∈ s.exchanges calls) :
    x.before.perform x.call = (x.reply, x.after) := by
  induction calls generalizing s with
  | nil => cases hx
  | cons call calls ih =>
    rw [exchanges_cons] at hx
    rcases mem_cons.mp hx with rfl | hx
    · rfl
    · exact ih hx

def performAll : Session :=
  calls.foldl (fun s call => (s.perform call).2) s

end Session

/-! ## The calls are the steps of the compilation -/

namespace Compilation
open Session
variable (c : Compilation)

def replyOfStep : Except OutOfOrder Compilation → Reply × Compilation
  | .ok c => (.done, c)
  | .error e => (.broken (.outOfOrder e), c)

/-- The reply to a step that emits; a defect is no result. -/
def replyOfEmission :
    Except OutOfOrder (Except CompileError Artifact × Compilation) → Reply × Compilation
  | .ok (.error (.emission (.defect d)), c) => (.broken (.defect d), c)
  | .ok (result, c) => (.result result, c)
  | .error e => (.broken (.outOfOrder e), c)

/-- The reply to a call and the compilation after it. -/
def answer : Call → Reply × Compilation
  | .lowerDeclarations => c.replyOfStep c.lowerDeclarations
  | .lowerBodies => c.replyOfStep c.lowerBodies
  | .emit => c.replyOfEmission c.emit
  | .compile => c.replyOfEmission c.compile

theorem replyOfEmission_emit {c : Compilation} (h : c.stage = .bodiesLowered) (c' : Compilation) :
    c'.replyOfEmission c.emit = c.replyOfEmission c.emit := by
  obtain ⟨trees, options, context, stage⟩ := c
  cases h
  unfold emit
  dsimp only
  cases options.target.emit (assembly ⟨trees, options, context, .bodiesLowered⟩) with
  | ok artifact => rfl
  | error e => cases e <;> rfl

def lowerAll : Compilation :=
  let l := c.context.lowerDeclarations c.trees
  { c with context := l.context.lowerBodies l.queue, stage := .bodiesLowered }

end Compilation

def Stage.next? : Stage → Option Step
  | .unstarted => some .lowerDeclarations
  | .declarationsLowered _ => some .lowerBodies
  | .bodiesLowered => some .emit
  | .emitted => none

namespace Session
variable {s : Session}

def Call.first : Call → Step
  | .lowerDeclarations => .lowerDeclarations
  | .lowerBodies => .lowerBodies
  | .emit => .emit
  | .compile => .lowerDeclarations

/-- A call that does not begin with the next step is refused and changes nothing. -/
theorem perform_of_next?_ne {call : Call} (h : s.compilation.stage.next? ≠ some call.first) : s.perform call =
      (.broken (.outOfOrder { step := call.first, stage := s.compilation.stage }), s) := by
  obtain ⟨⟨trees, options, context, stage⟩, taken⟩ := s
  cases stage <;> cases call <;> first | rfl | exact absurd rfl h

def delivery (s : Session) : Except EmitError Artifact → Reply × Session
  | .ok artifact => (.result (.ok artifact),
      { compilation := { s.compilation with stage := .emitted }, taken := s.taken ++ [.emit] })
  | .error (.defect d) => (.broken (.defect d), s)
  | .error e => (.result (.error (.emission e)), s)

theorem perform_emit (h : s.compilation.stage = .bodiesLowered) :
    s.perform .emit = s.delivery (s.compilation.options.target.emit s.compilation.assembly) := by
  obtain ⟨⟨trees, options, context, stage⟩, taken⟩ := s
  cases h
  change settle ((do return .result (← deliver (options.target.emit context.assembly)) : Action Reply).run _) =
    delivery _ (options.target.emit context.assembly)
  cases options.target.emit context.assembly with
  | ok artifact => rfl
  | error e => cases e <;> rfl

def lowerAll (s : Session) : Session where
  compilation := s.compilation.lowerAll
  taken := s.taken ++ [.lowerDeclarations] ++ [.lowerBodies]

theorem perform_compile (h : s.compilation.stage = .unstarted) : s.perform .compile =
      if s.lowerAll.compilation.hasErrors then
        (.result (.error (.failed s.lowerAll.compilation.errorCount)), s.lowerAll)
      else s.lowerAll.perform .emit := by
  obtain ⟨⟨trees, options, context, stage⟩, taken⟩ := s
  cases h
  let lowered := lowerAll ⟨⟨trees, options, context, .unstarted⟩, taken⟩
  change settle (((if lowered.compilation.hasErrors then
      pure (.error (.failed lowered.compilation.errorCount)) else emit : Action _) >>=
        fun r => pure (.result r)).run lowered) =
    if lowered.compilation.hasErrors then (.result (.error (.failed lowered.compilation.errorCount)), lowered)
    else lowered.perform .emit
  by_cases herrors : lowered.compilation.hasErrors = true
  · rw [if_pos herrors, if_pos herrors]
    rfl
  · rw [if_neg herrors, if_neg herrors]
    rfl

theorem perform_emit_eq_answer (s : Session) :
    ((s.perform .emit).1, (s.perform .emit).2.compilation) = s.compilation.answer .emit := by
  obtain ⟨⟨trees, options, context, stage⟩, taken⟩ := s
  cases stage with
  | bodiesLowered =>
    rw [perform_emit rfl]
    unfold answer Compilation.emit
    dsimp only [assembly]
    cases options.target.emit context.assembly with
    | ok artifact => rfl
    | error e => cases e <;> rfl
  | _ => rfl

/-- The reply to a call, and what it leaves of the compilation, are those of the step. -/
theorem perform_eq_answer (s : Session) (call : Call) :
    ((s.perform call).1, (s.perform call).2.compilation) = s.compilation.answer call := by
  cases call with
  | lowerDeclarations | lowerBodies =>
    obtain ⟨⟨trees, options, context, stage⟩, taken⟩ := s
    cases stage <;> rfl
  | emit => exact perform_emit_eq_answer s
  | compile =>
    obtain ⟨⟨trees, options, context, stage⟩, taken⟩ := s
    cases stage with
    | unstarted =>
      rw [perform_compile rfl]
      generalize hs : lowerAll ⟨⟨trees, options, context, .unstarted⟩, taken⟩ = lowered
      have hcompile : Compilation.compile ⟨trees, options, context, .unstarted⟩ =
          if lowered.compilation.hasErrors then
            .ok (.error (.failed lowered.compilation.errorCount), lowered.compilation)
          else lowered.compilation.emit := by
        rw [← hs]
        rfl
      unfold answer
      dsimp only
      rw [hcompile]
      split
      · rfl
      · have hstage : lowered.compilation.stage = .bodiesLowered := by
          rw [← hs]
          rfl
        rw [perform_emit_eq_answer, replyOfEmission_emit hstage]
        rfl
    | _ => rfl

/-! ## The states of a session -/

inductive Phase where
  | started
  | declared
  | lowered
  | emitted

section States
variable (trees : List Tree) (options : Options) {call : Call} {reply : Reply} {p p' : Phase} {e : EmitError}
  {calls : List Call} {x : Exchange}

def start : Session where
  compilation := .start trees options

def Phase.session : Phase → Session
  | .started => start trees options
  | .declared =>
    let c := Compilation.start trees options
    let l := c.context.lowerDeclarations trees
    { compilation := { c with context := l.context, stage := .declarationsLowered l.queue }
      taken := [.lowerDeclarations] }
  | .lowered =>
    { compilation := .lowered trees options, taken := [.lowerDeclarations, .lowerBodies] }
  | .emitted =>
    { compilation := { Compilation.lowered trees options with stage := .emitted }
      taken := [.lowerDeclarations, .lowerBodies, .emit] }

def emission : Except EmitError Artifact :=
  options.target.emit (lowered trees options).assembly

/-- What emission does once the trees are lowered. -/
inductive Emits : Reply → Phase → Prop
  | artifact (a : Artifact) (h : emission trees options = .ok a) : Emits (.result (.ok a)) .emitted
  | failed (e : EmitError) (h : emission trees options = .error e) (hdefect : ∀ d, e ≠ .defect d) :
      Emits (.result (.error (.emission e))) .lowered
  | defect (d : Defect) (h : emission trees options = .error (.defect d)) :
      Emits (.broken (.defect d)) .lowered

/-- What a call does in each state of a session. -/
inductive Goes : Phase → Call → Reply → Phase → Prop
  | refused (p : Phase) (call : Call)
      (h : (p.session trees options).compilation.stage.next? ≠ some call.first) :
      Goes p call (.broken (.outOfOrder
        { step := call.first, stage := (p.session trees options).compilation.stage })) p
  | declarations : Goes .started .lowerDeclarations .done .declared
  | bodies : Goes .declared .lowerBodies .done .lowered
  | emit {reply : Reply} {p : Phase} (h : Emits trees options reply p) : Goes .lowered .emit reply p
  | compile {reply : Reply} {p : Phase} (hclean : (lowered trees options).hasErrors = false)
      (h : Emits trees options reply p) : Goes .started .compile reply p
  | errors (h : (lowered trees options).hasErrors = true) :
      Goes .started .compile
        (.result (.error (.failed (lowered trees options).errorCount))) .lowered

theorem emits_delivery : ∃ p, Emits trees options
    ((Phase.lowered.session trees options).delivery (emission trees options)).1 p ∧
    ((Phase.lowered.session trees options).delivery (emission trees options)).2 = p.session trees options := by
  cases h : emission trees options with
  | ok a => exact ⟨.emitted, .artifact a h, rfl⟩
  | error e =>
    cases e with
    | defect d => exact ⟨.lowered, .defect d h, rfl⟩
    | _ => exact ⟨.lowered, .failed _ h (fun _ heq => EmitError.noConfusion heq), rfl⟩

theorem goes_perform (p : Phase) (call : Call) :
    ∃ p', Goes trees options p call ((p.session trees options).perform call).1 p' ∧
      ((p.session trees options).perform call).2 = p'.session trees options := by
  by_cases hnext : (p.session trees options).compilation.stage.next? = some call.first
  · cases p with
    | started =>
      cases call with
      | lowerDeclarations => exact ⟨.declared, .declarations, rfl⟩
      | compile =>
        have hlowered : (Phase.started.session trees options).lowerAll = Phase.lowered.session trees options := rfl
        by_cases herrors : (Phase.lowered.session trees options).compilation.hasErrors = true
        · rw [perform_compile rfl, hlowered, if_pos herrors]
          exact ⟨.lowered, .errors herrors, rfl⟩
        · rw [perform_compile rfl, hlowered, if_neg herrors, perform_emit rfl]
          obtain ⟨p', hemits, hsession⟩ := emits_delivery trees options
          exact ⟨p', .compile (Bool.eq_false_iff.mpr herrors) hemits, hsession⟩
      | _ => cases hnext
    | declared =>
      cases call with
      | lowerBodies => exact ⟨.lowered, .bodies, rfl⟩
      | _ => cases hnext
    | lowered =>
      cases call with
      | emit =>
        rw [perform_emit rfl]
        obtain ⟨p', hemits, hsession⟩ := emits_delivery trees options
        exact ⟨p', .emit hemits, hsession⟩
      | _ => cases hnext
    | emitted => cases hnext
  · rw [perform_of_next?_ne hnext]
    exact ⟨p, .refused p call hnext, rfl⟩

variable {trees options}

theorem Goes.eq_lowered (h : Goes trees options .lowered call reply p)
    (he : emission trees options = .error e) : p = .lowered := by
  cases h with
  | refused => rfl
  | emit hemits =>
    cases hemits with
    | artifact a ha => cases he.symm.trans ha
    | failed | defect => rfl

/-- An exchange takes a session from one of its states to another. -/
structure Exchange.Between (trees : List Tree) (options : Options) (x : Exchange) (p p' : Phase) : Prop where
  before : x.before = p.session trees options
  after : x.after = p'.session trees options
  goes : Goes trees options p x.call x.reply p'

theorem between_of_mem_exchanges (p : Phase) (hx : x ∈ (p.session trees options).exchanges calls) :
    ∃ q q', x.Between trees options q q' := by
  induction calls generalizing p with
  | nil => cases hx
  | cons call calls ih =>
    obtain ⟨p', hgoes, hsession⟩ := goes_perform trees options p call
    rw [exchanges_cons, hsession] at hx
    rcases mem_cons.mp hx with rfl | hx
    · exact ⟨p, p', rfl, rfl, hgoes⟩
    · exact ih p' hx

theorem before_eq_of_emission_error (he : emission trees options = .error e)
    (hx : x ∈ (Phase.lowered.session trees options).exchanges calls) :
    x.before = Phase.lowered.session trees options := by
  induction calls with
  | nil => cases hx
  | cons call calls ih =>
    obtain ⟨p', hgoes, hsession⟩ := goes_perform trees options .lowered call
    rw [exchanges_cons, hsession, hgoes.eq_lowered he] at hx
    rcases mem_cons.mp hx with rfl | hx
    · rfl
    · exact ih hx

theorem exists_performAll (p : Phase) (calls : List Call) :
    ∃ p' : Phase, (p.session trees options).performAll calls = p'.session trees options := by
  induction calls generalizing p with
  | nil => exact ⟨p, rfl⟩
  | cons call calls ih =>
    obtain ⟨p', -, hsession⟩ := goes_perform trees options p call
    obtain ⟨q, hq⟩ := ih p'
    refine ⟨q, ?_⟩
    rw [← hq, ← hsession]
    rfl

/-- A reply that gives no artifact because of what the target said. -/
def Reply.Fails : Reply → Prop
  | .result (.error _) => True
  | .broken (.defect _) => True
  | _ => False

theorem Goes.of_emit_fails (h : Goes trees options p .emit reply p') (hfails : reply.Fails) :
    p = .lowered ∧ p' = .lowered ∧ ∃ e, emission trees options = .error e := by
  cases h with
  | refused => cases hfails
  | emit hemits =>
    cases hemits with
    | artifact => cases hfails
    | failed e he => exact ⟨rfl, rfl, e, he⟩
    | defect d hd => exact ⟨rfl, rfl, .defect d, hd⟩

theorem pairwise_reply_eq (p : Phase) (calls : List Call) :
    ((p.session trees options).exchanges calls).Pairwise fun x y =>
      x.call = .emit → x.reply.Fails → y.call = .emit → y.reply = x.reply := by
  induction calls generalizing p with
  | nil => exact .nil
  | cons call calls ih =>
    obtain ⟨p', hgoes, hsession⟩ := goes_perform trees options p call
    rw [exchanges_cons, hsession, pairwise_cons]
    refine ⟨fun y hy hcall hfails hemit => ?_, ih p'⟩
    dsimp only at hcall hfails ⊢
    subst hcall
    obtain ⟨rfl, rfl, e, he⟩ := hgoes.of_emit_fails hfails
    have hperform := perform_of_mem_exchanges hy
    rw [before_eq_of_emission_error he hy, hemit] at hperform
    rw [hperform]

theorem Emits.ne_outOfOrder (h : Emits trees options reply p) (e : OutOfOrder) : reply ≠ .broken (.outOfOrder e) := by
  intro heq
  cases h <;> cases heq

theorem Goes.refused_iff (h : Goes trees options p call reply p') (e : OutOfOrder) : reply = .broken (.outOfOrder e) ↔
      (p.session trees options).compilation.stage.next? ≠ some call.first ∧
        e = { step := call.first, stage := (p.session trees options).compilation.stage } := by
  constructor
  · rintro rfl
    cases h with
    | refused _ _ hnext => exact ⟨hnext, rfl⟩
    | emit hemits | compile _ hemits => exact absurd rfl (hemits.ne_outOfOrder e)
  · rintro ⟨hnext, rfl⟩
    cases h with
    | refused => rfl
    | _ => exact absurd rfl hnext

theorem Goes.of_broken {b : Break} (h : Goes trees options p call (.broken b) p') :
    p' = p ∨ call = .compile ∧ p = .started ∧ p' = .lowered ∧
      (lowered trees options).hasErrors = false ∧
        ∃ d, b = .defect d ∧ emission trees options = .error (.defect d) := by
  cases h with
  | refused => exact .inl rfl
  | emit hemits =>
    cases hemits with
    | defect => exact .inl rfl
  | compile hclean hemits =>
    cases hemits with
    | defect d hd => exact .inr ⟨rfl, rfl, rfl, hclean, d, rfl, hd⟩

theorem Goes.of_artifact {a : Artifact} (h : Goes trees options p .compile (.result (.ok a)) p') :
    p = .started ∧ p' = .emitted ∧ (lowered trees options).hasErrors = false ∧
      emission trees options = .ok a := by
  cases h with
  | compile hclean hemits =>
    cases hemits with
    | artifact _ ha => exact ⟨rfl, rfl, hclean, ha⟩

theorem perform_compile_start (hclean : (lowered trees options).hasErrors = false) :
    (start trees options).perform .compile =
      (Phase.lowered.session trees options).delivery (emission trees options) := by
  have hlowered : (start trees options).lowerAll = Phase.lowered.session trees options := rfl
  have herrors : ¬ (Phase.lowered.session trees options).compilation.hasErrors = true :=
    Bool.eq_false_iff.mp hclean
  rw [perform_compile rfl, hlowered, if_neg herrors, perform_emit rfl]
  rfl

theorem taken_session_prefix (p : Phase) :
    (p.session trees options).taken <+: [.lowerDeclarations, .lowerBodies, .emit] := by
  cases p with
  | started => exact ⟨[.lowerDeclarations, .lowerBodies, .emit], rfl⟩
  | declared => exact ⟨[.lowerBodies, .emit], rfl⟩
  | lowered => exact ⟨[.emit], rfl⟩
  | emitted => exact ⟨[], rfl⟩

end States

/-! ## All sequences of calls -/

/-- Whatever is called, and in whatever order:
a call gives what the step of the compilation gives; it is refused just when it does not begin with the step
that comes next; a call that breaks off changes nothing, except for a whole compilation in which the target
meets a defect, which keeps its trees lowered; an emission that fails changes nothing, and a later one fails in
the same way; the steps that succeed are the first of the three, in order; and a compilation gives an artifact
just if it has not started, finds no errors, and the target makes this artifact of the trees lowered once. -/
theorem calls_in_order (trees : List Tree) (options : Options) (calls : List Call) :
    (∀ x ∈ (start trees options).exchanges calls,
      (x.reply, x.after.compilation) = x.before.compilation.answer x.call ∧
      (∀ e, x.reply = .broken (.outOfOrder e) ↔
        x.before.compilation.stage.next? ≠ some x.call.first ∧
          e = { step := x.call.first, stage := x.before.compilation.stage }) ∧
      (∀ b, x.reply = .broken b → x.after = x.before ∨
        x.call = .compile ∧ x.before = start trees options ∧
          x.after.compilation = Compilation.lowered trees options ∧
          (Compilation.lowered trees options).hasErrors = false ∧
          ∃ d, b = .defect d ∧
            options.target.emit (Compilation.lowered trees options).assembly = .error (.defect d)) ∧
      (x.call = .emit → x.reply.Fails →
        x.before.compilation.stage = .bodiesLowered ∧ x.after = x.before) ∧
      (x.call = .compile → ∀ artifact,
        (x.reply = .result (.ok artifact) ↔ x.before = start trees options ∧
          (Compilation.lowered trees options).hasErrors = false ∧
          options.target.emit (Compilation.lowered trees options).assembly = .ok artifact) ∧
        (x.reply = .result (.ok artifact) →
          x.after.compilation = { Compilation.lowered trees options with stage := .emitted }))) ∧
    ((start trees options).exchanges calls).Pairwise (fun x y =>
      x.call = .emit → x.reply.Fails → y.call = .emit → y.reply = x.reply) ∧
    ((start trees options).performAll calls).taken <+: [.lowerDeclarations, .lowerBodies, .emit] := by
  refine ⟨fun x hx => ?_, pairwise_reply_eq .started calls, ?_⟩
  · have hperform := perform_of_mem_exchanges hx
    obtain ⟨p, p', hbetween⟩ := between_of_mem_exchanges .started hx
    obtain ⟨before, call, reply, after⟩ := x
    obtain ⟨rfl, rfl, hgoes⟩ := hbetween
    dsimp only at hgoes hperform ⊢
    refine ⟨?_, hgoes.refused_iff, ?_, ?_, ?_⟩
    · rw [← perform_eq_answer, hperform]
    · rintro b rfl
      rcases hgoes.of_broken with rfl | ⟨rfl, rfl, rfl, hclean, hdefect⟩
      · exact .inl rfl
      · exact .inr ⟨rfl, rfl, rfl, hclean, hdefect⟩
    · rintro rfl hfails
      obtain ⟨rfl, rfl, -⟩ := hgoes.of_emit_fails hfails
      exact ⟨rfl, rfl⟩
    · rintro rfl artifact
      refine ⟨⟨?_, ?_⟩, ?_⟩
      · rintro rfl
        obtain ⟨rfl, -, hclean, hartifact⟩ := hgoes.of_artifact
        exact ⟨rfl, hclean, hartifact⟩
      · rintro ⟨hstart, hclean, hartifact⟩
        have hartifact : emission trees options = .ok artifact := hartifact
        rw [hstart, perform_compile_start hclean, hartifact] at hperform
        exact (congrArg Prod.fst hperform).symm
      · rintro rfl
        obtain ⟨-, rfl, -, -⟩ := hgoes.of_artifact
        rfl
  · obtain ⟨p, hp⟩ : ∃ p : Phase, (start trees options).performAll calls = p.session trees options :=
      exists_performAll .started calls
    exact hp ▸ taken_session_prefix p

end Session

/-! ## A compilation that the target breaks off -/

theorem Context.traverse_replicate {σ α β : Type} {f : σ → α → β × σ} {s : σ} {a : α} {b : β}
    (h : f s a = (b, s)) (n : Nat) : traverse f s (replicate n a) = (replicate n b, s) := by
  induction n with
  | zero => rfl
  | succ n ih => simp only [replicate_succ, traverse, h, ih]

theorem modify_length_append {α : Type} (as : List α) (a : α) (f : α → α) :
    (as ++ [a]).modify as.length f = as ++ [f a] := by
  induction as with
  | nil => rfl
  | cons b bs ih => exact congrArg (b :: ·) ih

namespace Machine

theorem definedMethods_append {ds : List TypeDef} {d : TypeDef} {m : Method}
    (hds : ∀ x ∈ ds, x.origin = .external) (hd : d.origin = .defined) (hm : d.methods = [m]) :
    definedMethods { defs := ds ++ [d] } = [⟨⟨ds.length⟩, 0⟩] := by
  have hnone : ds.zipIdx.filter (fun x => x.1.origin == .defined) = [] := by
    rw [filter_eq_nil_iff]
    intro x hx
    rw [hds x.1 (fst_mem_of_mem_zipIdx hx)]
    decide
  have hlast : defined { defs := ds ++ [d] } = [(⟨ds.length⟩, d)] := by
    unfold defined numbered
    rw [zipIdx_append, map_append, filter_append, filter_map]
    change map _ (ds.zipIdx.filter fun x => x.1.origin == .defined) ++ _ = _
    rw [hnone]
    simp [hd]
  unfold definedMethods
  rw [hlast]
  simp [hm]

theorem methodLines_of_overflow {t : TypeTable} {ref : MethodRef} {g : FlowGraph} (strings : List String)
    (hstatic : (t.method ref).isStatic = true) (hbody : (t.method ref).body = some g)
    (hcount : (t.method ref).params.length % countSize = 65535) :
    methodLines t strings ref = .error (.defect .overflow) := by
  have hnext : Defect.next countSize (paramCount { types := t, method := ref, graph := g }) = .error .overflow := by
    unfold paramCount
    rw [hcount]
    rfl
  have hlines : (lines { types := t, method := ref, graph := g }).run { strings } = .error (.defect .overflow) := by
    unfold lines
    rw [hnext]
    rfl
  unfold methodLines
  dsimp only
  rw [hstatic, hbody]
  dsimp only [Bool.not_true, Bool.false_eq_true, if_false]
  rw [hlines]
  rfl

end Machine

/-- A function with `n` parameters that does nothing. -/
def wideDecl (n : Nat) : FnDecl where
  name := "wide"
  params := replicate n { name := "p", type := .named ⟨["i8"]⟩ {} }
  body := some []

def wideTree (n : Nat) : Tree where
  body := [.fn (wideDecl n)]

/-- Functions that are added to `c` go to the type `program`, the first after those of the platform, and `i8` is a
type there. -/
@[mk_iff]
structure Context.Hosts (c c' : Context) (platform : List TypeDef) (program : TypeDef) (i8 : TypeId) : Prop where
  programType : programType c = (⟨platform.length⟩, c')
  defs : c'.types.defs = platform ++ [program]
  external : ∀ d ∈ platform, d.origin = .external
  origin : program.origin = .defined
  methods : program.methods = []
  parameter : parameter .global c' { name := "p", type := .named ⟨["i8"]⟩ {} } =
    ({ name := "p", type := some i8 }, c')
  clean : c'.diagnostics = []
  entryPoint : c'.assembly.entryPoint = none

namespace Context.Hosts
variable {c c' : Context} {platform : List TypeDef} {program : TypeDef} {i8 : TypeId}
  (h : c.Hosts c' platform program i8) (n : Nat)
include h

theorem get_program : c'.types.get ⟨platform.length⟩ = program := by
  unfold TypeTable.get
  rw [h.defs]
  simp

theorem method_eq : ∃ m : Method, method .global ⟨platform.length⟩ c' (wideDecl n) "wide" true = (m, c') ∧
    m.params.length = n ∧ m.isStatic = true := by
  have hparams := Context.traverse_replicate h.parameter n
  unfold Lowering.method wideDecl
  simp only [returnType, hparams, Context.attributes, Context.traverse, Prod.mk.injEq, and_true]
  exact ⟨_, rfl, length_replicate, rfl⟩

theorem addFunction_eq : ∃ m : Method, m.params.length = n ∧ m.isStatic = true ∧
    addFunction { context := c } .global (wideDecl n) =
      { context := c'.withTypes (c'.types.addMethod ⟨platform.length⟩ m).2
        queue := [{ method := ⟨⟨platform.length⟩, 0⟩, module := .global, body := [] }] } := by
  obtain ⟨m, hmethod, hcount, hstatic⟩ := h.method_eq n
  refine ⟨m, hcount, hstatic, ?_⟩
  have hname : (wideDecl n).name = "wide" := rfl
  unfold Lowering.addFunction Lowering.addMethod
  simp only [h.programType, withContext, hname, String.reduceEq, if_false, hmethod, h.get_program,
    h.methods, List.find?_nil, TypeTable.addMethod, List.length_nil]
  rw [if_neg fun hentry => absurd hentry.1 (by decide)]
  rfl

theorem lower_eq : ∃ (m : Method) (g : FlowGraph), m.params.length = n ∧ m.isStatic = true ∧ m.body = some g ∧
    (c.lowerDeclarations [wideTree n]).context.lowerBodies (c.lowerDeclarations [wideTree n]).queue =
      c'.withTypes { defs := platform ++ [{ program with methods := [m] }] } := by
  obtain ⟨m, hcount, hstatic, hadd⟩ := h.addFunction_eq n
  refine ⟨{ m with body := some FlowGraph.empty.close }, FlowGraph.empty.close, hcount, hstatic, rfl, ?_⟩
  change (addFunction { context := c } .global (wideDecl n)).context.lowerBodies
    (addFunction { context := c } .global (wideDecl n)).queue = _
  rw [hadd]
  refine congrArg c'.withTypes ?_
  change TypeTable.setBody (TypeTable.addMethod _ _ _).2 _ _ = _
  unfold TypeTable.setBody TypeTable.addMethod TypeTable.modify
  dsimp only
  rw [h.defs, modify_length_append, modify_length_append, h.methods]
  rfl

omit n in
theorem emit_eq {m : Method} {g : FlowGraph} (hcount : m.params.length % Machine.MethodScope.countSize = 65535)
    (hstatic : m.isStatic = true) (hbody : m.body = some g) :
    Target.emit .machine (c'.withTypes { defs := platform ++ [{ program with methods := [m] }] }).assembly =
      .error (.defect .overflow) := by
  let t : TypeTable := { defs := platform ++ [{ program with methods := [m] }] }
  have hmethods : definedMethods t = [⟨⟨platform.length⟩, 0⟩] :=
    definedMethods_append h.external h.origin rfl
  have hmethod : t.method ⟨⟨platform.length⟩, 0⟩ = m := by
    simp [t, TypeTable.method, TypeTable.get]
  have hlines : methodLines t [] ⟨⟨platform.length⟩, 0⟩ = .error (.defect .overflow) := by
    rw [← hmethod] at hstatic hbody hcount
    exact methodLines_of_overflow [] hstatic hbody hcount
  have hstart : (c'.withTypes t).assembly.entryPoint = none := h.entryPoint
  change (Assembly.machineText (c'.withTypes t).assembly).map Artifact.text = _
  unfold Assembly.machineText Assembly.machineLines startLines
  rw [hstart]
  change ((methodsLines t [] (definedMethods t) >>= _).map _).map _ = _
  rw [hmethods]
  unfold methodsLines
  rw [hlines]
  rfl

end Context.Hosts

namespace Compilation

theorem lowered_context (trees : List Tree) (options : Options) : (lowered trees options).context =
      ((start [] options).context.lowerDeclarations trees).context.lowerBodies
        ((start [] options).context.lowerDeclarations trees).queue := rfl

end Compilation

namespace Session

theorem hosts_machine : ∃ c' platform program i8,
    (Compilation.start [] { target := .machine }).context.Hosts c' platform program i8 :=
  ⟨(programType (Compilation.start [] { target := .machine }).context).2,
    (Target.install .machine Platform.types).defs,
    (programType (Compilation.start [] { target := .machine }).context).2.types.get ⟨40⟩, ⟨6⟩,
    (Context.hosts_iff _ _ _ _ _).mpr (by decide +kernel)⟩

theorem emission_wideTree {n : Nat} (hn : n % Machine.MethodScope.countSize = 65535) :
    (lowered [wideTree n] { target := .machine }).hasErrors = false ∧
      emission [wideTree n] { target := .machine } = .error (.defect .overflow) := by
  obtain ⟨c', platform, program, i8, hhosts⟩ := hosts_machine
  obtain ⟨m, g, hcount, hstatic, hbody, hlowered⟩ := hhosts.lower_eq n
  rw [← lowered_context] at hlowered
  unfold emission hasErrors diagnostics assembly
  rw [hlowered]
  rw [← hcount] at hn
  exact ⟨congrArg Diagnostic.hasErrors hhosts.clean, hhosts.emit_eq hn hstatic hbody⟩

/-- A whole compilation that breaks off does not leave the session as it was: the trees are lowered. -/
theorem broken_compile_keeps_lowering :
    (start [wideTree 65535] { target := .machine }).compilation.stage = .unstarted ∧
      ((start [wideTree 65535] { target := .machine }).perform .compile).1 = .broken (.defect .overflow) ∧
      ((start [wideTree 65535] { target := .machine }).perform .compile).2.compilation.stage =
        .bodiesLowered := by
  obtain ⟨hclean, hdefect⟩ := emission_wideTree (n := 65535) rfl
  rw [perform_compile_start hclean, hdefect]
  exact ⟨rfl, rfl, rfl⟩

end Session

end TreeCompiler
