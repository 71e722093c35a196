import TreeCompiler.Compilation
import TreeCompiler.Proofs.Lowering.Filling
import TreeCompiler.Proofs.Lowering.Moves

/-!
# Bodies are straight

Every body that lowering makes is straight, and all that lowering it does to the table is to register types.

* `Scope.Move.built` : a graph that was built well for the method of the scope stays so.
-/

namespace TreeCompiler

open FlowGraph TypeTable Context List
open Relation (ReflTransGen)

namespace Scope
variable {P : QualifiedName → Method → Prop} {e : Scope} {m : Method} {s s' : BodyState} {ctor : MethodRef}
  {i : Instruction}

structure Serves (e : Scope) (m : Method) : Prop where
  params : e.params = m.params
  isStatic : e.isStatic = m.isStatic

theorem Admits.allowed (he : e.Serves m) (hs : s.graph.Built s.types m) (h : e.Admits s i) :
    i.Allowed s.types m (s.graph.instructions.filterMap Instruction.declared?) := by
  cases i with
  | loadArg arg =>
    cases arg with
    | this => exact he.isStatic.symm.trans h
    | param n => exact h.trans_eq (congrArg length he.params)
  | loadLocal b => exact hs.declared.symm ▸ h
  | constant value type | load type source | binary op type left right => trivial
  | _ => exact h.elim

theorem Admits.plain (h : e.Admits s i) : i.declared? = none ∧ i.makesObject = false := by
  cases i <;> first | exact ⟨rfl, rfl⟩ | exact h.elim

theorem Move.built (he : e.Serves m) (h : e.Move P s s') (hs : s.graph.Built s.types m) :
    s'.graph.Built s'.types m := by
  cases h with
  | compute h =>
    cases h with
    | report => exact hs
    | value hi => exact hs.append (hi.allowed he hs) hi.plain.1 hi.plain.2
  | look hlook => exact hs.mono hlook.extends.evolves.keeps rfl
  | @call _ callee values hentry hlength =>
    refine hs.append (i := .call _ values) ⟨callee, hentry, hlength.symm.le, ?_⟩ rfl rfl
    rw [hlength]
    exact Nat.le_add_right _ _
  | declare name => exact hs.declare name _ _
  | close hflow => exact hs.setFlow hflow

theorem Moves.built (he : e.Serves m) (h : e.Moves P s s') (hs : s.graph.Built s.types m) :
    s'.graph.Built s'.types m := by
  induction h with
  | refl => exact hs
  | tail _ hlast ih => exact hlast.built he ih

theorem methodEntry_of_exceptionCtor? {t : TypeTable} (h : exceptionCtor? t = some ctor) :
    ∃ c, t.methodEntry ctor = .ok c ∧ 1 = c.params.length := by
  obtain ⟨exception, -, hfound⟩ := Option.bind_eq_some_iff.mp h
  obtain ⟨c, hc, -, hparams⟩ := methodEntry_of_findMethod? hfound
  exact ⟨c, hc, hparams.symm⟩

/-- The body is built well so far, or it has ended with an object that is thrown. -/
def Rests (m : Method) (s : BodyState) : Prop :=
  s.graph.Built s.types m ∨
    s.graph.isTerminated .entry ∧ s.graph.Straight s.types m ∧ s.graph.ThrowsObjects

theorem rests_raise {message : InstrId} (hs : s.graph.Built s.types m) (hctor : exceptionCtor? s.types = some ctor)
    (hmessage : Defines s.graph.instructions message) : Rests m (s.raise ctor message) := by
  have hstraight := hs.straight.append (i := .newObject ctor [message]) (methodEntry_of_exceptionCtor? hctor)
  refine Or.inr ⟨congrArg Block.isTerminated (block_setFlow hstraight.blocks _), hstraight.setFlow nofun, ?_⟩
  exact throwsObjects_append hs.clear hstraight (forall_mem_singleton.mpr hmessage)

theorem rests_lowerStmt (he : e.Serves m) (hs : s.graph.Built s.types m) (stmt : Stmt) :
    Rests m (e.lowerStmt s stmt) := by
  have hlowers := lowers_lowerStmt s (callsWithin_anyCall e.module stmt)
  generalize e.lowerStmt s stmt = after at hlowers
  cases hlowers with
  | moves hmoves => exact Or.inl (hmoves.built he hs)
  | raise hmoves hctor hmessage => exact rests_raise (hmoves.built he hs) hctor hmessage

/-- Nothing comes after a statement that ends the block. -/
theorem rests_lowerStmts (he : e.Serves m) (hs : Rests m s) (stmts : List Stmt) : Rests m (e.lowerStmts s stmts) := by
  induction stmts generalizing s with
  | nil => exact hs
  | cons stmt stmts ih =>
    unfold lowerStmts
    split
    next => exact hs
    next hopen =>
      rcases hs with hbuilt | ⟨hended, -⟩
      · exact ih (rests_lowerStmt he hbuilt stmt)
      · exact absurd hended hopen

end Scope

namespace Context
variable (c : Context)

/-- The body of a method is straight, so giving it to the method is an edit. -/
theorem evolves_lowerBody (p : PendingBody) : c.types.Evolves (c.lowerBody p).types := by
  have htypes := ((c.scopeOf p).continues_lowerStmts { context := c } p.body).types
  have hserves : (c.scopeOf p).Serves (c.types.method p.method) := ⟨rfl, rfl⟩
  obtain ⟨hstraight, hthrows⟩ : Straight _ _ _ ∧ ThrowsObjects _ := by
    rcases Scope.rests_lowerStmts hserves (s := { context := c }) (Or.inl (.empty _ _)) p.body with
      hbuilt | ⟨-, hbody⟩
    · exact hbuilt.body
    · exact hbody
  refine htypes.evolves.tail (.setBody p.method _ ?_ (hthrows.close hstraight))
  rw [htypes.method_eq]
  exact hstraight.close

theorem evolves_lowerBodies (queue : List PendingBody) : c.types.Evolves (c.lowerBodies queue).types :=
  foldl_rel (fun _ => .refl) .trans types queue fun c' _ p _ => evolves_lowerBody c' p

/-- What new types keep, and bodies for methods, all bodies keep. -/
theorem invariant_lowerBodies {Q : TypeTable → Prop} (hregister : ∀ t t', Registers t t' → Q t → Q t')
    (hbody : ∀ t m g, Q t → Q (setBody t m g)) {c : Context} (h : Q c.types) (queue : List PendingBody) :
    Q (c.lowerBodies queue).types := by
  refine foldlRecOn (motive := fun c' : Context => Q c'.types) queue _ h fun c' hc' p _ => ?_
  have hextends := ((c'.scopeOf p).continues_lowerStmts { context := c' } p.body).types
  have hkept : ∀ t, c'.types.Extends t → Q t := by
    intro t ht
    induction ht with
    | refl => exact hc'
    | tail _ hlast ih => exact hregister _ _ hlast ih
  exact hbody _ p.method _ (hkept _ hextends)

end Context

namespace Compilation
variable (target : Target)

theorem body_install (m : MethodRef) : ((target.install Platform.types).method m).body = none := by
  have hnone : ∀ d ∈ (target.install Platform.types).defs, ∀ m ∈ d.methods, m.body = none := by
    cases target <;> decide +kernel
  have hmethods := forall_get (P := fun d => ∀ m ∈ d.methods, m.body = none)
    (fun _ hm => (not_mem_nil hm).elim) hnone m.type
  rw [method, getD_eq_getElem?_getD]
  cases hfound : ((target.install Platform.types).get m.type).methods[m.index]? with
  | none => rfl
  | some method => exact hmethods method (mem_of_getElem? hfound)

theorem lawful_install : (target.install Platform.types).Lawful := by
  have hobject : (target.install Platform.types).HasObject :=
    ⟨⟨⟨0⟩, 0⟩, Platform.constructor [], by cases target <;> decide +kernel⟩
  refine ⟨hobject, fun m g hg => ?_⟩
  rw [body_install] at hg
  cases hg

theorem types_start (trees : List Tree) (options : Options) :
    (start trees options).context.types = options.target.install Platform.types := by
  simp only [start, withTypes, Context.start, Assembly.withPlatform, types]

/-- The trees once all declarations are lowered. -/
abbrev declared (trees : List Tree) (options : Options) : Lowering :=
  (start trees options).context.lowerDeclarations trees

/-- All bodies of a lowered program are straight. -/
theorem lawful_lowered (trees : List Tree) (options : Options) : (lowered trees options).assembly.types.Lawful := by
  have hdeclared := (start trees options).context.evolves_lowerDeclarations trees
  have hbodies := evolves_lowerBodies (declared trees options).context (declared trees options).queue
  rw [types_start] at hdeclared
  exact hbodies.lawful (hdeclared.lawful (lawful_install options.target))

end Compilation

end TreeCompiler
