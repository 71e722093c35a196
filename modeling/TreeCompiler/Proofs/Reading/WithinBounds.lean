import TreeCompiler.Proofs.Lowering.CheckedBodies
import TreeCompiler.Proofs.Reading.Machine

/-!
# Programs within bounds

Trees are lowered, shown and emitted without following a handle that leads nowhere, whatever errors are found
in them. A list that is read past its end would show in one of two ways: where the read is checked, as a
defect; where it is not, as a difference once there is something past the end.

* `Assembly.Bounded.readsWithin` : so it is if all handles lead somewhere.
-/

namespace TreeCompiler

/-! ## Assemblies -/

theorem Instruction.Bounded.check_eq {t : TypeTable} {g : FlowGraph} {i : Instruction} (h : i.Bounded t g) :
    i.check t g = .ok () := by
  have hrefers := h.refers
  have hcallee : ∀ m, t.HasMethod m → (some m).mapM t.methodEntry = .ok (some (t.method m)) := by
    intro m hm
    rw [Option.mapM_some, hm.methodEntry_eq]
    rfl
  cases i with
  | loadLocal b => exact Checked.bind_ok rfl (Checked.bind_ok (FlowGraph.HasBinding.paramEntry_eq hrefers) rfl)
  | call m args | newObject m args => exact Checked.bind_ok (hcallee m hrefers) rfl
  | _ => rfl

theorem Judgement.Alike.exceptMap {α β : Type} {x y : Except EmitError α} (h : within.Alike x y) (f : α → β) :
    within.Alike (x.map f) (y.map f) := by
  obtain ⟨rfl, hfine⟩ := h
  refine ⟨rfl, ?_⟩
  cases x with
  | ok a => exact trivial
  | error e => exact hfine

namespace Assembly

/-- The text of an assembly and what targets emit for it read nothing past the end of a list: no check of a
handle fails, and types that are put after those of the assembly are not noticed. -/
structure ReadsWithin (a : Assembly) : Prop where
  text : a.checkedText = .ok a.text
  instructions : ∀ d ∈ a.types.defs, ∀ m ∈ d.methods, ∀ g, m.body = some g → ∀ i ∈ g.instructions,
    i.check a.types g = .ok ()
  emit : ∀ (target : Target) (length index : Nat),
    target.emit a ≠ .error (.defect (.outOfBounds length index))
  more : ∀ extra : List TypeDef, (∀ d ∈ extra, d.origin = .external) →
    (a.withTypes { defs := a.types.defs ++ extra }).text = a.text ∧
      ∀ target : Target, target.emit (a.withTypes { defs := a.types.defs ++ extra }) = target.emit a

namespace Bounded
variable {a : Assembly} (ha : a.Bounded) (hcore : a.types.HasCore)
include ha hcore

theorem alike_emit {types : TypeTable} (h : a.types.ReadsAs types) (target : Target) :
    Judgement.within.Alike (target.emit (a.withTypes types)) (target.emit a) := by
  cases target with
  | managed => exact (ha.alike_image hcore h).exceptMap _
  | machine => exact ((ha.alike_machineLines h hcore).exceptMap _).exceptMap _

theorem readsWithin : a.ReadsWithin where
  text := ha.checkedText_eq
  instructions d hd m hm g hg i hi := ((((ha.types d hd).methods m hm).body g hg).instructions i hi).check_eq
  emit target length index heq := by
    have hfine := (ha.alike_emit hcore a.types.readsAs_gist target).fine
    rw [heq] at hfine
    exact hfine length index rfl
  more extra hextra := by
    have hreads := TypeTable.readsAs_append a.types hextra
    exact ⟨ha.text_eq hreads (a.types.defined_append hextra), fun target => (ha.alike_emit hcore hreads target).eq⟩

end Bounded

end Assembly

/-! ## Trees -/

namespace Compilation
variable (trees : List Tree) (options : Options) {c : Context}

theorem hasCore_of_run (h : Run options (start trees options).context c) : c.types.HasCore := by
  have hgrounded := (sound_of_run trees options h).grounded
  obtain ⟨value, hvalue, -⟩ := hgrounded.roots "ValueType" (by decide)
  have hframework : ((platform options).lookup Platform.targetFrameworkName).isSome = true := by
    unfold platform
    cases options.target <;> decide +kernel
  obtain ⟨framework, hframework⟩ := Option.isSome_iff_exists.mp hframework
  refine ⟨hgrounded.primitives, ?_, ?_⟩
  · rw [hvalue]
    rfl
  · rw [(keeps_of_run trees options h).lookup hframework]
    rfl

theorem readsWithin_of_visits (h : Visits trees options c) : c.assembly.ReadsWithin := by
  have hc := bounded_of_visits trees options h
  have hcore := hasCore_of_run trees options (run_of_visits trees options h).1
  exact Assembly.Bounded.readsWithin ⟨hc.types, hc.entry⟩ hcore

theorem visits_lowered : Visits trees options (lowered trees options).context :=
  .completing (declared trees options).queue [] (List.append_nil _).symm

/-- In every state of the lowering of trees, and so after each of its passes, every handle leads somewhere: to
a type, a method, a field, a variable, an instruction or a block that is there. Lowering with a check of every
handle that it follows is lowering, and in no state does the text or what a target emits read past an end. -/
theorem handles_in_bounds :
    (∀ c, Visits trees options c → c.Bounded ∧ c.assembly.ReadsWithin) ∧
      (declared trees options).Bounded ∧ (lowered trees options).context.Bounded ∧
      Checked.lowered trees options = .ok (lowered trees options) ∧
      (lowered trees options).assembly.ReadsWithin := by
  refine ⟨fun c hc => ⟨bounded_of_visits trees options hc, readsWithin_of_visits trees options hc⟩,
    bounded_declared trees options, bounded_lowered trees options, Checked.lowered_eq trees options, ?_⟩
  exact readsWithin_of_visits trees options (visits_lowered trees options)

end Compilation

end TreeCompiler
