import TreeCompiler.Proofs.Lowering.Bodies
import TreeCompiler.Proofs.Machine.Simulation

/-!
# Lowered programs run on the register machine as their graphs say
-/

namespace TreeCompiler

open Compilation (lowered lawful_lowered)
open Machine

/-- The lines of a method, which are written after the texts `first`, do what its graph does with the
arguments `params`. -/
structure RegisterMachine.Refines {W : Type} (m : RegisterMachine W) (e : MethodScope)
    (first : List String) (lines : List Line) (params : List W) : Prop where
  /-- Run with the arguments in the registers from 1 on, the lines stop, and in one way only: after the
  calls of the graph, with its result, and with the stack as it was. -/
  stops : ∀ registers, (∀ i v, params[i]? = some v → registers (i + 1) = v) → ∀ object tail stack,
    ∃ o stop,
      (∀ o', e.codeScope.HasOutcome (m.words.interpretation m.reply object) ⟨none, params⟩ o' ↔ o' = o) ∧
      (∀ stop', m.Ends ⟨lines ++ tail, registers, stack, []⟩ stop' ↔ stop' = stop) ∧
      stop.Refines e.types stack o
  /-- Around a call, registers up to the last one that was taken before it stay the same. -/
  restores : ∀ done id callee args rest,
    e.graph.script = done ++ (id, .call callee args) :: rest →
    ∃ w code, e.Part first lines done (id, .call callee args) w code ∧ m.Restores code (e.lastInUse w)
  /-- A text is written as a label, and the text after that label in the data is the same. -/
  texts : ∀ done id s type rest,
    e.graph.script = done ++ (id, .constant (.string s) type) :: rest →
    ∃ w k r note, e.Part first lines done (id, .constant (.string s) type) w
        [.copy (.label (stringLabel k)) r note] ∧ textAt (stringLabel k) m.data = some s

end TreeCompiler
