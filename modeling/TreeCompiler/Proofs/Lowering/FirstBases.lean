import TreeCompiler.Proofs.Lowering.Bodies

/-!
# Chains of first bases in a program

Declarations are checked for circular inheritance one base at a time, and only first bases are followed.
-/

namespace TreeCompiler

open Platform
open Relation (TransGen)

namespace TypeTable
variable {t : TypeTable}

def Inherits (t : TypeTable) (type base : TypeId) : Prop :=
  base ∈ (t.get type).bases

theorem acyclic_of_descending (h : ∀ id, ∀ b ∈ (t.get id).bases, b.index < id.index) : t.Acyclic := by
  have hdescends : ∀ {x y : TypeId}, TransGen t.FirstBase x y → y.index < x.index := by
    intro x y hxy
    induction hxy with
    | single hstep => exact h _ _ hstep.mem
    | tail _ hstep ih => exact (h _ _ hstep.mem).trans ih
  exact fun id hcircle => Nat.lt_irrefl _ (hdescends hcircle)

theorem forall_get_of_zipIdx {P : TypeDef → Nat → Prop} (hdefault : ∀ i, P default i)
    (h : ∀ x ∈ t.defs.zipIdx, P x.1 x.2) (id : TypeId) : P (t.get id) id.index := by
  rw [get, List.getD_eq_getElem?_getD]
  cases hd : t.defs[id.index]? with
  | none => exact hdefault _
  | some d => exact h (d, id.index) (List.mem_zipIdx_iff_getElem?.mpr hd)

end TypeTable

namespace Compilation

/-- The tables that programs start from have all primitives, and every base comes before its types. -/
theorem grounded_install (target : Target) : (target.install types).Grounded := by
  have htable : (∀ x ∈ (target.install types).defs.zipIdx, ∀ b ∈ x.1.bases,
        b.index < x.2 ∧ b.index < (target.install types).size ∧
          ((target.install types).get b).isSealed = false) ∧
      (∀ x ∈ TypeTable.rootNames.zipIdx, (target.install types).system? x.1 = some ⟨x.2⟩ ∧
          ((target.install types).get ⟨x.2⟩).isSealed = false ∧
          ((target.install types).get ⟨x.2⟩).origin = .external) ∧
      ((target.install types).get ⟨0⟩).bases = [] ∧
      ∀ p ∈ Primitive.object :: primitives, ((target.install types).primitive? p).isSome = true := by
    cases target <;> decide +kernel
  generalize target.install types = t at htable
  obtain ⟨hdefs, hroots, hobject, hprimitives⟩ := htable
  have hbases : ∀ id, ∀ b ∈ (t.get id).bases, b.index < id.index ∧ b.index < t.size ∧
      (t.get b).isSealed = false :=
    TypeTable.forall_get_of_zipIdx
      (P := fun d i => ∀ b ∈ d.bases, b.index < i ∧ b.index < t.size ∧ (t.get b).isSealed = false)
      (fun _ _ hb => (List.not_mem_nil hb).elim) hdefs
  refine ⟨⟨fun id b hb => (hbases id b hb).2.1, fun id b hb => (hbases id b hb).2.2, ?_, ?_,
    TypeTable.acyclic_of_descending fun id b hb => (hbases id b hb).1⟩, fun p => ?_⟩
  · intro name hname
    obtain ⟨i, hi⟩ := List.mem_iff_getElem?.mp hname
    exact ⟨⟨i⟩, hroots (name, i) (List.mem_zipIdx_iff_getElem?.mpr hi)⟩
  · intro b hb
    rw [(hroots ("Object", 0) List.mem_cons_self).1] at hb
    cases hb
    exact hobject
  · refine hprimitives p ?_
    cases p with
    | int kind => cases kind <;> decide
    | _ => decide

/-- Once all declarations are lowered, no type reaches itself through first bases. -/
theorem acyclic_lowerDeclarations (trees : List Tree) (options : Options) (id : TypeId) :
    ¬ TransGen ((start trees options).context.lowerDeclarations trees).context.types.FirstBase id id := by
  have hstart : (start trees options).context.types.Grounded :=
    types_start trees options ▸ grounded_install options.target
  have hsteps : (start trees options).context.Steps (.upTo fun _ => True) (declared trees options).context :=
    Context.steps_lowerDeclarations hstart fun _ _ _ _ _ _ => trivial
  exact (hsteps.grounded hstart).acyclic id

/-- Interfaces `J`, `I` under `J` and `K`, and `K` under `I`. -/
def circleTree : Tree :=
  let interface (name : String) (bases : List String) : Decl :=
    .type { kind := .interfaceType, name, bases := bases.map fun base => .named ⟨[base]⟩ {} }
  { module := ⟨["Demo"]⟩
    body := [interface "J" [], interface "I" ["J", "K"], interface "K" ["I"]] }

/-- A circle through a second base is not found: `K` is a base of `I` and `I` of `K`. -/
theorem inheritance_circle : ∃ id,
    TransGen ((start [circleTree] {}).context.lowerDeclarations [circleTree]).context.types.Inherits id id ∧
      ((start [circleTree] {}).context.lowerDeclarations [circleTree]).context.diagnostics = [] := by
  generalize hl : (start [circleTree] {}).context.lowerDeclarations [circleTree] = l
  obtain ⟨i, k, hik, hki, hsilent⟩ : ∃ i k : TypeId, k ∈ (l.context.types.get i).bases ∧
      i ∈ (l.context.types.get k).bases ∧ l.context.diagnostics = [] := by
    subst hl
    exact ⟨⟨Platform.types.size + 1⟩, ⟨Platform.types.size + 2⟩, by decide +kernel⟩
  exact ⟨i, .tail (.single hik) hki, hsilent⟩

end Compilation

end TreeCompiler
