import TreeCompiler.Proofs.FlowGraph.Building
import TreeCompiler.Machine.Program

/-!
# Single assignment

In a graph of one block every result is made once, before it is used, and so is every variable. The body can be
compiled only if each of them has a known type.

* `FlowGraph.Typed arity t g` : all instructions and variables of the only block of `g` are typed.
-/

namespace TreeCompiler

open List Instruction

namespace FlowGraph
variable {id : InstrId} {i : Instruction} {g : FlowGraph} {b : BindingId} {m : Method}

/-- The instructions make the value `id`. -/
def Defines (is : List Instruction) (id : InstrId) : Prop :=
  ∃ i, is[id.index]? = some i ∧ i.isValue = true

theorem Defines.mono {is js : List Instruction} (h : Defines is id) (hjs : is <+: js) : Defines js id := by
  obtain ⟨i, hi, hvalue⟩ := h
  obtain ⟨rest, rfl⟩ := hjs
  refine ⟨i, ?_, hvalue⟩
  rw [List.getElem?_append_left (List.getElem?_eq_some_iff.mp hi).1, hi]

theorem defines_concat (is : List Instruction) (h : i.isValue = true) : Defines (is ++ [i]) ⟨is.length⟩ :=
  ⟨i, getElem?_concat_length, h⟩

/-- One block whose variables are those that its instructions declare, in order, and whose instructions
and end refer to values that are made before. -/
structure Assigned (g : FlowGraph) : Prop where
  blocks : g.blocks = [g.block .entry]
  declared : g.instructions.filterMap declared? =
    (range (g.block .entry).params.length).map (BindingId.mk .entry)
  operands : ∀ done i rest, g.instructions = done ++ i :: rest → ∀ a ∈ i.operands, Defines done a
  returned : ∀ v, (g.block .entry).flow = .ret (some v) → Defines g.instructions v

namespace Assigned
variable {g : FlowGraph} {i : Instruction}

theorem empty : empty.Assigned where
  blocks := rfl
  declared := rfl
  operands := fun done _ _ h => by cases done <;> cases h
  returned := fun _ h => by cases h

variable (h : g.Assigned)
include h

theorem orderly : g.Orderly :=
  ⟨h.blocks, h.declared⟩

/-- An instruction that declares nothing is appended after its operands. -/
theorem append (hnone : i.declared? = none) (hi : ∀ a ∈ i.operands, Defines g.instructions a) :
    (g.append .entry i).2.Assigned := by
  refine { h.orderly.append hnone with operands := forall_split_concat h.operands hi, returned := fun v hv => ?_ }
  rw [block_append h.blocks] at hv
  exact (h.returned v hv).mono (prefix_append _ _)

/-- A new variable is declared, after its initial value. -/
theorem declare (name : String) (type : Option TypeId) (init : Option InstrId)
    (hinit : ∀ a, init = some a → Defines g.instructions a) : ((g.addParam .entry name type).2.append .entry
      (.alloca (g.addParam .entry name type).1 type init)).2.Assigned := by
  have hdeclared := h.orderly.declare name type init
  refine ⟨hdeclared.blocks, hdeclared.declared,
    forall_split_concat h.operands fun a ha => hinit a (Option.mem_toList.mp ha), fun v hv => ?_⟩
  rw [block_append (single_addParam h.blocks name type), block_addParam h.blocks] at hv
  exact (h.returned v hv).mono (prefix_append _ _)

/-- The block is ended; a value that is returned has been made. -/
theorem setFlow {flow : Flow} (hflow : ∀ v, flow = .ret (some v) → Defines g.instructions v) :
    (g.setFlow .entry flow).Assigned := by
  refine { h.orderly.setFlow flow with operands := h.operands, returned := fun v hv => ?_ }
  rw [block_setFlow h.blocks] at hv
  exact hflow v hv

theorem isTerminated_setFlow (flow : Flow) : (g.setFlow .entry flow).isTerminated .entry = true :=
  congrArg Block.isTerminated (block_setFlow h.blocks flow)

end Assigned

structure Finished (g : FlowGraph) : Prop extends g.Assigned where
  terminated : g.isTerminated .entry = true

theorem Assigned.close (h : g.Assigned) : g.close.Finished := by
  have hentry := block_close h.blocks
  refine ⟨⟨single_close h.blocks, ?_, h.operands, fun v hv => ?_⟩, congrArg Block.isTerminated hentry⟩
  · rw [hentry]
    exact h.declared
  · rw [hentry] at hv
    exact h.returned v hv

/-! ## Finished bodies -/

/-- A body of the method `m` in which every value and every variable is made once, before it is used. -/
structure SingleAssignment (m : Method) (g : FlowGraph) : Prop where
  blocks : g.blocks.length = 1
  terminated : g.isTerminated .entry = true
  numbered : (g.block .entry).instructions = (range g.instructionCount).map InstrId.mk
  operands : ∀ id i, g.instruction? id = some i → ∀ a ∈ i.operands,
    a.index < id.index ∧ ∃ j, g.instruction? a = some j ∧ j.isValue = true
  returned : ∀ v, (g.block .entry).flow = .ret (some v) →
    ∃ j, g.instruction? v = some j ∧ j.isValue = true
  params : ∀ id n, g.instruction? id = some (.loadArg (.param n)) → n < m.params.length
  receiver : ∀ id, g.instruction? id = some (.loadArg .this) → m.isStatic = false
  locals : ∀ id b, g.instruction? id = some (.loadLocal b) → ∃ a : InstrId, a.index < id.index ∧
    ∃ type init, g.instruction? a = some (.alloca b type init)
  bindings : ∀ b, (∃ p, g.paramEntry b = .ok p) ↔
    ∃ id type init, g.instruction? id = some (.alloca b type init)
  once : ∀ b id id' type type' init init', g.instruction? id = some (.alloca b type init) →
    g.instruction? id' = some (.alloca b type' init') → id = id'

theorem declared?_eq_some_iff : i.declared? = some b ↔ ∃ type init, i = .alloca b type init := by
  constructor
  · intro h
    cases i with
    | alloca b' type init =>
      cases h
      exact ⟨type, init, rfl⟩
    | _ => cases h
  · rintro ⟨type, init, rfl⟩
    rfl

theorem split_of_instruction? (h : g.instruction? id = some i) :
    g.instructions = g.instructions.take id.index ++ i :: g.instructions.drop (id.index + 1) := by
  obtain ⟨hlt, hi⟩ := List.getElem?_eq_some_iff.mp h
  rw [← hi, ← drop_eq_getElem_cons hlt, take_append_drop]

theorem instruction?_of_take {n : Nat} {a : InstrId} (h : (g.instructions.take n)[a.index]? = some i) :
    a.index < n ∧ g.instruction? a = some i := by
  rw [getElem?_take] at h
  split at h
  next hlt => exact ⟨hlt, h⟩
  next => cases h

theorem Assigned.exists_paramEntry (h : g.Assigned) (hb : b ∈ g.instructions.filterMap declared?) :
    ∃ p ∈ (g.block .entry).params, g.paramEntry b = .ok p := by
  rw [h.declared, mem_map] at hb
  obtain ⟨index, hindex, rfl⟩ := hb
  have hlt := mem_range.mp hindex
  refine ⟨(g.block .entry).params[index], getElem_mem hlt, ?_⟩
  unfold paramEntry
  rw [h.blocks]
  exact Defect.entry_eq_ok_iff.mpr (getElem?_eq_getElem hlt)

theorem Assigned.paramEntry_iff (h : g.Assigned) (b : BindingId) :
    (∃ p, g.paramEntry b = .ok p) ↔ b ∈ g.instructions.filterMap declared? := by
  constructor
  · rintro ⟨p, hp⟩
    unfold paramEntry at hp
    rw [h.blocks] at hp
    rw [h.declared, mem_map]
    obtain ⟨⟨block⟩, index⟩ := b
    cases block with
    | succ n => cases hp
    | zero =>
      have hfound := Defect.entry_eq_ok_iff.mp hp
      exact ⟨index, List.mem_range.mpr (List.getElem?_eq_some_iff.mp hfound).1, rfl⟩
  · intro hb
    obtain ⟨p, -, hp⟩ := h.exists_paramEntry hb
    exact ⟨p, hp⟩

theorem mem_declared_iff {is : List Instruction} : b ∈ is.filterMap declared? ↔
      ∃ (k : Nat) (type : Option TypeId) (init : Option InstrId), is[k]? = some (.alloca b type init) := by
  rw [mem_filterMap]
  constructor
  · rintro ⟨i, hi, hb⟩
    obtain ⟨k, hk⟩ := mem_iff_getElem?.mp hi
    obtain ⟨type, init, rfl⟩ := declared?_eq_some_iff.mp hb
    exact ⟨k, type, init, hk⟩
  · rintro ⟨k, type, init, hk⟩
    exact ⟨_, mem_of_getElem? hk, rfl⟩

/-- A straight graph in which operands are made before they are used is in single-assignment form. -/
theorem singleAssignment_of_finished {t : TypeTable} (hstraight : g.Straight t m) (hfinished : g.Finished) :
    g.SingleAssignment m := by
  have hassigned := hfinished.toAssigned
  have hallowed : ∀ id i, g.instruction? id = some i →
      i.Allowed t m ((g.instructions.take id.index).filterMap declared?) :=
    fun id i hi => hstraight.allowed _ _ _ (split_of_instruction? hi)
  -- a second declaration of a variable would not be allowed after the first
  have horder : ∀ b id id' type type' init init', g.instruction? id = some (.alloca b type init) →
      g.instruction? id' = some (.alloca b type' init') → ¬ id.index < id'.index := by
    intro b id id' type type' init init' hid hid' hlt
    refine hallowed id' _ hid' (mem_declared_iff.mpr ⟨id.index, type, init, ?_⟩)
    rw [getElem?_take, if_pos hlt]
    exact hid
  constructor
  · rw [hassigned.blocks]
    rfl
  · exact hfinished.terminated
  · exact hstraight.numbered
  · intro id i hi a ha
    obtain ⟨j, hj, hvalue⟩ := hassigned.operands _ _ _ (split_of_instruction? hi) a ha
    obtain ⟨hlt, hfound⟩ := instruction?_of_take hj
    exact ⟨hlt, j, hfound, hvalue⟩
  · exact hassigned.returned
  · exact fun id n hi => hallowed id _ hi
  · exact fun id hi => hallowed id _ hi
  · intro id b hi
    obtain ⟨k, type, init, hk⟩ := mem_declared_iff.mp (hallowed id _ hi)
    obtain ⟨hlt, hfound⟩ := instruction?_of_take (a := ⟨k⟩) hk
    exact ⟨⟨k⟩, hlt, type, init, hfound⟩
  · intro b
    rw [hassigned.paramEntry_iff, mem_declared_iff]
    exact ⟨fun ⟨k, h⟩ => ⟨⟨k⟩, h⟩, fun ⟨id, h⟩ => ⟨id.index, h⟩⟩
  · intro b id id' type type' init init' hid hid'
    have hle := horder b id id' type type' init init' hid hid'
    have hge := horder b id' id type' type init' init hid' hid
    exact congrArg InstrId.mk (show id.index = id'.index by omega)

/-! ## Walks to constants -/

/-- The walk from a value along loads ends with an answer: a constant, or that there is none. -/
inductive Traces (g : FlowGraph) : InstrId → Option Constant → Prop where
  | constant {id : InstrId} : g.instruction? id = some (.constant value type) → Traces g id (some value)
  | load {id : InstrId} : g.instruction? id = some (.load type source) → Traces g source answer → Traces g id answer
  | stop {id : InstrId} : (∀ value type, g.instruction? id ≠ some (.constant value type)) →
      (∀ type source, g.instruction? id ≠ some (.load type source)) → Traces g id none

/-- Loads lead to earlier values, so there are fewer of them than values. -/
theorem SingleAssignment.traces_constantOf (h : g.SingleAssignment m) (fuel : Nat) (id : InstrId)
    (hfuel : id.index < fuel) : g.Traces id (Machine.MethodScope.constantOf g fuel id) := by
  induction fuel generalizing id with
  | zero => omega
  | succ fuel ih =>
    rw [Machine.MethodScope.constantOf]
    split
    next value type hi => exact .constant hi
    next type source hi =>
      have hlt := (h.operands id _ hi source mem_cons_self).1
      exact .load hi (ih source (by omega))
    next hconstant hload => exact .stop (fun value type => hconstant value type) fun type source => hload type source

end FlowGraph

/-! ## Types of values -/

/-- All that the code of an instruction takes from it is known. Methods have numbers of parameters of
which `arity` holds. -/
def Instruction.Typed (arity : Nat → Prop) (t : TypeTable) : Instruction → Prop
  | .constant _ type | .load type _ | .binary _ type _ _ => type.isSome = true
  | .call _ args | .newObject _ args => args.length ≤ 1 ∨ arity args.length
  | .storeField f _ _ => f.index < (t.get f.type).fields.length
  | _ => True

def TypeTable.KeepsFields (t t' : TypeTable) : Prop :=
  ∀ id, (t.get id).fields <+: (t'.get id).fields

theorem Instruction.Typed.mono {arity : Nat → Prop} {t t' : TypeTable} {i : Instruction}
    (h : i.Typed arity t) (hfields : t.KeepsFields t') : i.Typed arity t' := by
  cases i with
  | storeField f target value => exact Nat.lt_of_lt_of_le h (hfields f.type).length_le
  | _ => exact h

namespace FlowGraph

/-- Everything in the only block is typed. -/
structure Typed (arity : Nat → Prop) (t : TypeTable) (g : FlowGraph) : Prop where
  instructions : ∀ i ∈ g.instructions, i.Typed arity t
  params : ∀ p ∈ (g.block .entry).params, p.type.isSome = true

namespace Typed
variable {arity : Nat → Prop} {t t' : TypeTable} {g : FlowGraph}

theorem empty (arity : Nat → Prop) (t : TypeTable) : FlowGraph.empty.Typed arity t :=
  ⟨fun _ h => (not_mem_nil h).elim, fun _ h => (not_mem_nil h).elim⟩

variable (h : g.Typed arity t)
include h

theorem mono (hfields : t.KeepsFields t') : g.Typed arity t' :=
  ⟨fun i hi => (h.instructions i hi).mono hfields, h.params⟩

variable (hblocks : g.blocks = [g.block .entry])
include hblocks

theorem append {i : Instruction} (hi : i.Typed arity t) : (g.append .entry i).2.Typed arity t := by
  refine ⟨forall_mem_concat h.instructions hi, ?_⟩
  rw [block_append hblocks]
  exact h.params

/-- A new variable of a known type is declared. -/
theorem declare (name : String) {type : Option TypeId} (htype : type.isSome = true) (init : Option InstrId) :
    ((g.addParam .entry name type).2.append .entry
      (.alloca (g.addParam .entry name type).1 type init)).2.Typed arity t := by
  have hdeclared : (g.addParam .entry name type).2.Typed arity t := by
    refine ⟨h.instructions, ?_⟩
    rw [block_addParam hblocks]
    exact forall_mem_concat h.params htype
  exact hdeclared.append (single_addParam hblocks name type) trivial

theorem setFlow (flow : Flow) : (g.setFlow .entry flow).Typed arity t := by
  refine ⟨h.instructions, ?_⟩
  rw [block_setFlow hblocks]
  exact h.params

theorem close : g.close.Typed arity t := by
  refine ⟨h.instructions, ?_⟩
  rw [block_close hblocks]
  exact h.params

end Typed

end FlowGraph

end TreeCompiler
