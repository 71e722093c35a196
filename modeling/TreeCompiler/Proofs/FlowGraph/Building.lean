import TreeCompiler.Proofs.FlowGraph.Straight
import TreeCompiler.Proofs.TypeTable.Growth

/-!
# Building straight graphs

A graph of one block stays straight while instructions that may stand at its end are appended to it,
while variables are declared, and when its block is ended.
-/

namespace TreeCompiler

open List Instruction

theorem Method.operands_of_header {m m' : Method} (h : m'.header = m.header) : m'.operands = m.operands := by
  rw [operands, operands, params_of_header h, isStatic_of_header h]

/-- What may stand in a graph may stand there in a larger table. -/
theorem Instruction.Allowed.mono {t t' : TypeTable} {m m' : Method} {declared : List BindingId} {i : Instruction}
    (hkeeps : t.Keeps t') (hm : m'.header = m.header) (h : i.Allowed t m declared) : i.Allowed t' m' declared := by
  cases i with
  | loadArg arg =>
    cases arg with
    | this => exact (Method.isStatic_of_header hm).trans h
    | param n =>
      change n < m'.params.length
      rw [Method.params_of_header hm]
      exact h
  | call callee args =>
    obtain ⟨c, hc, hlen⟩ := h
    obtain ⟨c', hc', hheader⟩ := hkeeps.methodEntry hc
    exact ⟨c', hc', Method.params_of_header hheader ▸ hlen.1, Method.operands_of_header hheader ▸ hlen.2⟩
  | newObject ctor args =>
    obtain ⟨c, hc, hlen⟩ := h
    obtain ⟨c', hc', hheader⟩ := hkeeps.methodEntry hc
    exact ⟨c', hc', Method.params_of_header hheader ▸ hlen⟩
  | _ => exact h

namespace FlowGraph
variable {t t' : TypeTable} {m m' : Method} {g : FlowGraph} {i : Instruction}

theorem block_entry_of_blocks {b : Block} (h : g.blocks = [b]) : g.block .entry = b := by
  rw [block, h]
  rfl

/-- What holds of all instructions after those before them holds with one more at the end. -/
theorem forall_split_concat {P : List Instruction → Instruction → Prop} {is : List Instruction}
    (h : ∀ done j rest, is = done ++ j :: rest → P done j) (hi : P is i) (done : List Instruction)
    (j : Instruction) (rest : List Instruction) (hsplit : is ++ [i] = done ++ j :: rest) : P done j := by
  rcases eq_nil_or_concat rest with rfl | ⟨init, last, rfl⟩
  · obtain ⟨rfl, hlast⟩ := append_inj' hsplit rfl
    cases hlast
    exact hi
  · rw [concat_eq_append, ← cons_append, ← append_assoc] at hsplit
    exact h done j init (append_inj' hsplit rfl).1

/-! ## Graphs of one block -/

section OneBlock
variable (h : g.blocks = [g.block .entry]) (f : Block → Block) (name : String) (type : Option TypeId)
include h

theorem blocks_modifyBlock : (g.modifyBlock .entry f).blocks = [f (g.block .entry)] := by
  rw [modifyBlock, h]
  rfl

theorem block_modifyBlock : (g.modifyBlock .entry f).block .entry = f (g.block .entry) :=
  block_entry_of_blocks (blocks_modifyBlock h f)

theorem single_modifyBlock : (g.modifyBlock .entry f).blocks = [(g.modifyBlock .entry f).block .entry] := by
  rw [block_modifyBlock h, blocks_modifyBlock h]

theorem block_append (i : Instruction) : (g.append .entry i).2.block .entry = { g.block .entry with
    instructions := (g.block .entry).instructions ++ [⟨g.instructions.length⟩] } :=
  block_modifyBlock h _

theorem block_addParam : (g.addParam .entry name type).2.block .entry =
    { g.block .entry with params := (g.block .entry).params ++ [⟨name, type⟩] } :=
  block_modifyBlock h _

theorem single_addParam : (g.addParam .entry name type).2.blocks = [(g.addParam .entry name type).2.block .entry] :=
  single_modifyBlock h _

theorem block_setFlow (flow : Flow) :
    (g.setFlow .entry flow).block .entry = { g.block .entry with flow? := some flow } :=
  block_modifyBlock h _

theorem blocks_close : g.close.blocks = [{ g.block .entry with flow? := some (g.block .entry).flow }] := by
  rw [close, h]
  rfl

theorem block_close : g.close.block .entry = { g.block .entry with flow? := some (g.block .entry).flow } :=
  block_entry_of_blocks (blocks_close h)

theorem single_close : g.close.blocks = [g.close.block .entry] := by
  rw [block_close h, blocks_close h]

end OneBlock

/-- One block whose variables are those that the instructions declare, in order. -/
structure Orderly (g : FlowGraph) : Prop where
  blocks : g.blocks = [g.block .entry]
  declared : g.instructions.filterMap declared? =
    (range (g.block .entry).params.length).map (BindingId.mk .entry)

namespace Orderly
variable (h : g.Orderly)
include h

theorem append (hnone : i.declared? = none) : (g.append .entry i).2.Orderly := by
  refine ⟨single_modifyBlock h.blocks _, ?_⟩
  rw [block_append h.blocks]
  change (g.instructions ++ [i]).filterMap declared? = _
  rw [filterMap_append, filterMap_cons_none hnone, h.declared]
  exact append_nil _

theorem declare (name : String) (type : Option TypeId) (init : Option InstrId) :
    ((g.addParam .entry name type).2.append .entry
      (.alloca (g.addParam .entry name type).1 type init)).2.Orderly := by
  have hparam := single_addParam h.blocks name type
  refine ⟨single_modifyBlock hparam _, ?_⟩
  rw [block_append hparam, block_addParam h.blocks]
  change (g.instructions ++ [_]).filterMap declared? = _
  rw [filterMap_append, h.declared]
  change _ = (range (length (_ ++ [_]))).map _
  rw [length_append, length_singleton, range_succ, map_append]
  rfl

theorem setFlow (flow : Flow) : (g.setFlow .entry flow).Orderly := by
  refine ⟨single_modifyBlock h.blocks _, ?_⟩
  rw [block_setFlow h.blocks]
  exact h.declared

end Orderly

/-! ## Straight graphs -/

namespace Straight

theorem empty (t : TypeTable) (m : Method) : empty.Straight t m where
  blocks := rfl
  flow := fun _ h => nomatch h
  numbered := rfl
  allowed := fun done _ _ h => by cases done <;> nomatch h

/-- A straight graph stays straight in a larger table. -/
theorem mono (hkeeps : t.Keeps t') (hm : m'.header = m.header) (h : g.Straight t m) : g.Straight t' m' where
  blocks := h.blocks
  flow := h.flow
  numbered := h.numbered
  allowed done i rest hsplit := (h.allowed done i rest hsplit).mono hkeeps hm

variable (h : g.Straight t m)
include h

theorem modifyBlock (f : Block → Block) (hflow : ∀ target, (f (g.block .entry)).flow ≠ .jump target)
    (hsame : (f (g.block .entry)).instructions = (g.block .entry).instructions) :
    (g.modifyBlock .entry f).Straight t m := by
  refine ⟨single_modifyBlock h.blocks f, ?_, ?_, h.allowed⟩ <;> rw [block_modifyBlock h.blocks]
  · exact hflow
  · rw [hsame]
    exact h.numbered

theorem setFlow {flow : Flow} (hflow : ∀ target, flow ≠ .jump target) : (g.setFlow .entry flow).Straight t m :=
  h.modifyBlock _ hflow rfl

theorem close : g.close.Straight t m := by
  refine ⟨single_close h.blocks, ?_, ?_, h.allowed⟩ <;> rw [block_close h.blocks]
  · exact h.flow
  · exact h.numbered

/-- An instruction that may stand at the end is appended. -/
theorem append (hi : i.Allowed t m (g.instructions.filterMap declared?)) : (g.append .entry i).2.Straight t m := by
  refine ⟨single_modifyBlock h.blocks _, ?_, ?_, forall_split_concat h.allowed hi⟩ <;> rw [block_append h.blocks]
  · exact h.flow
  · have hlength : (g.append .entry i).2.instructions.length = g.instructions.length + 1 :=
      instructionCount_append g .entry i
    rw [hlength, range_succ, map_append, ← h.numbered]
    rfl

end Straight

/-! ## Objects -/

theorem throwsObjects_of_clear (h : ∀ i ∈ g.instructions, i.makesObject = false) : g.ThrowsObjects := by
  intro done i rest hsplit hi
  rw [h i (by rw [hsplit]; simp)] at hi
  nomatch hi

theorem ThrowsObjects.close (h : g.ThrowsObjects) (hstraight : g.Straight t m) : g.close.ThrowsObjects := by
  intro done i rest hsplit hi
  rw [block_close hstraight.blocks]
  exact h done i rest hsplit hi

/-- The first object is made at the end of the block, which is then unreachable. -/
theorem throwsObjects_append (hclear : ∀ i ∈ g.instructions, i.makesObject = false)
    (hstraight : (g.append .entry i).2.Straight t m)
    (hoperands : ∀ id ∈ i.operands, ∃ j, g.instructions[id.index]? = some j ∧ j.isValue = true) :
    ((g.append .entry i).2.setFlow .entry .unreachable).ThrowsObjects := by
  intro done j rest hsplit hj
  change g.instructions ++ [i] = _ at hsplit
  rcases eq_nil_or_concat rest with rfl | ⟨init, last, rfl⟩
  · obtain ⟨rfl, hlast⟩ := append_inj' hsplit rfl
    cases hlast
    exact ⟨rfl, congrArg Block.flow (block_setFlow hstraight.blocks _), hoperands⟩
  · rw [concat_eq_append, ← cons_append, ← append_assoc] at hsplit
    rw [hclear j (by rw [(append_inj' hsplit rfl).1]; simp)] at hj
    nomatch hj

/-! ## Graphs under construction -/

/-- A straight graph that makes no object, with just the variables that its instructions declare, in
order. -/
structure Built (t : TypeTable) (m : Method) (g : FlowGraph) : Prop where
  straight : g.Straight t m
  declared : g.instructions.filterMap declared? =
    (range (g.block .entry).params.length).map (BindingId.mk .entry)
  clear : ∀ i ∈ g.instructions, i.makesObject = false

theorem mem_range_of_findParam? {name : String} {b : BindingId} (h : g.findParam? .entry name = some b) :
    b ∈ (range (g.block .entry).params.length).map (BindingId.mk .entry) := by
  obtain ⟨i, hi, rfl⟩ := Option.map_eq_some_iff.mp h
  have hlt := (findIdx?_eq_some_iff_getElem.mp hi).1
  rw [length_reverse] at hlt
  exact mem_map_of_mem (mem_range.mpr (by omega))

namespace Built
variable {i : Instruction}

theorem empty (t : TypeTable) (m : Method) : empty.Built t m :=
  ⟨.empty t m, rfl, fun _ h => nomatch h⟩

theorem mono (hkeeps : t.Keeps t') (hm : m'.header = m.header) (h : g.Built t m) : g.Built t' m' :=
  ⟨h.straight.mono hkeeps hm, h.declared, h.clear⟩

variable (h : g.Built t m)
include h

theorem orderly : g.Orderly :=
  ⟨h.straight.blocks, h.declared⟩

theorem body : g.Straight t m ∧ g.ThrowsObjects :=
  ⟨h.straight, throwsObjects_of_clear h.clear⟩

/-- An instruction that declares nothing and makes no object is appended. -/
theorem append (hi : i.Allowed t m (g.instructions.filterMap declared?))
    (hnone : i.declared? = none) (hclear : i.makesObject = false) : (g.append .entry i).2.Built t m :=
  ⟨h.straight.append hi, (h.orderly.append hnone).declared, forall_mem_concat h.clear hclear⟩

/-- A new variable is declared. -/
theorem declare (name : String) (type : Option TypeId) (init : Option InstrId) :
    ((g.addParam .entry name type).2.append .entry
      (.alloca (g.addParam .entry name type).1 type init)).2.Built t m := by
  have hparam : (g.addParam .entry name type).2.Straight t m :=
    h.straight.modifyBlock _ h.straight.flow rfl
  refine ⟨hparam.append ?_, (h.orderly.declare name type init).declared, forall_mem_concat h.clear rfl⟩
  change _ ∉ g.instructions.filterMap declared?
  rw [h.declared]
  intro hmem
  obtain ⟨k, hk, heq⟩ := mem_map.mp hmem
  have hindex : k = (g.block .entry).params.length := congrArg BindingId.index heq
  have hlt := mem_range.mp hk
  omega

theorem setFlow {flow : Flow} (hflow : ∀ target, flow ≠ .jump target) : (g.setFlow .entry flow).Built t m :=
  ⟨h.straight.setFlow hflow, (h.orderly.setFlow flow).declared, h.clear⟩

end Built

end FlowGraph

end TreeCompiler
