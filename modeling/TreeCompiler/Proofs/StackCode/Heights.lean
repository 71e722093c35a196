import TreeCompiler.Proofs.Emission
import TreeCompiler.Proofs.Image.EmittedCode
import TreeCompiler.Proofs.StackCode.Reading

/-!
# Heights of the stack

How many values the opcodes of a method take off the stack and put on it. A call takes one value per argument
of the instruction that it comes from, and the end of a method takes the result.
-/

namespace TreeCompiler

open List

/-- What some code comes from: an instruction, or the end of a block. -/
inductive CodeOrigin where
  | instruction (i : Instruction)
  | ending (flow : Flow)
deriving DecidableEq, Repr

/-- The opcode is not the last one of a part: a runtime goes on behind it. -/
def Opcode.falls : Opcode → Bool
  | .ret | .jump _ | .throw => false
  | _ => true

def Instruction.arity : Instruction → Nat
  | .call _ args | .newObject _ args => args.length
  | _ => 0

namespace CodeOrigin

def args : CodeOrigin → Nat
  | .instruction i => i.arity
  | .ending _ => 0

def results : CodeOrigin → Nat
  | .ending (.ret (some _)) => 1
  | _ => 0

end CodeOrigin

namespace CodeScope
variable (e : CodeScope) (o : CodeOrigin)

def answers : CodeOrigin → Nat
  | .instruction (.call m _) => if e.yields m then 1 else 0
  | _ => 0

/-- How many values an opcode takes off the stack, and how many it puts on it. -/
def effect : Opcode → Nat × Nat
  | .call _ => (o.args, e.answers o)
  | .newObject _ => (o.args, 1)
  | .ret => (o.results, 0)
  | .jump _ => (0, 0)
  | .storeLocal _ | .throw => (1, 0)
  | .storeField _ => (2, 0)
  | .arithmetic _ | .compare _ => (2, 1)
  | .loadNull | .loadInt32 _ | .loadInt64 _ | .loadSingle _ | .loadDouble _ | .loadString _ | .loadArg _
  | .loadLocal _ => (0, 1)

/-- The effects of instructions that may still be anywhere. -/
def effects (code : List StackInstr) : List (Nat × Nat) :=
  code.map fun i => e.effect o (i.opcode fun _ => 0)

theorem effect_opcode (distance : BlockId → Int) (i : StackInstr) :
    e.effect o (i.opcode distance) = e.effect o (i.opcode fun _ => 0) := by
  cases i <;> rfl

end CodeScope

/-! ## Climbing -/

/-- From `h` values on the stack, every step finds the values that it takes, there are at most `bound` values,
and `h'` are left. -/
inductive Climbs (bound : Nat) : Nat → List (Nat × Nat) → Nat → Prop where
  | nil {h : Nat} : h ≤ bound → Climbs bound h [] h
  | cons {h h' : Nat} {effect : Nat × Nat} {effects : List (Nat × Nat)} : h ≤ bound → effect.1 ≤ h →
      Climbs bound (h - effect.1 + effect.2) effects h' → Climbs bound h (effect :: effects) h'

namespace Climbs
variable {bound bound' h h' h'' : Nat} {effects effects' : List (Nat × Nat)}

theorem mono (hclimbs : Climbs bound h effects h') (hle : bound ≤ bound') : Climbs bound' h effects h' := by
  induction hclimbs with
  | nil hh => exact .nil (Nat.le_trans hh hle)
  | cons hh hpops _ ih => exact .cons (Nat.le_trans hh hle) hpops ih

theorem append (hclimbs : Climbs bound h effects h') (hclimbs' : Climbs bound h' effects' h'') :
    Climbs bound h (effects ++ effects') h'' := by
  induction hclimbs with
  | nil => exact hclimbs'
  | cons hh hpops _ ih => exact .cons hh hpops (ih hclimbs')

theorem eq_of_nil (hclimbs : Climbs bound h [] h') : h = h' := by
  cases hclimbs
  rfl

theorem replicate {n : Nat} (hle : h + n ≤ bound) : Climbs bound h (replicate n (0, 1)) (h + n) := by
  induction n generalizing h with
  | zero => exact .nil hle
  | succ n ih =>
    have hrest : Climbs bound (h + 1) (replicate n (0, 1)) (h + 1 + n) := ih (by omega)
    rw [Nat.add_assoc, Nat.add_comm 1 n] at hrest
    exact .cons (by omega) (Nat.zero_le _) hrest

end Climbs

/-- The judgement about runs that have a result. -/
def Emission.returning : Judgement Emission :=
  Judgement.state References
    { post := fun x Q => ∀ a, x = .ok a → Q a
      post_imp := fun hx h a ha => h a (hx a ha)
      post_pure := fun h _ ha => by cases ha; exact h
      post_bind := fun {_ _ x _ _ _} hx hk b hb => by
        cases x with
        | error _ => cases hb
        | ok a => exact hk a (hx a rfl) b hb }

namespace CodeScope
variable {code : List StackInstr} {bound : Nat} {α : Type}

open Emission (returning)

variable {e : CodeScope} {f : References} {frame frame' : Frame}

theorem effects_append (e : CodeScope) (o : CodeOrigin) (code code' : List StackInstr) :
    e.effects o (code ++ code') = e.effects o code ++ e.effects o code' :=
  map_append

theorem effects_loads (e : CodeScope) (o : CodeOrigin) (slots : List Nat) :
    e.effects o (slots.map .loadLocal) = replicate slots.length (0, 1) := by
  rw [effects, map_map]
  exact map_const

theorem Loads.effect_eq {c : Constant} {load : StackInstr} (h : Loads f c load) (o : CodeOrigin) :
    e.effect o (load.opcode fun _ => 0) = (0, 1) := by
  cases c with
  | int kind v =>
    cases kind <;>
    · cases h
      rfl
  | string s =>
    obtain ⟨token, rfl, -⟩ := h
    rfl
  | _ =>
    cases h
    rfl

/-- The instructions are not the last ones of a method or block. -/
def fallsThrough (code : List StackInstr) : Bool :=
  code.all fun i => (i.opcode fun _ => 0).falls

theorem fallsThrough_loads (slots : List Nat) : fallsThrough (slots.map .loadLocal) = true := by
  rw [fallsThrough, all_map]
  exact all_eq_true.mpr fun _ _ => rfl

theorem fallsThrough_operator (op : Operator) (unsigned : Bool) : fallsThrough (operator op unsigned) = true := by
  cases op <;> cases unsigned <;> rfl

theorem falls_of_effect {o : CodeOrigin} {op : Opcode} (h : (e.effect o op).2 = 1) : op.falls = true := by
  cases op with
  | ret | jump | throw => cases h
  | _ => rfl

theorem Emits.fallsThrough {id : InstrId} {i : Instruction} (h : e.Emits f id frame i code frame') :
    fallsThrough code = true := by
  cases h with
  | constant hload _ =>
    have hfalls := falls_of_effect (congrArg Prod.snd (hload.effect_eq (e := e) (.ending .unreachable)))
    rw [CodeScope.fallsThrough, List.all_cons, hfalls]
    rfl
  | binary =>
    rw [CodeScope.fallsThrough, List.all_cons, List.all_cons, List.all_append, ← CodeScope.fallsThrough,
      fallsThrough_operator]
    rfl
  | call | callVoid | newObject =>
    rw [CodeScope.fallsThrough, List.all_append, ← CodeScope.fallsThrough, fallsThrough_loads]
    rfl
  | load | loadArg | loadLocal | allocaFrom | alloca | storeField => rfl

theorem climbs_operator (o : CodeOrigin) (op : Operator) (unsigned : Bool) :
    Climbs 2 2 (e.effects o (operator op unsigned)) 1 := by
  have hone : Climbs 2 2 [(2, 1)] 1 := .cons (Nat.le_refl _) (Nat.le_refl _) (.nil (by decide))
  have hnegated : Climbs 2 2 [(2, 1), (0, 1), (2, 1)] 1 :=
    .cons (Nat.le_refl _) (Nat.le_refl _) (.cons (by decide) (Nat.zero_le _) hone)
  cases op with
  | ne => exact hnegated
  | le | ge => cases unsigned <;> exact hnegated
  | div | rem | shr | lt | gt => cases unsigned <;> exact hone
  | _ => exact hone

theorem climbs_loads {o : CodeOrigin} {args : List InstrId} {slots : List Nat} {op : StackInstr} {k : Nat}
    (hslots : frame.Slots args slots) (hbound : args.length ≤ bound)
    (hop : e.effect o (op.opcode fun _ => 0) = (args.length, k)) (hcode : Climbs bound k (e.effects o code) 0) :
    Climbs bound 0 (e.effects o (slots.map .loadLocal ++ op :: code)) 0 := by
  have hloads : Climbs bound 0 (replicate args.length (0, 1)) (0 + args.length) :=
    .replicate (by rwa [Nat.zero_add])
  rw [Nat.zero_add] at hloads
  rw [effects_append, effects_loads, ← Forall₂.length_eq hslots]
  refine hloads.append ?_
  rw [effects, map_cons, hop]
  refine .cons hbound (Nat.le_refl _) ?_
  rw [Nat.sub_self, Nat.zero_add]
  exact hcode

theorem climbs_store (hbound : 1 ≤ bound) : Climbs bound 1 [(1, 0)] 0 :=
  .cons hbound (Nat.le_refl _) (.nil (Nat.zero_le _))

theorem climbs_pair (hbound : 1 ≤ bound) : Climbs bound 0 [(0, 1), (1, 0)] 0 :=
  .cons (Nat.zero_le _) (Nat.le_refl _) (climbs_store hbound)

/-- Room that an instruction takes on the stack. -/
def room (e : CodeScope) : Instruction → Nat
  | .constant .. | .load .. | .loadArg _ | .loadLocal _ => 1
  | .alloca _ _ init => init.toList.length
  | .binary op .. => if isNegated op then 3 else 2
  | .call method args => max args.length (if e.yields method then 1 else 0)
  | .newObject _ args => max args.length 1
  | .storeField .. => 2

/-- The code of an instruction leaves an empty stack empty, and has the room that it takes. -/
theorem Emits.climbs {id : InstrId} {i : Instruction} (h : e.Emits f id frame i code frame') :
    Climbs (e.room i) 0 (e.effects (.instruction i) code) 0 := by
  cases i with
  | binary op type lhs rhs =>
    cases h with
    | binary =>
      have hroom : 2 ≤ e.room (.binary op type lhs rhs) := by
        rw [room]
        split <;> decide
      have hloads : Climbs 2 0 (replicate 2 (0, 1)) 2 := .replicate (Nat.le_refl _)
      refine Climbs.mono (.append hloads ?_) hroom
      rw [← effects, effects_append]
      exact .append (climbs_operator _ op _) (climbs_store (by decide))
  | call m args =>
    cases h with
    | call hslots _ hyields =>
      have hroom : e.room (.call m args) = max args.length 1 := by rw [room, hyields, if_pos rfl]
      have hanswers : e.answers (.instruction (.call m args)) = 1 := by rw [answers, hyields, if_pos rfl]
      rw [hroom]
      exact climbs_loads hslots (Nat.le_max_left _ _) (congrArg (args.length, ·) hanswers)
        (climbs_store (Nat.le_max_right _ _))
    | callVoid hslots _ hyields =>
      have hanswers : e.answers (.instruction (.call m args)) = 0 := by rw [answers, hyields, if_neg (by decide)]
      exact climbs_loads hslots (Nat.le_max_left _ _) (congrArg (args.length, ·) hanswers) (.nil (Nat.zero_le _))
  | newObject ctor args =>
    cases h with
    | newObject hslots =>
      exact climbs_loads hslots (Nat.le_max_left _ _) rfl (climbs_store (Nat.le_max_right _ _))
  | storeField field target value =>
    cases h with
    | storeField =>
      have hloads : Climbs 2 0 (replicate 2 (0, 1)) 2 := .replicate (Nat.le_refl _)
      exact .append hloads (.cons (Nat.le_refl _) (Nat.le_refl _) (.nil (Nat.zero_le _)))
  | constant value type =>
    cases h with
    | constant hload _ =>
      rw [effects, map_cons, hload.effect_eq]
      exact climbs_pair (Nat.le_refl _)
  | load | loadArg | loadLocal =>
    cases h
    exact climbs_pair (Nat.le_refl _)
  | alloca b type init =>
    cases h with
    | allocaFrom => exact climbs_pair (Nat.le_refl _)
    | alloca => exact .nil (Nat.zero_le _)

theorem EmitsFlow.climbs {b : Block} (h : e.EmitsFlow frame b code) :
    Climbs 1 0 (e.effects (.ending b.flow) code) 0 := by
  cases h with
  | retValue hflow | throwObject hflow | throwNull hflow =>
    rw [hflow]
    exact climbs_pair (Nat.le_refl _)
  | ret hflow | jump hflow =>
    rw [hflow]
    exact .cons (Nat.zero_le _) (Nat.le_refl _) (.nil (Nat.zero_le _))

/-! ## Room -/

theorem foldl_push (as : List α) {height most : Nat} (hle : height ≤ most) :
    as.foldl (fun s _ => s.push) ⟨height, most⟩ =
      (⟨height + as.length, max most (height + as.length)⟩ : StackSize) := by
  induction as generalizing height most with
  | nil => rw [foldl_nil, length_nil, Nat.add_zero, Nat.max_eq_left hle]
  | cons a as ih =>
    refine (ih (Nat.le_max_right _ _)).trans ?_
    simp only [length_cons, StackSize.mk.injEq]
    omega

/-- What is counted for an instruction on an empty stack. -/
theorem count_eq (e : CodeScope) (most : Nat) (i : Instruction) : e.count ⟨0, most⟩ i = ⟨0, max most (e.room i)⟩ := by
  cases i with
  | alloca b type init => cases init <;> simp [count, room, StackSize.push, StackSize.pop]
  | binary op type lhs rhs =>
    cases hop : isNegated op <;> simp [count, room, hop, StackSize.push, StackSize.pop]
  | call m args =>
    rw [count, foldl_push args (Nat.zero_le most)]
    cases hyields : e.yields m <;> simp [room, hyields, StackSize.push, StackSize.pop]
  | newObject ctor args =>
    rw [count, foldl_push args (Nat.zero_le most)]
    simp [room, StackSize.push, StackSize.pop]
  | _ => simp [count, room, StackSize.push, StackSize.pop]

theorem foldl_count (e : CodeScope) (is : Script) (most : Nat) :
    is.foldl (fun s i => e.count s i.2) ⟨0, most⟩ = ⟨0, is.foldl (fun most i => max most (e.room i.2)) most⟩ := by
  induction is generalizing most with
  | nil => rfl
  | cons i is ih => rw [foldl_cons, count_eq, ih, foldl_cons]

theorem foldl_max_le_iff (size : α → Nat) (as : List α) (start bound : Nat) :
    as.foldl (fun room a => max room (size a)) start ≤ bound ↔ start ≤ bound ∧ ∀ a ∈ as, size a ≤ bound := by
  induction as generalizing start with
  | nil => simp
  | cons a as ih => rw [foldl_cons, ih, Nat.max_le, forall_mem_cons, and_assoc]

theorem foldl_countBlock_le_iff (e : CodeScope) (hbound : 1 ≤ bound) (bs : List Block) (most : Nat) :
    (bs.foldl e.countBlock ⟨0, most⟩).most ≤ bound ↔
      most ≤ bound ∧ ∀ b ∈ bs, ∀ x ∈ e.graph.instructionsOf b, e.room x.2 ≤ bound := by
  induction bs generalizing most with
  | nil => simp
  | cons b bs ih =>
    obtain ⟨most', hblock, hmost⟩ : ∃ most', e.countBlock ⟨0, most⟩ b = ⟨0, most'⟩ ∧
        (most' ≤ bound ↔ most ≤ bound ∧ ∀ x ∈ e.graph.instructionsOf b, e.room x.2 ≤ bound) := by
      have hrooms := foldl_max_le_iff (fun x : InstrId × Instruction => e.room x.2) (e.graph.instructionsOf b) most
        bound
      rw [countBlock, foldl_count]
      -- a value that is returned or thrown is alone on the stack
      have hlast : ∀ rooms, max rooms 1 ≤ bound ↔ rooms ≤ bound := fun _ => Nat.max_le.trans (and_iff_left hbound)
      split
      · exact ⟨_, rfl, hrooms⟩
      · exact ⟨_, rfl, hrooms⟩
      · exact ⟨_, rfl, (hlast _).trans hrooms⟩
      · exact ⟨_, rfl, (hlast _).trans hrooms⟩
    rw [foldl_cons, hblock, ih, hmost, forall_mem_cons, and_assoc]

/-- The stack is as high as the instruction needs it that needs most room. -/
theorem maxStack_le_iff (e : CodeScope) (bound : Nat) : e.maxStack ≤ bound ↔
      1 ≤ bound ∧ ∀ b ∈ e.graph.blocks, ∀ x ∈ e.graph.instructionsOf b, e.room x.2 ≤ bound := by
  rw [maxStack, Nat.max_le, and_comm]
  refine and_congr_right fun hbound => (e.foldl_countBlock_le_iff hbound _ 0).trans ?_
  exact and_iff_right (Nat.zero_le _)

theorem room_le (e : CodeScope) (i : Instruction) : e.room i ≤ max i.arity 3 := by
  cases i with
  | alloca b type init => cases init <;> simp [room, Instruction.arity]
  | binary op type lhs rhs =>
    rw [room]
    split <;> simp [Instruction.arity]
  | call m args =>
    rw [room, Instruction.arity]
    split <;> omega
  | newObject ctor args =>
    rw [room, Instruction.arity]
    omega
  | _ => simp [room, Instruction.arity]

theorem holds_returning {x : Coding α} {Q : α → Frame → Prop} (h : ∀ a frame', Q a frame') :
    returning.Holds x frame Q :=
  fun _ _ _ => h _ _

theorem holds_loadValues_returning (ids : List InstrId) :
    returning.Holds (e.loadValues ids) frame fun _ _ => ids.length < wordSize := by
  unfold loadValues
  refine Judgement.Holds.bind (holds_returning fun _ _ => trivial) fun loads frame' _ => ?_
  split
  next hlt => exact Judgement.holds_pure hlt
  next => exact fun _ _ h => by cases h

theorem holds_instruction_returning (id : InstrId) (i : Instruction) :
    returning.Holds (e.instruction id i) frame fun _ _ => i.arity < wordSize := by
  cases i with
  | call m args | newObject ctor args =>
    exact (holds_loadValues_returning args).bind fun _ _ h => holds_returning fun _ _ => h
  | _ => exact holds_returning fun _ _ => (by decide : 0 < wordSize)

theorem holds_blocks_returning (bs : List Block) : returning.Holds (bs.mapM e.block) frame fun _ _ =>
      ∀ b ∈ bs, ∀ x ∈ e.graph.instructionsOf b, x.2.arity < wordSize := by
  refine Judgement.Holds.mapM (I := fun done _ => ∀ b ∈ done, ∀ x ∈ e.graph.instructionsOf b, x.2.arity < wordSize)
    (fun done b rest _ frame' hdone => ?_) (forall_mem_nil _)
  have hsteps : returning.Holds ((e.graph.instructionsOf b).mapM fun x => e.instruction x.1 x.2) frame'
      fun _ _ => ∀ x ∈ e.graph.instructionsOf b, x.2.arity < wordSize := by
    refine Judgement.Holds.mapM (I := fun (done : Script) _ =>
      ∀ x ∈ done, x.2.arity < wordSize) (fun done x rest _ frame'' hdone => ?_) (forall_mem_nil _)
    exact (holds_instruction_returning x.1 x.2).imp fun _ _ hx =>
      forall_mem_append.mpr ⟨hdone, forall_mem_singleton.mpr hx⟩
  refine hsteps.bind fun _ _ hb => holds_returning fun _ _ => ?_
  exact forall_mem_append.mpr ⟨hdone, forall_mem_singleton.mpr hb⟩

/-- The height that a body asks for is counted in full. -/
theorem maxStack_of_body {r r' : References} {body : MethodBody} (h : e.body.run r = .ok (body, r')) :
    body.maxStack.toNat = e.maxStack := by
  have hblocks : returning.Holds (e.graph.blocks.mapM e.block) {} fun _ _ =>
      ∀ b ∈ e.graph.blocks, ∀ x ∈ e.graph.instructionsOf b, x.2.arity < wordSize :=
    holds_blocks_returning e.graph.blocks
  have hpost : returning.post e.body fun body => body.maxStack.toNat = e.maxStack := by
    refine returning.post_bind hblocks fun out hcounted => returning.post_pure ?_
    refine UInt16.toNat_ofNat_of_lt' (Nat.lt_succ_of_le ((maxStack_le_iff e _).mpr ⟨by decide, ?_⟩))
    intro b hb x hx
    have hlt : x.2.arity < 65536 := hcounted b hb x hx
    exact Nat.le_trans (e.room_le x.2) (by omega)
  exact hpost r _ h

end CodeScope

end TreeCompiler
