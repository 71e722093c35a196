import TreeCompiler.Proofs.StackCode.Heights
import TreeCompiler.Proofs.StackCode.Machine

/-!
# Running code that does not jump

Emitted code falls from one instruction to the next until it ends. What a piece of it does is said for
all code that may follow it.

* `StackMachine.reaches_loadLocal`, `reaches_operator`, `reaches_call`, ... : what its pieces do.
-/

namespace TreeCompiler

open StackInstr List

/-! ## Code without jumps -/

/-- The bytes of instructions none of which jumps. -/
def StackCode.plain (is : List StackInstr) : Blob :=
  is.flatMap fun i => i.bytes fun _ => 0

theorem StackCode.encode_eq_plain (starts : List Nat) (at_ : Nat) (is : List StackInstr)
    (h : ∀ b, .jump b ∉ is) : encode starts at_ is = plain is := by
  induction is generalizing at_ with
  | nil => rfl
  | cons i is ih =>
    have hi : i.bytes (distance starts (at_ + i.size)) = i.bytes fun _ => 0 := by
      cases i with
      | jump b => exact absurd mem_cons_self (h b)
      | _ => rfl
    rw [encode, hi, ih _ fun b hb => h b (mem_cons_of_mem _ hb)]
    rfl

namespace CodeScope
variable {e : CodeScope} {f : References} {frame frame' : Frame} {code : List StackInstr}

theorem EmitsAll.jump_notMem {is : Script} {codes : List (List StackInstr)}
    (h : e.EmitsAll f frame is codes frame') (b : BlockId) : .jump b ∉ codes.flatten := by
  induction h with
  | nil => exact not_mem_nil
  | cons hfirst _ ih =>
    rw [flatten_cons, mem_append]
    rintro (hmem | hmem)
    · cases all_eq_true.mp hfirst.fallsThrough _ hmem
    · exact ih hmem

theorem EmitsFlow.jump_notMem {block : Block} (h : e.EmitsFlow frame block code)
    (hflow : ∀ target, block.flow ≠ .jump target) (b : BlockId) : .jump b ∉ code := by
  cases h with
  | jump hjump => exact absurd hjump (hflow _)
  | _ => simp

end CodeScope

namespace StackMachine
variable {n : Nat} {v : Value} {vs : List Value} {token : Token} {c : LinkedMethod}

open StackCode (plain)

variable {m : StackMachine} {stack slots : List Value} {events : List (Event Value)} {tail : List StackInstr}
  {a b : Value}

theorem step_plain {i : StackInstr} : m.step ⟨plain (i :: tail), stack, slots, events⟩ =
    m.execute ⟨plain tail, stack, slots, events⟩ (i.opcode fun _ => 0) := by
  have hread : Opcode.read (plain (i :: tail)) = some (i.opcode fun _ => 0, plain tail) :=
    Opcode.read_bytes _ i _
  simp only [step, hread]

theorem reaches_of_execute {i : StackInstr} {s : StackState}
    (h : m.execute ⟨plain tail, stack, slots, events⟩ (i.opcode fun _ => 0) = some (.running s)) :
    m.Reaches ⟨plain (i :: tail), stack, slots, events⟩ s :=
  .head (step_plain.trans h) (.refl s)

theorem reaches_loadLocal (hn : slots[n]? = some v) (hslots : slots.length ≤ 65536) :
    m.Reaches ⟨plain (.loadLocal n :: tail), stack, slots, events⟩ ⟨plain tail, v :: stack, slots, events⟩ := by
  have hlt : n < slots.length := (List.getElem?_eq_some_iff.mp hn).1
  refine reaches_of_execute ?_
  simp only [opcode, execute, Nat.mod_eq_of_lt (Nat.lt_of_lt_of_le hlt hslots), hn, Option.map_some]
  rfl

theorem reaches_storeLocal (v : Value) (hn : n < slots.length) (hslots : slots.length ≤ 65536) :
    m.Reaches ⟨plain (.storeLocal n :: tail), v :: stack, slots, events⟩
      ⟨plain tail, stack, slots.set n v, events⟩ := by
  refine reaches_of_execute ?_
  simp only [opcode, execute, Nat.mod_eq_of_lt (Nat.lt_of_lt_of_le hn hslots), hn, if_true]

theorem reaches_loads {ns : List Nat} (hns : Forall₂ (fun n v => slots[n]? = some v) ns vs)
    (hslots : slots.length ≤ 65536) : m.Reaches ⟨plain (ns.map .loadLocal ++ tail), stack, slots, events⟩
      ⟨plain tail, vs.reverse ++ stack, slots, events⟩ := by
  induction hns generalizing stack with
  | nil => exact .refl _
  | @cons n v ns vs hn _ ih =>
    have hrest := @ih (v :: stack)
    rw [reverse_cons, append_assoc]
    exact (reaches_loadLocal hn hslots).trans hrest

theorem reaches_loadArg (hn : m.args[n]? = some v) (hword : n < 65536) :
    m.Reaches ⟨plain (.loadArg n :: tail), stack, slots, events⟩ ⟨plain tail, v :: stack, slots, events⟩ := by
  refine reaches_of_execute ?_
  simp only [opcode, execute, Nat.mod_eq_of_lt hword, hn, Option.map_some]
  rfl

/-! ## Operators -/

theorem reaches_compare (op : Comparison) : m.Reaches ⟨plain (.compare op :: tail), b :: a :: stack, slots, events⟩
      ⟨plain tail, Value.ofBool (op.holds (m.processor.compare op.operator.2 a b)) :: stack, slots, events⟩ := by
  exact reaches_of_execute rfl

theorem reaches_equal : m.Reaches ⟨plain (.compare .equal :: tail), b :: a :: stack, slots, events⟩
      ⟨plain tail, Value.ofBool (m.processor.compare false a b == some .eq) :: stack, slots, events⟩ := by
  have hequal : Comparison.equal.holds (m.processor.compare false a b) = (m.processor.compare false a b == some .eq) :=
    Bool.or_false _
  rw [← hequal]
  exact reaches_compare .equal

theorem reaches_negate (x : Bool) :
    m.Reaches ⟨plain (CodeScope.negate ++ tail), Value.ofBool x :: stack, slots, events⟩
      ⟨plain tail, Value.ofBool (!x) :: stack, slots, events⟩ := by
  have hzero : m.Reaches ⟨plain (CodeScope.negate ++ tail), Value.ofBool x :: stack, slots, events⟩
      ⟨plain (.compare .equal :: tail), .int32 0 :: Value.ofBool x :: stack, slots, events⟩ := by
    exact reaches_of_execute rfl
  have hnot : (m.processor.compare false (Value.ofBool x) (.int32 0) == some .eq) = !x := by
    cases x <;> rfl
  rw [← hnot]
  exact hzero.trans reaches_equal

/-- An opcode finds which of two values is the greater one, if they are ordered. -/
theorem reaches_ranking {op : Comparison} {ranking : Operator} {unsigned : Bool} {o : Ordering}
    (hop : op.operator = (ranking, unsigned)) (ho : m.processor.compare unsigned a b = some o) :
    m.Reaches ⟨plain (.compare op :: tail), b :: a :: stack, slots, events⟩
      ⟨plain tail, Value.ofBool (ranking.holds (some o)) :: stack, slots, events⟩ := by
  have hholds : op.holds (m.processor.compare op.operator.2 a b) = ranking.holds (some o) := by
    rw [hop, ho, Comparison.holds, hop, Option.isNone_some, Bool.and_false, Bool.or_false]
  rw [← hholds]
  exact reaches_compare op

/-- The code of an operator computes it on the two topmost values. Since the code of `≤` and `≥` turns the
opposite around, values that are ranked have to be ordered. -/
theorem reaches_operator (op : Operator) (unsigned : Bool)
    (hordered : op.ranks = true → (m.processor.compare unsigned a b).isSome = true) :
    m.Reaches ⟨plain (CodeScope.operator op unsigned ++ tail), b :: a :: stack, slots, events⟩
      ⟨plain tail, m.interpretation.binary op unsigned a b :: stack, slots, events⟩ := by
  have hequal := m.processor.compare_beq_eq unsigned a b
  have hless : (if unsigned then .lessUnsigned else .less : Comparison).operator = (.lt, unsigned) := by
    cases unsigned <;> rfl
  have hgreater : (if unsigned then .greaterUnsigned else .greater : Comparison).operator = (.gt, unsigned) := by
    cases unsigned <;> rfl
  cases op with
  | add | sub | mul | div | rem | bitAnd | bitOr | bitXor | shl | shr =>
    cases unsigned <;> exact reaches_of_execute rfl
  | eq =>
    change m.Reaches _ ⟨_, Value.ofBool (m.processor.compare unsigned a b == some .eq) :: _, _, _⟩
    rw [hequal]
    exact reaches_equal
  | ne =>
    change m.Reaches _ ⟨_, Value.ofBool (!(m.processor.compare unsigned a b == some .eq)) :: _, _, _⟩
    rw [hequal]
    exact reaches_equal.trans (reaches_negate _)
  | lt =>
    obtain ⟨o, ho⟩ := Option.isSome_iff_exists.mp (hordered rfl)
    rw [binary_of_ordered rfl ho]
    exact reaches_ranking hless ho
  | gt =>
    obtain ⟨o, ho⟩ := Option.isSome_iff_exists.mp (hordered rfl)
    rw [binary_of_ordered rfl ho]
    exact reaches_ranking hgreater ho
  | le =>
    obtain ⟨o, ho⟩ := Option.isSome_iff_exists.mp (hordered rfl)
    rw [binary_of_ordered rfl ho, Operator.holds_le]
    exact (reaches_ranking hgreater ho).trans (reaches_negate _)
  | ge =>
    obtain ⟨o, ho⟩ := Option.isSome_iff_exists.mp (hordered rfl)
    rw [binary_of_ordered rfl ho, Operator.holds_ge]
    exact (reaches_ranking hless ho).trans (reaches_negate _)

/-! ## Constants -/

theorem reaches_constant {f : References} {c : Constant} {load : StackInstr} (hload : CodeScope.Loads f c load)
    (hlink : ∀ s, c = .string s → ∀ token, f.NamesText token s → m.link.text token = some s) :
    m.Reaches ⟨plain (load :: tail), stack, slots, events⟩
      ⟨plain tail, Value.ofConstant c :: stack, slots, events⟩ := by
  refine reaches_of_execute ?_
  cases c with
  | int kind v =>
    cases kind <;>
    · cases hload
      rfl
  | float32 x | float64 x | null =>
    cases hload
    rfl
  | string s =>
    obtain ⟨token, rfl, htoken⟩ := hload
    simp only [opcode, execute, hlink s rfl token htoken, Option.map_some]
    rfl
  | char c =>
    cases hload
    have hbits : BitVec.ofInt 32 (c.toNat : Int) = BitVec.ofNat 32 c.toNat := BitVec.ofInt_natCast _ _
    simp only [opcode, execute, hbits]
    rfl
  | bool b =>
    cases hload
    cases b <;> rfl

/-! ## Events -/

theorem perform_reverse (hvs : vs.length = n) (rest : Blob) (event : List Value → Event Value) :
    StackState.perform ⟨rest, vs.reverse, slots, events⟩ n event = some ⟨rest, [], slots, events ++ [event vs]⟩ := by
  have hlen : vs.reverse.length = n := length_reverse.trans hvs
  have hle := Nat.le_of_eq hlen
  simp only [StackState.perform, hlen, Nat.le_refl, if_true, drop_of_length_le hle, take_of_length_le hle,
    reverse_reverse]

theorem reaches_call (hc : m.link.callee token = some c) (hvs : vs.length = c.operands) :
    m.Reaches ⟨plain (.call token :: tail), vs.reverse, slots, events⟩
      ⟨plain tail, if c.hasResult then [m.answer (events ++ [.call c.method vs])] else [], slots,
        events ++ [.call c.method vs]⟩ := by
  refine reaches_of_execute ?_
  simp only [opcode, execute, hc, perform_reverse hvs, Option.bind_eq_bind, Option.bind_some]
  cases c.hasResult <;> rfl

theorem reaches_newObject (hc : m.link.callee token = some c) (hvs : vs.length = c.params) :
    m.Reaches ⟨plain (.newObject token :: tail), vs.reverse, slots, events⟩
      ⟨plain tail, [m.answer (events ++ [.newObject c.method vs])], slots, events ++ [.newObject c.method vs]⟩ := by
  refine reaches_of_execute ?_
  simp only [opcode, execute, hc, perform_reverse hvs, Option.bind_eq_bind, Option.bind_some]
  rfl

theorem reaches_storeField {field : FieldRef} (hfield : m.link.field token = some field) {target value : Value} :
    m.Reaches ⟨plain (.storeField token :: tail), value :: target :: stack, slots, events⟩
      ⟨plain tail, stack, slots, events ++ [.storeField field target value]⟩ := by
  refine reaches_of_execute ?_
  simp only [opcode, execute, hfield, Option.map_some]

end StackMachine

end TreeCompiler
