import TreeCompiler.Proofs.Execution
import TreeCompiler.Proofs.FlowGraph.Evaluation
import TreeCompiler.Proofs.StackCode.Reading

/-!
# A machine that runs stack code

The machine fetches instructions from code bytes. It has a stack, local slots, the arguments of the
method, and it resolves tokens through a `Linkage`. What its arithmetic computes is left open in
`Processor`; whole numbers of one width are ordered as the numbers that their bits stand for. Other values
need not be ordered: no number is smaller than one that is not a number, nor greater, nor equal to it.
-/

namespace TreeCompiler

open Number
variable (p : Processor) (unsigned : Bool)

/-! ## Values -/

inductive Value where
  | int32 (bits : BitVec 32)
  | int64 (bits : BitVec 64)
  | single (value : Single)
  | double (value : Double)
  | text (value : String)
  | null
  | object (handle : Nat)
  /-- What a slot holds before anything is stored in it. -/
  | unset
deriving DecidableEq, Repr

/-- What the machine's arithmetic computes. -/
structure Processor where
  /-- An arithmetic operator, on numbers without a sign or not. -/
  arithmetic : Operator → Bool → Value → Value → Value
  /-- The order of values that are not whole numbers of one width, if they are ordered. -/
  order : Value → Value → Option Ordering

def Value.order {w : Nat} (a b : BitVec w) : Ordering :=
  if unsigned then Ord.compare a.toNat b.toNat else Ord.compare a.toInt b.toInt

/-- The order of whole numbers is that of the numbers which their bits stand for. -/
def Processor.compare : Value → Value → Option Ordering
  | .int32 a, .int32 b => some (Value.order unsigned a b)
  | .int64 a, .int64 b => some (Value.order unsigned a b)
  | a, b => p.order a b

theorem Processor.compare_beq_eq (a b : Value) :
    (p.compare unsigned a b == some .eq) = (p.compare false a b == some .eq) := by
  have hbits : ∀ {w : Nat} (x y : BitVec w),
      (some (Ord.compare x.toNat y.toNat) == some .eq) = (some (Ord.compare x.toInt y.toInt) == some .eq) := by
    intro w x y
    rw [Bool.eq_iff_iff, beq_iff_eq, beq_iff_eq, Option.some_inj, Option.some_inj, Std.compare_eq_iff_eq,
      Std.compare_eq_iff_eq, BitVec.toNat_inj, BitVec.toInt_inj]
  cases unsigned with
  | false => rfl
  | true =>
    cases a with
    | int32 x | int64 x => cases b <;> first | rfl | exact hbits _ _
    | _ => rfl

namespace Operator
variable (o : Ordering)

/-- Numbers with and without a sign are divided and shifted to the right differently. -/
def hasSign : Operator → Bool
  | .div | .rem | .shr => true
  | _ => false

/-- The operator asks which of two values is the greater one. -/
def ranks : Operator → Bool
  | .lt | .le | .gt | .ge => true
  | _ => false

/-- A comparison is true of values in some order. Of values without one, only that they differ is true. -/
def holds : Operator → Option Ordering → Bool
  | .eq, o => o == some .eq
  | .ne, o => o != some .eq
  | .lt, o => o == some .lt
  | .le, o => o == some .lt || o == some .eq
  | .gt, o => o == some .gt
  | .ge, o => o == some .gt || o == some .eq
  | _, _ => false

theorem holds_le : le.holds (some o) = !gt.holds (some o) := by
  cases o <;> rfl

theorem holds_ge : ge.holds (some o) = !lt.holds (some o) := by
  cases o <;> rfl

end Operator

namespace Value

def ofBool (b : Bool) : Value :=
  .int32 (if b then 1 else 0)

/-- Whole numbers are bits in two's complement, 64 of them for numbers of that width. -/
def ofConstant : Constant → Value
  | .int kind v => if kind.bits = 64 then .int64 (.ofInt 64 v) else .int32 (.ofInt 32 v)
  | .float32 x => .single x
  | .float64 x => .double x
  | .string s => .text s
  | .char c => .int32 (.ofNat 32 c.toNat)
  | .bool b => ofBool b
  | .null => .null

end Value

/-- The values are ordered where an instruction asks which of them is the greater one. -/
def Processor.Orders (e : CodeScope) (s : Bindings Value) : Instruction → Prop
  | .binary op type lhs rhs => op.ranks = true → ∀ a b, s.values lhs = some a → s.values rhs = some b →
    (p.compare (e.unsigned type lhs) a b).isSome = true
  | _ => True

/-! ## Opcodes -/

/-- The operator that an opcode computes, and whether it takes numbers without a sign. -/
def Arithmetic.operator : Arithmetic → Operator × Bool
  | .add => (.add, false)
  | .sub => (.sub, false)
  | .mul => (.mul, false)
  | .div => (.div, false)
  | .divUnsigned => (.div, true)
  | .rem => (.rem, false)
  | .remUnsigned => (.rem, true)
  | .and => (.bitAnd, false)
  | .or => (.bitOr, false)
  | .xor => (.bitXor, false)
  | .shl => (.shl, false)
  | .shr => (.shr, false)
  | .shrUnsigned => (.shr, true)

def Comparison.operator : Comparison → Operator × Bool
  | .equal => (.eq, false)
  | .greater => (.gt, false)
  | .greaterUnsigned => (.gt, true)
  | .less => (.lt, false)
  | .lessUnsigned => (.lt, true)

/-- What an opcode finds of values in some order. One for numbers without a sign is true as well of values
that have no order. -/
def Comparison.holds (op : Comparison) (o : Option Ordering) : Bool :=
  op.operator.1.holds o || op.operator.2 && o.isNone

structure LinkedMethod where
  method : MethodRef
  params : Nat
  isStatic : Bool
  hasResult : Bool
deriving DecidableEq, Repr

def LinkedMethod.operands (c : LinkedMethod) : Nat :=
  c.params + if c.isStatic then 0 else 1

/-- What tokens lead to. -/
structure Linkage where
  text : Token → Option String
  callee : Token → Option LinkedMethod
  field : Token → Option FieldRef

/-! ## The machine -/

structure StackState where
  /-- The code from the next instruction on. -/
  rest : Blob
  /-- The topmost value comes first. -/
  stack : List Value
  slots : List Value
  events : List (Event Value)
deriving DecidableEq, Repr

namespace StackState
variable (s : StackState)

def push (v : Value) : StackState :=
  { s with stack := v :: s.stack }

/-- An event of the topmost values, if there are so many. -/
def perform (n : Nat) (event : List Value → Event Value) : Option StackState :=
  if n ≤ s.stack.length then
    some { s with stack := s.stack.drop n, events := s.events ++ [event (s.stack.take n).reverse] }
  else none

end StackState

structure StackMachine where
  code : Blob
  args : List Value
  link : Linkage
  processor : Processor
  /-- What the latest of some events results in. -/
  answer : List (Event Value) → Value

namespace StackMachine
variable (m : StackMachine) (s : StackState)

/-- What the parts of a graph mean by themselves, for values as the machine has them. -/
def interpretation : Interpretation Value where
  constant := .ofConstant
  binary op unsigned a b :=
    if op.isComparison then .ofBool (op.holds (m.processor.compare unsigned a b))
    else m.processor.arithmetic op (unsigned && op.hasSign) a b
  unset := .unset
  null := .null
  answer := m.answer

theorem binary_of_ordered {m : StackMachine} {op : Operator} {unsigned : Bool} {a b : Value} {o : Ordering}
    (hop : op.isComparison = true) (ho : m.processor.compare unsigned a b = some o) :
    m.interpretation.binary op unsigned a b = .ofBool (op.holds (some o)) := by
  simp only [interpretation, hop, ho, if_true]

/-- One instruction; there is no next state where it lacks something. -/
def execute :
    Opcode → Option (Progress StackState (Outcome Value))
  | .loadNull => some (.running (s.push .null))
  | .loadInt32 bits => some (.running (s.push (.int32 bits)))
  | .loadInt64 bits => some (.running (s.push (.int64 bits)))
  | .loadSingle x => some (.running (s.push (.single x)))
  | .loadDouble x => some (.running (s.push (.double x)))
  | .loadString t => (m.link.text t).map fun text => .running (s.push (.text text))
  | .loadArg i => m.args[i]?.map fun v => .running (s.push v)
  | .loadLocal i => s.slots[i]?.map fun v => .running (s.push v)
  | .storeLocal i =>
    match s.stack with
    | v :: stack =>
      if i < s.slots.length then some (.running { s with stack, slots := s.slots.set i v }) else none
    | [] => none
  | .storeField t =>
    match s.stack with
    | value :: target :: stack => (m.link.field t).map fun field =>
      .running { s with stack, events := s.events ++ [.storeField field target value] }
    | _ => none
  | .arithmetic op =>
    match s.stack with
    | b :: a :: stack => some (.running
      { s with stack := m.processor.arithmetic op.operator.1 op.operator.2 a b :: stack })
    | _ => none
  | .compare op =>
    match s.stack with
    | b :: a :: stack => some (.running
      { s with stack := Value.ofBool (op.holds (m.processor.compare op.operator.2 a b)) :: stack })
    | _ => none
  | .call t => do
    let c ← m.link.callee t
    let s ← s.perform c.operands (.call c.method)
    return .running (if c.hasResult then s.push (m.answer s.events) else s)
  | .newObject t => do
    let c ← m.link.callee t
    let s ← s.perform c.params (.newObject c.method)
    return .running (s.push (m.answer s.events))
  | .ret =>
    match s.stack with
    | [] => some (.ended ⟨s.events, .returned none⟩)
    | [v] => some (.ended ⟨s.events, .returned (some v)⟩)
    | _ => none
  | .jump distance =>
    let target := (m.code.length : Int) - s.rest.length + distance.toInt
    if 0 ≤ target then some (.running { s with rest := m.code.drop target.toNat }) else none
  | .throw =>
    match s.stack with
    | v :: _ => some (.ended ⟨s.events, .thrown v⟩)
    | [] => none

/-- Fetches an instruction and executes it. -/
def step : Option (Progress StackState (Outcome Value)) :=
  match Opcode.read s.rest with
  | some (op, rest) => m.execute { s with rest } op
  | none => none

/-- The run from a state on ends with an outcome. -/
abbrev Ends : StackState → Outcome Value → Prop :=
  Run.Ends m.step

abbrev Reaches : StackState → StackState → Prop :=
  Run.Reaches m.step

def start (slots : Nat) : StackState :=
  { rest := m.code, stack := [], slots := List.replicate slots .unset, events := [] }

end StackMachine

end TreeCompiler
