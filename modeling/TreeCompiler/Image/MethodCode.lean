import TreeCompiler.Image.Reference
import TreeCompiler.Image.StackCode
import TreeCompiler.Place

/-!
# Code of methods

Every value is stored in a local slot of its own as soon as it is made, and every variable has a
slot. Operands are loaded from their slots, so that the stack is empty between instructions.
-/

namespace TreeCompiler

/-- The local slots of a method: what each keeps and its signature. -/
structure Frame where
  places : Places := []
  signatures : List Blob := []
deriving DecidableEq, Repr

abbrev Coding := StateT Frame Emission

structure CodeScope where
  types : TypeTable
  method : MethodRef
  graph : FlowGraph

namespace CodeScope
variable (e : CodeScope)

abbrev decl : Method :=
  e.types.method e.method

def name : String :=
  e.types.methodName e.method

def resultType (id : InstrId) : Option TypeId :=
  e.graph.resultType e.types e.method.type e.decl id

/-! ## Slots -/

def takeSlot (p : Place) (type : Option TypeId) : Coding Nat := do
  let signature ← Emission.typeSignature e.types e.name type
  modifyGet fun frame =>
    let (slot, places) := frame.places.take p
    (slot, { places, signatures := frame.signatures ++ [signature] })

/-- The slot of a variable, taken when it is first used. -/
def bindingSlot (b : BindingId) : Coding Nat := do
  match (← get).places.number? (.binding b) with
  | some slot => return slot
  | none => e.takeSlot (.binding b) (← EmitError.ofDefect (e.graph.paramEntry b)).type

def loadValue (id : InstrId) : Coding StackInstr := do
  match (← get).places.number? (.value id) with
  | some slot => return .loadLocal slot
  | none => throw (.unsupported .managed (.undefinedValue id e.name))

/-- Numbers of a slot, an argument or a height of the stack. -/
def wordSize : Nat := 65536

/-- Loads values one on top of the other, as far as the height of the stack can be counted. -/
def loadValues (ids : List InstrId) : Coding (List StackInstr) := do
  let loads ← (ids.take wordSize).mapM e.loadValue
  if ids.length < wordSize then return loads else throw (.defect .overflow)

/-- Stores the value of an instruction in a new slot. -/
def storeResult (id : InstrId) : Coding StackInstr := do
  return .storeLocal (← e.takeSlot (.value id) (e.resultType id))

/-! ## Instructions -/

def loadConstant : Constant → Emission StackInstr
  | .int .i64 v | .int .u64 v => return .loadInt64 v
  | .int _ v => return .loadInt32 v
  | .float32 x => return .loadSingle x
  | .float64 x => return .loadDouble x
  | .string s => return .loadString (← Emission.stringToken s)
  | .char c => return .loadInt32 c.toNat
  | .bool b => return .loadInt32 (if b then 1 else 0)
  | .null => return .loadNull

def negate : List StackInstr :=
  [.loadZero, .compare .equal]

/-- Instructions of an operator on the two topmost values. That one value is at most another is
computed as not being greater. -/
def operator (op : Operator) (unsigned : Bool) : List StackInstr :=
  let less : StackInstr := .compare (if unsigned then .lessUnsigned else .less)
  let greater : StackInstr := .compare (if unsigned then .greaterUnsigned else .greater)
  match op with
  | .add => [.arithmetic .add]
  | .sub => [.arithmetic .sub]
  | .mul => [.arithmetic .mul]
  | .div => [.arithmetic (if unsigned then .divUnsigned else .div)]
  | .rem => [.arithmetic (if unsigned then .remUnsigned else .rem)]
  | .bitAnd => [.arithmetic .and]
  | .bitOr => [.arithmetic .or]
  | .bitXor => [.arithmetic .xor]
  | .shl => [.arithmetic .shl]
  | .shr => [.arithmetic (if unsigned then .shrUnsigned else .shr)]
  | .eq => [.compare .equal]
  | .ne => .compare .equal :: negate
  | .lt => [less]
  | .gt => [greater]
  | .le => greater :: negate
  | .ge => less :: negate

def isUnsigned (type : Option TypeId) : Bool :=
  match (e.types.primitiveOf? type).bind Primitive.intKind? with
  | some kind => !kind.signed
  | none => false

/-- Place of an argument; an object comes before the parameters of its method. -/
def argIndex (isStatic : Bool) : Argument → Except Defect Nat
  | .this => .ok 0
  | .param i => if isStatic then .ok (i % wordSize) else Defect.next wordSize (i % wordSize)

/-- A method with a result leaves it on the stack. -/
def yields (m : MethodRef) : Bool :=
  let type := (e.types.method m).returnType
  type.isSome && type != e.types.primitive? .void

def instruction (id : InstrId) : Instruction → Coding (List StackInstr)
  | .constant value _ => do
    let load ← loadConstant value
    return [load, ← e.storeResult id]
  | .load _ source => do
    let load ← e.loadValue source
    return [load, ← e.storeResult id]
  | .loadArg arg => do
    let index ← EmitError.ofDefect (argIndex e.decl.isStatic arg)
    return [.loadArg index, ← e.storeResult id]
  | .loadLocal binding => do
    let slot ← e.bindingSlot binding
    return [.loadLocal slot, ← e.storeResult id]
  | .alloca binding _ init => do
    let slot ← e.bindingSlot binding
    match init with
    | some init => return [← e.loadValue init, .storeLocal slot]
    | none => return []
  | .binary op type lhs rhs => do
    let unsigned := e.isUnsigned (e.resultType lhs) || e.isUnsigned type
    let left ← e.loadValue lhs
    let right ← e.loadValue rhs
    let store ← e.storeResult id
    return left :: right :: (operator op unsigned ++ [store])
  | .call method args => do
    let loads ← e.loadValues args
    let token ← Emission.methodToken e.types method
    if e.yields method then return loads ++ [.call token, ← e.storeResult id]
    else return loads ++ [.call token]
  | .newObject ctor args => do
    let loads ← e.loadValues args
    let token ← Emission.methodToken e.types ctor
    return loads ++ [.newObject token, ← e.storeResult id]
  | .storeField field target value => do
    let object ← e.loadValue target
    let load ← e.loadValue value
    let token ← Emission.fieldToken e.types field
    return [object, load, .storeField token]

/-- The object that a block throws at its end: the last one it makes, if it does nothing after. -/
def thrown? (b : Block) : Option InstrId :=
  b.instructions.getLast?.filter fun id =>
    match e.graph.instruction? id with
    | some (.newObject ..) => true
    | _ => false

def flow (b : Block) : Coding (List StackInstr) := do
  match b.flow with
  | .ret (some value) => return [← e.loadValue value, .ret]
  | .ret none => return [.ret]
  | .jump target => return [.jump target]
  | .unreachable =>
    match e.thrown? b with
    | some object => return [← e.loadValue object, .throw]
    | none => return [.loadNull, .throw]

def block (b : Block) : Coding (List StackInstr) := do
  let steps ← (e.graph.instructionsOf b).mapM fun (id, i) => e.instruction id i
  return steps.flatten ++ (← e.flow b)

/-! ## Size of the stack -/

/-- The height of the stack while code is written, and the greatest one so far. -/
structure StackSize where
  height : Nat
  most : Nat

def StackSize.push (s : StackSize) : StackSize :=
  ⟨s.height + 1, max s.most (s.height + 1)⟩

def StackSize.pop (s : StackSize) (n : Nat) : StackSize :=
  { s with height := s.height - n }

def isNegated : Operator → Bool
  | .ne | .le | .ge => true
  | _ => false

/-- Values are pushed and popped as the code of an instruction is written. A comparison that is turned around
gets room for the zero on top of its operands. -/
def count (s : StackSize) : Instruction → StackSize
  | .constant .. | .load .. | .loadArg _ | .loadLocal _ | .alloca _ _ (some _) => s.push.pop 1
  | .alloca _ _ none => s
  | .binary op .. =>
    let s := s.push.push
    let s := if isNegated op then s.push.pop 1 else s
    (s.pop 1).pop 1
  | .call method args =>
    let s := (args.foldl (fun s _ => s.push) s).pop args.length
    if e.yields method then s.push.pop 1 else s
  | .newObject _ args => ((args.foldl (fun s _ => s.push) s).pop args.length).push.pop 1
  | .storeField .. => s.push.push.pop 2

/-- The stack is taken to be empty after the end of a block. -/
def countBlock (s : StackSize) (b : Block) : StackSize :=
  let s := (e.graph.instructionsOf b).foldl (fun s i => e.count s i.2) s
  match b.flow with
  | .ret none | .jump _ => { s with height := 0 }
  | .ret (some _) | .unreachable => { s.push with height := 0 }

/-- Room for all that is on the stack at any time; one value always fits. -/
def maxStack : Nat :=
  max (e.graph.blocks.foldl e.countBlock ⟨0, 0⟩).most 1

def body : Emission MethodBody := do
  let (blocks, frame) ← (e.graph.blocks.mapM e.block).run {}
  return {
    maxStack := UInt16.ofNat e.maxStack
    locals := frame.signatures
    code := StackCode.assemble blocks }

end CodeScope

end TreeCompiler
