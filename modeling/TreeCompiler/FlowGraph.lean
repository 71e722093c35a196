import TreeCompiler.Constant
import TreeCompiler.Defect
import TreeCompiler.Handle

/-!
# Flow graphs

The body of a method is a list of blocks. Instructions are numbered through the whole graph in the
order in which they are appended, refer to earlier results by number, and belong to one block each.
A block ends in a `Flow`; one that is still open falls through to a return.
-/

namespace TreeCompiler

inductive Argument where
  /-- The object whose method is called. -/
  | this
  /-- A declared parameter, counted from zero. -/
  | param (index : Nat)
deriving DecidableEq, Repr

inductive Instruction where
  | constant (value : Constant) (type : Option TypeId)
  | load (type : Option TypeId) (source : InstrId)
  | loadArg (arg : Argument)
  | loadLocal (binding : BindingId)
  /-- Makes room for a variable and fills it from `init`. -/
  | alloca (binding : BindingId) (type : Option TypeId) (init : Option InstrId)
  | binary (op : Operator) (type : Option TypeId) (lhs rhs : InstrId)
  | call (method : MethodRef) (args : List InstrId)
  /-- Makes an object and runs a constructor on it. -/
  | newObject (ctor : MethodRef) (args : List InstrId)
  | storeField (field : FieldRef) (target value : InstrId)
deriving DecidableEq, Repr

def Instruction.operands : Instruction → List InstrId
  | .constant .. | .loadArg _ | .loadLocal _ => []
  | .load _ source => [source]
  | .alloca _ _ init => init.toList
  | .binary _ _ lhs rhs => [lhs, rhs]
  | .call _ args => args
  | .newObject _ args => args
  | .storeField _ target value => [target, value]

inductive Flow where
  | ret (value : Option InstrId)
  | jump (target : BlockId)
  | unreachable
deriving DecidableEq, Repr

def Flow.text : Flow → String
  | .ret (some v) => s!"return %{v.index}"
  | .ret none => "return"
  | .jump b => s!"jump b{b.index}"
  | .unreachable => "unreachable"

structure BlockParam where
  name : String
  type : Option TypeId
deriving DecidableEq, Repr, Inhabited

structure Block where
  name : String
  params : List BlockParam := []
  instructions : List InstrId := []
  flow? : Option Flow := none
deriving DecidableEq, Repr, Inhabited

namespace Block

def isTerminated (b : Block) : Bool :=
  b.flow?.isSome

def flow (b : Block) : Flow :=
  b.flow?.getD (.ret none)

end Block

/-- Instructions with their numbers, in order. -/
abbrev Script := List (InstrId × Instruction)

structure FlowGraph where
  blocks : List Block := [{ name := "entry" }]
  instructions : List Instruction := []
deriving DecidableEq, Repr

namespace FlowGraph
variable (g : FlowGraph)

def empty : FlowGraph := {}

def block (b : BlockId) : Block :=
  g.blocks.getD b.index default

def modifyBlock (b : BlockId) (f : Block → Block) : FlowGraph :=
  { g with blocks := g.blocks.modify b.index f }

def addBlock (name : String) : BlockId × FlowGraph :=
  (⟨g.blocks.length⟩, { g with blocks := g.blocks ++ [{ name }] })

def numberedBlocks : List (BlockId × Block) :=
  g.blocks.zipIdx.map fun (b, i) => (⟨i⟩, b)

def instruction? (id : InstrId) : Option Instruction :=
  g.instructions[id.index]?

def blockEntry (n : Nat) : Except Defect BlockId :=
  (Defect.entry g.blocks n).map fun _ => ⟨n⟩

def instrEntry (n : Nat) : Except Defect InstrId :=
  (Defect.entry g.instructions n).map fun _ => ⟨n⟩

def instructionsOf (b : Block) : Script :=
  b.instructions.filterMap fun id => (g.instruction? id).map (id, ·)

/-- The instructions of the first block. -/
abbrev script : Script :=
  g.instructionsOf (g.block .entry)

def instructionCount : Nat :=
  g.instructions.length

def append (b : BlockId) (i : Instruction) : InstrId × FlowGraph :=
  let id : InstrId := ⟨g.instructions.length⟩
  (id, { g with instructions := g.instructions ++ [i] }.modifyBlock b
    fun block => { block with instructions := block.instructions ++ [id] })

@[simp] theorem instructionCount_append (b : BlockId) (i : Instruction) :
    (g.append b i).2.instructionCount = g.instructionCount + 1 := by
  simp [append, instructionCount, modifyBlock]

@[simp] theorem instruction?_append_self (b : BlockId) (i : Instruction) :
    (g.append b i).2.instruction? (g.append b i).1 = some i := by
  simp [append, instruction?, modifyBlock]

def addParam (b : BlockId) (name : String) (type : Option TypeId) :
    BindingId × FlowGraph :=
  (⟨b, (g.block b).params.length⟩,
    g.modifyBlock b fun block => { block with params := block.params ++ [⟨name, type⟩] })

def findParam? (b : BlockId) (name : String) : Option BindingId :=
  let params := (g.block b).params
  (params.reverse.findIdx? (·.name == name)).map fun i => ⟨b, params.length - 1 - i⟩

def param (b : BindingId) : BlockParam :=
  (g.block b.block).params.getD b.index default

/-- The variable behind a handle that may lead nowhere. -/
def paramEntry (b : BindingId) : Except Defect BlockParam := do
  let block ← Defect.entry g.blocks b.block.index
  Defect.entry block.params b.index

def setFlow (b : BlockId) (flow : Flow) : FlowGraph :=
  g.modifyBlock b fun block => { block with flow? := some flow }

def isTerminated (b : BlockId) : Bool :=
  (g.block b).isTerminated

def close : FlowGraph :=
  { g with blocks := g.blocks.map fun block => { block with flow? := some block.flow } }

end FlowGraph

end TreeCompiler
