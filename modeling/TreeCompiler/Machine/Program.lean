import TreeCompiler.Assembly
import TreeCompiler.EmitError
import TreeCompiler.Machine.Intrinsic
import TreeCompiler.Machine.Line
import TreeCompiler.Machine.MemoryMap
import TreeCompiler.Machine.Symbol
import TreeCompiler.Place
import TreeCompiler.Text.Lines

/-!
# Programs for the machine

A method finds its arguments in the registers from 1 on and leaves its result in register 0. Every
value and every variable has a register of its own above the arguments. A caller saves all registers
in use on the stack around a call. The machine has no objects: only static methods are written.
-/

namespace TreeCompiler

namespace Machine

structure Writing where
  places : Places := []
  /-- Texts of the whole program, in the order of their first use. -/
  strings : List String := []
deriving DecidableEq, Repr

abbrev Writer := StateT Writing (Except EmitError)

structure MethodScope where
  types : TypeTable
  method : MethodRef
  graph : FlowGraph

def stringLabel (index : Nat) : String :=
  s!"$str{index}"

namespace MethodScope
variable (e : MethodScope)

abbrev decl : Method :=
  e.types.method e.method

def symbol : String :=
  e.types.symbol e.method

def blockLabel (b : BlockId) : String :=
  s!"{e.symbol}$b{b.index}"

/-! ## Registers -/

def countSize : Nat := 65536

def paramCount : Nat :=
  e.decl.params.length % countSize

def paramRegister (index : Nat) : Register :=
  ⟨index + 1⟩

/-- The register of a place: it lies above those of the parameters. -/
def placeRegister (place : Nat) : Register :=
  ⟨e.paramCount + 1 + place⟩

def takeRegister (p : Place) : Writer Register := do
  let register := e.placeRegister (← get).places.length
  if register.number < registerCount then
    modify fun s => { s with places := (s.places.take p).2 }
    return register
  else throw (.outOfRegisters e.symbol)

def valueRegister (id : InstrId) : Writer Register := do
  match (← get).places.number? (.value id) with
  | some place => return e.placeRegister place
  | none => throw (.unsupported .machine (.undefinedValue id e.symbol))

/-- The register of a variable, taken when it is first used. -/
def bindingRegister (b : BindingId) : Writer Register := do
  match (← get).places.number? (.binding b) with
  | some place => return e.placeRegister place
  | none => e.takeRegister (.binding b)

/-- All registers that hold an argument, a value or a variable. -/
def registersInUse : Writer (List Register) := do
  let places := (← get).places
  return (List.range (e.paramCount + places.length)).map paramRegister

/-! ## Instructions -/

/-- Label of a text, which is kept for the data of the program. -/
def stringSource (s : String) : Writer Source := do
  let strings := (← get).strings
  match strings.findIdx? (· == s) with
  | some i => return .label (stringLabel i)
  | none =>
    modify fun w => { w with strings := strings ++ [s] }
    return .label (stringLabel strings.length)

/-- A constant as a word of the machine, with a note that shows a fraction. -/
def constantSource (c : Constant) : Writer (Source × Option String) := do
  match c with
  | .string s => return (← stringSource s, none)
  | .float32 x => return (.int x.bits.toNat, some (x.plain ++ "f32"))
  | .float64 x => return (.int x.bits.toNat, some (x.plain ++ "f64"))
  | .null => return (.int 0, none)
  | _ =>
    match c.asInt? with
    | some v => return (.int v, none)
    | none => throw (.unsupported .machine (.constant c.text))

/-- Copies something to the register of a new value. -/
def define (id : InstrId) (source : Source) (note : Option String := none) :
    Writer (List Line) := do
  return [.copy source (← e.takeRegister (.value id)) note]

/-- The constant behind a value, looking through at most `fuel` loads. -/
def constantOf (g : FlowGraph) : Nat → InstrId → Option Constant
  | 0, _ => none
  | fuel + 1, id =>
    match g.instruction? id with
    | some (.constant value _) => some value
    | some (.load _ source) => constantOf g fuel source
    | _ => none

def constant? (id : InstrId) : Option Constant :=
  constantOf e.graph (e.graph.instructionCount + 1) id

def intrinsic (name : String) (args : List InstrId) : Writer (List Line) :=
  match (args.mapM e.constant?).bind (Intrinsic.expand name) with
  | some text => return (Text.lines text).map .operation
  | none => throw (.intrinsicArgument name)

/-- A method with a result leaves it in register 0. -/
def yields (m : Method) : Bool :=
  m.returnType.isSome && m.returnType != e.types.primitive? .void

/-- A call: registers in use are saved, the arguments pass through the stack to their registers,
and the result is kept before the saved registers come back. -/
def call (id : InstrId) (m : MethodRef) (args : List InstrId) :
    Writer (List Line) := do
  let callee ← EmitError.ofDefect (e.types.methodEntry m)
  if e.types.isIntrinsic m then e.intrinsic callee.name args
  else if (e.types.get m.type).origin = .external then
    throw (.unsupported .machine (.externalCall (e.types.methodName m)))
  else
    let saved ← e.registersInUse
    let values ← args.mapM e.valueRegister
    let params := (List.range args.length).map paramRegister
    let result ← if e.yields callee then e.define id (.register .result) else pure []
    return saved.map .push ++ values.map .push ++ params.reverse.map .pop ++
      .call (e.types.symbol m) :: (result ++ saved.reverse.map .pop)

def instruction (id : InstrId) : Instruction → Writer (List Line)
  | .constant value _ => do
    let target ← e.takeRegister (.value id)
    let (source, note) ← constantSource value
    return [.copy source target note]
  | .load _ source => do
    let value ← e.valueRegister source
    e.define id (.register value)
  | .loadArg (.param index) => do
    let target ← e.takeRegister (.value id)
    let number ← EmitError.ofDefect (Defect.next (pow2 64) index)
    return [.copy (.register ⟨number⟩) target]
  | .loadArg .this | .storeField .. => throw (.unsupported .machine (.objectAccess e.symbol))
  | .loadLocal binding => do
    let value ← e.bindingRegister binding
    e.define id (.register value)
  | .alloca binding _ init => do
    let target ← e.bindingRegister binding
    match init with
    | some init => return [.copy (.register (← e.valueRegister init)) target]
    | none => return [.copy (.int 0) target]
  | .binary op _ lhs rhs => do
    let left ← e.valueRegister lhs
    let right ← e.valueRegister rhs
    return [.binary op left right (← e.takeRegister (.value id))]
  | .call method args => e.call id method args
  | .newObject ctor _ => e.define id (.int 0) ("new " ++ (e.types.get ctor.type).name.text)

def flow : Flow → Writer (List Line)
  | .ret (some value) => do
    return [.copy (.register (← e.valueRegister value)) .result, .ret]
  | .ret none => return [.ret]
  | .jump b => return [.jump (e.blockLabel b)]
  | .unreachable => return [.halt]

/-- A block; all but the first have labels of their own. -/
def block (b : BlockId × Block) : Writer (List Line) := do
  let label := if b.1 = .entry then [] else [Line.label (e.blockLabel b.1)]
  let steps ← (e.graph.instructionsOf b.2).mapM fun (id, i) => e.instruction id i
  return label ++ steps.flatten ++ (← e.flow b.2.flow)

/-- The whole method. The first register above its parameters has to have a number. -/
def lines : Writer (List Line) := do
  let _ ← EmitError.ofDefect (Defect.next countSize e.paramCount)
  let blocks ← e.graph.numberedBlocks.mapM e.block
  return .label e.symbol :: .note (e.types.methodName e.method) :: blocks.flatten

end MethodScope

/-! ## Whole programs -/

/-- A method of the program after the texts used so far; gives its lines and all texts. -/
def methodLines (t : TypeTable) (strings : List String) (ref : MethodRef) :
    Except EmitError (List Line × List String) :=
  let m := t.method ref
  let name := t.methodName ref
  if !m.isStatic then .ok ([.remark ("skipped instance method " ++ name)], strings)
  else
    match m.body with
    | none => .ok ([.remark (name ++ " has no body")], strings)
    | some graph => do
      let scope : MethodScope := { types := t, method := ref, graph }
      let (lines, s) ← scope.lines.run { strings }
      return (lines, s.strings)

/-- Methods one after the other, each after an empty line. -/
def methodsLines (t : TypeTable) :
    List String → List MethodRef → Except EmitError (List Line × List String)
  | strings, [] => .ok ([], strings)
  | strings, ref :: rest => do
    let (lines, strings) ← methodLines t strings ref
    let (others, strings) ← methodsLines t strings rest
    return (.blank :: (lines ++ others), strings)

/-- The methods that the program defines, in order. -/
def definedMethods (t : TypeTable) : List MethodRef :=
  t.defined.flatMap fun (type, d) => (List.range d.methods.length).map fun i => ⟨type, i⟩

/-- The texts of the program, each after its label. -/
def dataLines (strings : List String) : List Line :=
  if strings.isEmpty then []
  else .blank :: .remark "data" :: strings.zipIdx.flatMap fun (s, i) =>
    [.label (stringLabel i), .string s]

/-- Where the program starts: it calls its entry point. -/
def startLines (a : Assembly) : Except Defect (List Line) := do
  let _ ← a.entryPoint.mapM a.types.methodEntry
  return [.remark ("Backseater 2k assembly for " ++ a.name),
   .remark s!"Generated by the Backlang compiler, loaded at {entryPoint}",
   .blank,
   .setStack stackStart] ++
  (a.entryPoint.toList.map fun m => .call (a.types.symbol m)) ++ [.halt]

end Machine

namespace Assembly

/-- The lines of an assembly as a program for the machine. -/
def machineLines (a : Assembly) : Except EmitError (List Machine.Line) := do
  let start ← EmitError.ofDefect (Machine.startLines a)
  let (lines, strings) ← Machine.methodsLines a.types [] (Machine.definedMethods a.types)
  return start ++ lines ++ Machine.dataLines strings

def machineText (a : Assembly) : Except EmitError String :=
  a.machineLines.map Machine.Line.textOf

end Assembly

end TreeCompiler
