import TreeCompiler.Assembly
import TreeCompiler.Tree.Text

/-!
# Assemblies as text

A listing of the types that the program declares, with the instructions of every body.
-/

namespace TreeCompiler

def InstrId.text (i : InstrId) : String :=
  s!"%{i.index}"

def BindingId.text (b : BindingId) : String :=
  s!"b{b.block.index}.{b.index}"

def argumentTexts (args : List InstrId) : String :=
  "(" ++ commaList (args.map InstrId.text) ++ ")"

def Instruction.text (t : TypeTable) : Instruction → String
  | .constant value type => "const " ++ value.text ++ " : " ++ t.nameOf type
  | .load type source => "load " ++ source.text ++ " : " ++ t.nameOf type
  | .loadArg .this => "arg this"
  | .loadArg (.param i) => s!"arg {i}"
  | .loadLocal binding => "local " ++ binding.text
  | .alloca binding type init =>
    "alloca " ++ binding.text ++ " : " ++ t.nameOf type ++ withLead " = " InstrId.text init
  | .binary op type lhs rhs =>
    op.symbol ++ " " ++ commaList [lhs.text, rhs.text] ++ " : " ++ t.nameOf type
  | .call method args => "call " ++ t.methodName method ++ argumentTexts args
  | .newObject ctor args => "newobj " ++ t.methodName ctor ++ argumentTexts args
  | .storeField field target value =>
    let name := (((t.get field.type).fields[field.index]?).map (·.name)).getD "?"
    "store " ++ target.text ++ "." ++ name ++ " = " ++ value.text

def typedName (t : TypeTable) (name : String) (type : Option TypeId) : String :=
  name ++ ": " ++ t.nameOf type

/-- The word, after a blank, if the flag is set. -/
def flagText (flag : Bool) (word : String) : String :=
  if flag then " " ++ word else ""

def Block.text (t : TypeTable) (g : FlowGraph) (b : Block) : String :=
  "  " ++ b.name
    ++ (if b.params.isEmpty then ""
      else "(" ++ commaList (b.params.map fun p => typedName t p.name p.type) ++ ")")
    ++ ":\n"
    ++ String.join ((g.instructionsOf b).map fun (id, i) =>
      "    " ++ id.text ++ " = " ++ i.text t ++ "\n")
    ++ "    " ++ b.flow.text ++ "\n"

def Method.text (t : TypeTable) (m : Method) : String :=
  "  method " ++ m.visibility.text ++ flagText m.isStatic "static"
    ++ " " ++ m.name
    ++ "(" ++ commaList (m.params.map fun p => typedName t p.name p.type) ++ ")"
    ++ " -> " ++ t.nameOf m.returnType
    ++ match m.body with
      | none => "\n"
      | some g => " \x7b\n" ++ String.join (g.blocks.map (Block.text t g)) ++ "  \x7d\n"

def Field.text (t : TypeTable) (f : Field) : String :=
  "  field " ++ f.visibility.text ++ flagText f.isStatic "static" ++ flagText f.isMutable "mutable"
    ++ " " ++ typedName t f.name f.type ++ withLead " = " Constant.text f.value ++ "\n"

def Property.text (t : TypeTable) (p : Property) : String :=
  let accessor (m : Method) : String := m.visibility.text ++ " " ++ m.name
  "  property " ++ p.visibility.text ++ " " ++ typedName t p.name p.type
    ++ withLead " " accessor p.getter ++ withLead " " accessor p.setter ++ "\n"

def TypeDef.kindText (d : TypeDef) : String :=
  if d.isInterface then "interface" else if d.isValueType then "struct" else "class"

def TypeDef.text (t : TypeTable) (d : TypeDef) : String :=
  String.join (d.attributes.map fun a => "[" ++ (t.get a.type).name.text ++ "]\n")
    ++ d.kindText ++ " " ++ d.name.text
    ++ flagText d.isStatic "static" ++ flagText d.isAbstract "abstract"
    ++ flagText d.isSealed "sealed"
    ++ (if d.bases.isEmpty then ""
      else " : " ++ commaList (d.bases.map fun b => (t.get b).name.text))
    ++ " \x7b\n"
    ++ String.join (d.fields.map (Field.text t))
    ++ String.join (d.properties.map (Property.text t))
    ++ String.join (d.methods.map (Method.text t))
    ++ "\x7d\n"

def Assembly.text (a : Assembly) : String :=
  "; Assembly: " ++ a.name ++ "\n"
    ++ (match a.entryPoint with
      | some m => "; Entry point: " ++ a.types.methodName m ++ "\n"
      | none => "")
    ++ String.join (a.types.defined.map fun d => "\n" ++ d.2.text a.types)

/-! ## Text of assemblies with defects -/

/-- The method that the text of an instruction names. -/
def Instruction.callee? : Instruction → Option MethodRef
  | .call method _ => some method
  | .newObject ctor _ => some ctor
  | _ => none

/-- The methods that the text of a graph names, in order. -/
def FlowGraph.callees (g : FlowGraph) : List MethodRef :=
  g.blocks.flatMap fun b => (g.instructionsOf b).filterMap (·.2.callee?)

/-- The methods that the text of an assembly names, in order. -/
def Assembly.namedMethods (a : Assembly) : List MethodRef :=
  a.entryPoint.toList ++ a.types.defined.flatMap fun d =>
    d.2.methods.flatMap fun m => (m.body.map FlowGraph.callees).getD []

/-- The text of an assembly, or the first of the methods it names that is none. -/
def Assembly.checkedText (a : Assembly) : Except Defect String := do
  let _ ← a.namedMethods.mapM a.types.methodEntry
  return a.text

/-- An instruction is shown by the method it calls, and its result has the type of the variable it
loads: both have to be there. -/
def Instruction.check (t : TypeTable) (g : FlowGraph) (i : Instruction) : Except Defect Unit := do
  let _ ← i.callee?.mapM t.methodEntry
  match i with
  | .loadLocal binding => let _ ← g.paramEntry binding
  | _ => return ()

end TreeCompiler
