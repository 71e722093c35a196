import TreeCompiler.Operator
import TreeCompiler.Text.Quoted

/-!
# Lines of assembly text
-/

namespace TreeCompiler.Machine

structure Register where
  number : Nat
deriving DecidableEq, Repr

/-- The register in which a method leaves its result. -/
def Register.result : Register := ⟨0⟩

def Register.text (r : Register) : String :=
  s!"R{r.number}"

inductive Source where
  | register (r : Register)
  | int (value : Int)
  | label (name : String)
deriving DecidableEq, Repr

def Source.text : Source → String
  | .register r => r.text
  | .int value => toString value
  | .label name => name

inductive Line where
  | blank
  /-- A remark at the start of a line. -/
  | remark (text : String)
  /-- A remark in line with the code. -/
  | note (text : String)
  | label (name : String)
  | copy (source : Source) (target : Register) (comment : Option String := none)
  /-- Copies an address to the stack pointer. -/
  | setStack (address : Nat)
  | binary (op : Operator) (lhs rhs target : Register)
  | push (r : Register)
  | pop (r : Register)
  | call (label : String)
  | jump (label : String)
  | ret
  | halt
  /-- A line of an operation of the machine. -/
  | operation (text : String)
  | string (value : String)
deriving DecidableEq, Repr

/-- Name of an operator; quotient and remainder come from one instruction. -/
def mnemonic : Operator → String
  | .add => "add"
  | .sub => "sub"
  | .mul => "mult"
  | .div | .rem => "divmod"
  | .bitAnd => "and"
  | .bitOr => "or"
  | .bitXor => "xor"
  | .shl => "lshift"
  | .shr => "rshift"
  | .eq => "comp_eq"
  | .ne => "comp_neq"
  | .lt => "comp_lt"
  | .le => "comp_le"
  | .gt => "comp_gt"
  | .ge => "comp_ge"

/-- Registers that an operator writes: the part of a division that is not asked for goes to the
register of results. -/
def targets (op : Operator) (target : Register) : List Register :=
  match op with
  | .div => [target, .result]
  | .rem => [.result, target]
  | _ => [target]

namespace Line

def code (text : String) : String :=
  "    " ++ text

def text : Line → String
  | .blank => ""
  | .remark words => "; " ++ words
  | .note words => code ("; " ++ words)
  | .label name => name ++ ":"
  | .copy source target none => code s!"copy {source.text}, {target.text}"
  | .copy source target (some comment) => code s!"copy {source.text}, {target.text} ; {comment}"
  | .setStack address => code s!"copy {address}, SP"
  | .binary op lhs rhs target =>
    code (mnemonic op ++ " " ++
      ", ".intercalate ((lhs :: rhs :: targets op target).map Register.text))
  | .push r => code ("push " ++ r.text)
  | .pop r => code ("pop " ++ r.text)
  | .call name => code ("call " ++ name)
  | .jump name => code ("jump " ++ name)
  | .ret => code "return"
  | .halt => code "halt"
  | .operation words => code words
  | .string value => code (".string " ++ Text.Quoted.ascii value)

/-- Lines as one text; every line ends in a line feed. -/
def textOf (lines : List Line) : String :=
  String.join (lines.map fun l => l.text ++ "\n")

end Line

end TreeCompiler.Machine
