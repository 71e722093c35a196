/-!
# Targets

The two kinds of output: a container of metadata and stack code for a managed runtime, and assembly
text for a machine with registers.
-/

namespace TreeCompiler

inductive Target where
  | managed
  | machine
deriving DecidableEq, Repr

namespace Target

def all : List Target :=
  [.managed, .machine]

def name : Target → String
  | .managed => "dotnet"
  | .machine => "bs2k"

def extension : Target → String
  | .managed => "dll"
  | .machine => "bsm"

/-- The machine has operations that programs call like methods. -/
def hasIntrinsics : Target → Bool
  | .managed => false
  | .machine => true

def ofName? (name : String) : Option Target :=
  all.find? (·.name == name)

def unknownMessage (name : String) : String :=
  s!"unknown target '{name}' (expected dotnet or bs2k)"

end Target

structure Options where
  /-- Name of the output without its suffix. -/
  output : String := "output"
  target : Target := .managed
deriving DecidableEq, Repr

def Options.path (o : Options) : String :=
  o.output ++ "." ++ o.target.extension

end TreeCompiler
