/-!
# Binary operators

The operators with their symbols and precedences. All of them associate to the left, and a higher
precedence binds tighter.
-/

namespace TreeCompiler

inductive Operator where
  | add | sub | mul | div | rem
  | bitAnd | bitOr | bitXor | shl | shr
  | eq | ne | lt | le | gt | ge
deriving DecidableEq, Repr

inductive Associativity where
  | left
  | right
deriving DecidableEq, Repr

namespace Operator

def all : List Operator :=
  [.add, .sub, .mul, .div, .rem, .bitAnd, .bitOr, .bitXor, .shl, .shr, .eq, .ne, .lt, .le, .gt, .ge]

def symbol : Operator → String
  | .add => "+"
  | .sub => "-"
  | .mul => "*"
  | .div => "/"
  | .rem => "%"
  | .bitAnd => "&"
  | .bitOr => "|"
  | .bitXor => "^"
  | .shl => "<<"
  | .shr => ">>"
  | .eq => "=="
  | .ne => "!="
  | .lt => "<"
  | .le => "<="
  | .gt => ">"
  | .ge => ">="

def precedence : Operator → Nat
  | .mul | .div | .rem => 10
  | .add | .sub => 9
  | .shl | .shr => 8
  | .lt | .le | .gt | .ge => 7
  | .eq | .ne => 6
  | .bitAnd => 5
  | .bitXor => 4
  | .bitOr => 3

def associativity : Operator → Associativity
  | _ => .left

def ofSymbol? (s : String) : Option Operator :=
  all.find? (·.symbol == s)

/-- What is said about a text that is no operator. -/
def unknownMessage (s : String) : String :=
  s!"unknown operator `{s}`"

/-- A comparison yields a truth value whatever its operands are. -/
def isComparison : Operator → Bool
  | .eq | .ne | .lt | .le | .gt | .ge => true
  | _ => false

end Operator

end TreeCompiler
