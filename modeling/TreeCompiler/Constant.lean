import TreeCompiler.Number.Decimal
import TreeCompiler.Text.Quoted
import TreeCompiler.Tree

/-!
# Constants

The values that instructions, fields, parameters and attributes carry. `ofLiteral` takes them from
the source, `convert` moves a number to another type, and `ofInt` makes an integer of the width that
a type asks for.
-/

namespace TreeCompiler

open Number

inductive Constant where
  | int (kind : IntKind) (value : Int)
  | float32 (value : Single)
  | float64 (value : Double)
  | string (value : String)
  | char (value : Char)
  | bool (value : Bool)
  | null
deriving DecidableEq, Repr

namespace Constant

def i32 (value : Int) : Constant :=
  .int .i32 value

/-- An integer of the kind of a type, of 32 bits and signed where the type has none; the value is
wrapped to that width. -/
def ofInt (value : Int) (type : Option Primitive) : Constant :=
  let kind := (type.bind Primitive.intKind?).getD .i32
  .int kind (kind.wrap value)

/-- Numbers of half precision have no constant form. -/
def ofLiteral : Literal → Constant
  | .bool v => .bool v
  | .char c => .char c
  | .string s => .string s
  | .int i => .int i.kind i.value
  | .f32 x => .float32 x
  | .f64 x => .float64 x
  | .f16 _ | .null => .null

def isNumber : Constant → Bool
  | .int .. | .float32 _ | .float64 _ => true
  | .string _ | .char _ | .bool _ | .null => false

def double? : Constant → Option Double
  | .int _ v => some (.ofInt v)
  | .char c => some (.ofNat c.toNat)
  | .float32 x => some x.widen
  | .float64 x => some x
  | _ => none

/-- Integer part of a double, kept within 128 bits with a sign. -/
def truncate (x : Double) : Int :=
  match x.read.truncate with
  | some i => max (-pow2 127) (min i (pow2 127 - 1))
  | none => if x.read.isNegative then -pow2 127 else pow2 127 - 1

def integer? : Constant → Option Int
  | .int _ v => some v
  | .char c => some c.toNat
  | .float32 x => some (truncate x.widen)
  | .float64 x => some (truncate x)
  | _ => none

/-- The character of a 16-bit code, unless it is half of a pair. -/
def ofCode (code : Nat) : Constant :=
  if code.isValidChar then .char (Char.ofNat code) else .null

/-- A number of another type; what is no number stays as it is. -/
def convert (c : Constant) (target : Primitive) : Constant :=
  match c.integer?, c.double? with
  | some i, some x =>
    match target with
    | .char => ofCode (IntKind.u16.wrap i).toNat
    | .int k => .int k (k.wrap i)
    | .f32 => .float32 x.narrow
    | .f64 => .float64 x
    | .f16 => .null
    | .void | .bool | .string | .object => c
  | _, _ => c

/-- A constant after each of a chain of conversions. -/
def conversions : Constant → List Primitive → List Constant
  | _, [] => []
  | c, p :: rest => c.convert p :: conversions (c.convert p) rest

/-- A number or a truth value as an integer of 64 bits with a sign, if it fits. -/
def asInt? : Constant → Option Int
  | .int _ v => if IntKind.i64.holds v then some v else none
  | .char c => some c.toNat
  | .bool b => some (if b then 1 else 0)
  | _ => none

def text : Constant → String
  | .int k v => toString v ++ k.suffix
  | .float32 x => x.precise ++ "f32"
  | .float64 x => x.precise ++ "f64"
  | .string s => Text.Quoted.ascii s
  | .char c => Text.Quoted.char c
  | .bool b => if b then "true" else "false"
  | .null => "null"

end Constant

end TreeCompiler
