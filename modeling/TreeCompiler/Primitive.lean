import TreeCompiler.Number.Power

/-!
# Built-in types

The scalar and reference types every program can use, the widths of the integer ones, and the short
spellings under which source text names them.
-/

namespace TreeCompiler

inductive IntKind where
  | i8 | i16 | i32 | i64
  | u8 | u16 | u32 | u64
deriving DecidableEq, Repr

namespace IntKind

def all : List IntKind :=
  [.i8, .i16, .i32, .i64, .u8, .u16, .u32, .u64]

def bytes : IntKind → Nat
  | .i8 | .u8 => 1
  | .i16 | .u16 => 2
  | .i32 | .u32 => 4
  | .i64 | .u64 => 8

def bits (k : IntKind) : Nat :=
  8 * k.bytes

def signed : IntKind → Bool
  | .i8 | .i16 | .i32 | .i64 => true
  | .u8 | .u16 | .u32 | .u64 => false

def suffix : IntKind → String
  | .i8 => "i8"
  | .i16 => "i16"
  | .i32 => "i32"
  | .i64 => "i64"
  | .u8 => "u8"
  | .u16 => "u16"
  | .u32 => "u32"
  | .u64 => "u64"

def lowest (k : IntKind) : Int :=
  if k.signed then -pow2 (k.bits - 1) else 0

def limit (k : IntKind) : Int :=
  if k.signed then pow2 (k.bits - 1) else pow2 k.bits

def holds (k : IntKind) (value : Int) : Bool :=
  k.lowest ≤ value && value < k.limit

/-- The value of this kind that agrees with `value` modulo two to the width. -/
def wrap (k : IntKind) (value : Int) : Int :=
  if k.signed then value.bmod (pow2 k.bits) else value % pow2 k.bits

theorem holds_wrap (k : IntKind) (value : Int) : k.holds (k.wrap value) = true := by
  have pos : 0 < pow2 k.bits := Nat.pow_pos (by decide)
  have low := Int.le_bmod (x := value) pos
  have high := Int.bmod_lt (x := value) pos
  have eq : ∀ n : Nat, Nat.pow 2 n = 2 ^ n := fun _ => rfl
  cases k <;>
    simp only [holds, wrap, lowest, limit, signed, bits, bytes, pow2, eq, if_true,
      Bool.false_eq_true, if_false, Bool.and_eq_true, decide_eq_true_eq] at low high ⊢ <;>
    omega

end IntKind

structure Integer where
  kind : IntKind
  value : Int
  inRange : kind.holds value = true
deriving DecidableEq, Repr

namespace Integer

def ofInt? (kind : IntKind) (value : Int) : Option Integer :=
  if h : kind.holds value = true then some ⟨kind, value, h⟩ else none

/-- The integer of a kind that agrees with `value` modulo two to the width. -/
def ofWrapped (kind : IntKind) (value : Int) : Integer :=
  ⟨kind, kind.wrap value, kind.holds_wrap value⟩

end Integer

inductive Primitive where
  | void | bool | char
  | int (kind : IntKind)
  | f16 | f32 | f64
  | string | object
deriving DecidableEq, Repr

namespace Primitive

/-- Kind of the integers of this type; a character counts as an unsigned one of 16 bits. -/
def intKind? : Primitive → Option IntKind
  | .int k => some k
  | .char => some .u16
  | _ => none

def isFloat : Primitive → Bool
  | .f16 | .f32 | .f64 => true
  | _ => false

def isValueType : Primitive → Bool
  | .string | .object | .void => false
  | _ => true

def systemName : Primitive → String
  | .void => "Void"
  | .bool => "Boolean"
  | .char => "Char"
  | .int .i8 => "SByte"
  | .int .u8 => "Byte"
  | .int .i16 => "Int16"
  | .int .u16 => "UInt16"
  | .int .i32 => "Int32"
  | .int .u32 => "UInt32"
  | .int .i64 => "Int64"
  | .int .u64 => "UInt64"
  | .f16 => "Half"
  | .f32 => "Single"
  | .f64 => "Double"
  | .string => "String"
  | .object => "Object"

/-- Spellings in source text, with the platform types they stand for. -/
def aliases : List (String × String) :=
  [("obj", "Object"), ("bool", "Boolean"),
   ("i8", "SByte"), ("i16", "Int16"), ("i32", "Int32"), ("i64", "Int64"),
   ("u8", "Byte"), ("u16", "UInt16"), ("u32", "UInt32"), ("u64", "UInt64"),
   ("f16", "Half"), ("f32", "Single"), ("f64", "Double"),
   ("char", "Char"), ("string", "String"), ("none", "Void")]

def aliasTarget? (spelling : String) : Option String :=
  aliases.lookup spelling

end Primitive

end TreeCompiler
