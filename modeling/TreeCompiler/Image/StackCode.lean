import TreeCompiler.Handle
import TreeCompiler.Image.Rows
import TreeCompiler.Number.Binary

/-!
# Stack code

Instructions of the managed runtime and their bytes. Jumps name blocks until the blocks are laid
out one after the other; then they hold the distance from the end of the jump.
-/

namespace TreeCompiler

open Number

inductive Arithmetic where
  | add | sub | mul
  | div | divUnsigned
  | rem | remUnsigned
  | and | or | xor
  | shl
  | shr | shrUnsigned
deriving DecidableEq, Repr

def Arithmetic.code : Arithmetic → UInt8
  | .add => 0x58
  | .sub => 0x59
  | .mul => 0x5A
  | .div => 0x5B
  | .divUnsigned => 0x5C
  | .rem => 0x5D
  | .remUnsigned => 0x5E
  | .and => 0x5F
  | .or => 0x60
  | .xor => 0x61
  | .shl => 0x62
  | .shr => 0x63
  | .shrUnsigned => 0x64

inductive Comparison where
  | equal
  | greater | greaterUnsigned
  | less | lessUnsigned
deriving DecidableEq, Repr

def Comparison.code : Comparison → UInt8
  | .equal => 0x01
  | .greater => 0x02
  | .greaterUnsigned => 0x03
  | .less => 0x04
  | .lessUnsigned => 0x05

inductive StackInstr where
  | loadNull
  | loadZero
  | loadInt32 (value : Int)
  | loadInt64 (value : Int)
  | loadSingle (value : Single)
  | loadDouble (value : Double)
  | loadString (text : Token)
  | loadArg (index : Nat)
  | loadLocal (slot : Nat)
  | storeLocal (slot : Nat)
  | storeField (field : Token)
  | arithmetic (op : Arithmetic)
  | compare (op : Comparison)
  | call (method : Token)
  | newObject (ctor : Token)
  | ret
  | jump (target : BlockId)
  | throw
deriving DecidableEq, Repr

namespace StackInstr

/-- First byte of the instructions that take two. -/
def wide : UInt8 := 0xFE

/-- Bytes of an instruction; `distance` says how far a block lies from the end of the
instruction. -/
def bytes (distance : BlockId → Int) : StackInstr → Blob
  | .loadNull => [0x14]
  | .loadZero => [0x16]
  | .loadInt32 v => 0x20 :: Blob.ofInt 4 v
  | .loadInt64 v => 0x21 :: Blob.ofInt 8 v
  | .loadSingle x => 0x22 :: Blob.u32 x.bits
  | .loadDouble x => 0x23 :: Blob.ofNat 8 x.bits.toNat
  | .loadString t => 0x72 :: t.bytes
  | .loadArg i => wide :: 0x09 :: Blob.ofNat 2 i
  | .loadLocal i => wide :: 0x0C :: Blob.ofNat 2 i
  | .storeLocal i => wide :: 0x0E :: Blob.ofNat 2 i
  | .storeField t => 0x7D :: t.bytes
  | .arithmetic op => [op.code]
  | .compare op => [wide, op.code]
  | .call t => 0x28 :: t.bytes
  | .newObject t => 0x73 :: t.bytes
  | .ret => [0x2A]
  | .jump b => 0x38 :: Blob.ofInt 4 (distance b)
  | .throw => [0x7A]

def size (i : StackInstr) : Nat :=
  (i.bytes fun _ => 0).length

end StackInstr

namespace StackCode

def size : List StackInstr → Nat
  | [] => 0
  | i :: rest => i.size + size rest

/-- Offsets at which blocks start that lie one after the other from `at_` on. -/
def starts : Nat → List (List StackInstr) → List Nat
  | _, [] => []
  | at_, block :: rest => at_ :: starts (at_ + size block) rest

/-- Distance from an offset to a block; a block that does not exist is no distance away. -/
def distance (starts : List Nat) (from_ : Nat) (b : BlockId) : Int :=
  match starts[b.index]? with
  | some start => (start : Int) - from_
  | none => 0

/-- Bytes of instructions that lie from `at_` on. -/
def encode (starts : List Nat) : Nat → List StackInstr → Blob
  | _, [] => []
  | at_, i :: rest =>
    let next := at_ + i.size
    i.bytes (distance starts next) ++ encode starts next rest

/-- Bytes of blocks that lie one after the other. -/
def assemble (blocks : List (List StackInstr)) : Blob :=
  encode (starts 0 blocks) 0 blocks.flatten

end StackCode

end TreeCompiler
