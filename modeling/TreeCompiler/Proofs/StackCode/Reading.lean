import TreeCompiler.Image.StackCode

/-!
# Reading stack code

How a runtime reads code: an opcode of one byte, or of two of which the first is `0xFE`, and after it
an operand of the width that the opcode has.

* `Reads code ops` : all of `code` is read as `ops`; `reads_encode` for the code of blocks.
-/

namespace TreeCompiler

open StackInstr Blob
open Number

/-! ## Operands -/

namespace Blob

/-- A number of some width, lowest byte first, and the bytes after it. -/
def readNat (width : Nat) (bytes : Blob) : Option (Nat × Blob) :=
  if width ≤ bytes.length then some (toNat (bytes.take width), bytes.drop width) else none

theorem readNat_ofNat_append (width n : Nat) (rest : Blob) :
    readNat width (ofNat width n ++ rest) = some (n % Nat.pow 256 width, rest) := by
  have hlen : (ofNat width n).length = width := length_ofNat width n
  unfold readNat
  rw [if_pos (by rw [List.length_append, hlen]; exact Nat.le_add_right _ _),
    List.take_left' hlen, List.drop_left' hlen, toNat_ofNat]

theorem ofNat_mod_toNat (width : Nat) (v : Int) :
    BitVec.ofNat (8 * width) ((v % pow2 (8 * width)).toNat % Nat.pow 256 width) = BitVec.ofInt (8 * width) v := by
  have hpow : Nat.pow 256 width = 2 ^ (8 * width) := by
    change 256 ^ width = 2 ^ (8 * width)
    rw [show (256 : Nat) = 2 ^ 8 by rfl, ← Nat.pow_mul]
  apply BitVec.eq_of_toNat_eq
  rw [BitVec.toNat_ofNat, BitVec.toNat_ofInt, hpow, Nat.mod_mod]
  have hpos : (0 : Int) < ((2 ^ (8 * width) : Nat) : Int) := by
    exact_mod_cast Nat.two_pow_pos (8 * width)
  have hlt := Int.emod_lt_of_pos v hpos
  have hnonneg := Int.emod_nonneg v (Int.ne_of_gt hpos)
  change (v % ((2 ^ (8 * width) : Nat) : Int)).toNat % 2 ^ (8 * width) = _
  rw [Nat.mod_eq_of_lt (by omega)]

end Blob

/-! ## Opcodes -/

inductive Opcode where
  | loadNull
  | loadInt32 (bits : BitVec 32)
  | loadInt64 (bits : BitVec 64)
  | loadSingle (value : Single)
  | loadDouble (value : Double)
  | loadString (text : Token)
  | loadArg (index : Nat)
  | loadLocal (slot : Nat)
  | storeLocal (slot : Nat)
  | storeField (field : Token)
  | arithmetic (op : Arithmetic)
  | compare (op : Comparison)
  | call (method : Token)
  | newObject (ctor : Token)
  | ret
  | jump (distance : BitVec 32)
  | throw
deriving DecidableEq, Repr

def Arithmetic.ofCode? (code : UInt8) : Option Arithmetic :=
  [((0x58 : UInt8), Arithmetic.add), (0x59, .sub), (0x5A, .mul), (0x5B, .div), (0x5C, .divUnsigned),
    (0x5D, .rem), (0x5E, .remUnsigned), (0x5F, .and), (0x60, .or), (0x61, .xor), (0x62, .shl),
    (0x63, .shr), (0x64, .shrUnsigned)].lookup code

def Comparison.ofCode? (code : UInt8) : Option Comparison :=
  [((0x01 : UInt8), Comparison.equal), (0x02, .greater), (0x03, .greaterUnsigned), (0x04, .less),
    (0x05, .lessUnsigned)].lookup code

namespace Opcode

def readWide : Blob → Option (Opcode × Blob)
  | [] => none
  | code :: rest =>
    if code = 0x09 then (readNat 2 rest).map fun (n, rest) => (.loadArg n, rest)
    else if code = 0x0C then (readNat 2 rest).map fun (n, rest) => (.loadLocal n, rest)
    else if code = 0x0E then (readNat 2 rest).map fun (n, rest) => (.storeLocal n, rest)
    else (Comparison.ofCode? code).map fun op => (.compare op, rest)

def readToken (make : Token → Opcode) (bytes : Blob) : Option (Opcode × Blob) :=
  (readNat 4 bytes).map fun (n, rest) => (make ⟨UInt32.ofNat n⟩, rest)

/-- The first instruction and the bytes after it. -/
def read : Blob → Option (Opcode × Blob)
  | [] => none
  | code :: rest =>
    if code = 0x14 then some (.loadNull, rest)
    else if code = 0x16 then some (.loadInt32 0, rest)
    else if code = 0x20 then
      (readNat 4 rest).map fun (n, rest) => (.loadInt32 (.ofNat 32 n), rest)
    else if code = 0x21 then
      (readNat 8 rest).map fun (n, rest) => (.loadInt64 (.ofNat 64 n), rest)
    else if code = 0x22 then
      (readNat 4 rest).map fun (n, rest) => (.loadSingle ⟨UInt32.ofNat n⟩, rest)
    else if code = 0x23 then
      (readNat 8 rest).map fun (n, rest) => (.loadDouble ⟨UInt64.ofNat n⟩, rest)
    else if code = 0x28 then readToken .call rest
    else if code = 0x2A then some (.ret, rest)
    else if code = 0x38 then
      (readNat 4 rest).map fun (n, rest) => (.jump (.ofNat 32 n), rest)
    else if code = 0x72 then readToken .loadString rest
    else if code = 0x73 then readToken .newObject rest
    else if code = 0x7A then some (.throw, rest)
    else if code = 0x7D then readToken .storeField rest
    else if code = 0xFE then readWide rest
    else (Arithmetic.ofCode? code).map fun op => (.arithmetic op, rest)

end Opcode

/-- What an instruction is read as: numbers of slots and arguments are in words of 16 bits, integers and
distances in two's complement. -/
def StackInstr.opcode (distance : BlockId → Int) : StackInstr → Opcode
  | .loadNull => .loadNull
  | .loadZero => .loadInt32 0
  | .loadInt32 v => .loadInt32 (.ofInt 32 v)
  | .loadInt64 v => .loadInt64 (.ofInt 64 v)
  | .loadSingle x => .loadSingle x
  | .loadDouble x => .loadDouble x
  | .loadString t => .loadString t
  | .loadArg i => .loadArg (i % 65536)
  | .loadLocal i => .loadLocal (i % 65536)
  | .storeLocal i => .storeLocal (i % 65536)
  | .storeField t => .storeField t
  | .arithmetic op => .arithmetic op
  | .compare op => .compare op
  | .call t => .call t
  | .newObject t => .newObject t
  | .ret => .ret
  | .jump b => .jump (.ofInt 32 (distance b))
  | .throw => .throw

namespace Opcode

theorem readNat_u32_append (n : UInt32) (rest : Blob) : readNat 4 (u32 n ++ rest) = some (n.toNat, rest) := by
  rw [u32, readNat_ofNat_append, Nat.mod_eq_of_lt n.toNat_lt]

theorem readToken_append (make : Token → Opcode) (t : Token) (rest : Blob) :
    readToken make (t.bytes ++ rest) = some (make t, rest) := by
  rw [readToken, Token.bytes, readNat_u32_append]
  simp only [Option.map_some, UInt32.ofNat_toNat]

theorem readNat_ofInt4_append (v : Int) (rest : Blob) : ∃ n, readNat 4 (ofInt 4 v ++ rest) = some (n, rest) ∧
      BitVec.ofNat 32 n = BitVec.ofInt 32 v :=
  ⟨_, readNat_ofNat_append 4 _ rest, ofNat_mod_toNat 4 v⟩

theorem readNat_ofInt8_append (v : Int) (rest : Blob) : ∃ n, readNat 8 (ofInt 8 v ++ rest) = some (n, rest) ∧
      BitVec.ofNat 64 n = BitVec.ofInt 64 v :=
  ⟨_, readNat_ofNat_append 8 _ rest, ofNat_mod_toNat 8 v⟩

/-- The bytes of an instruction are read as that instruction. -/
theorem read_bytes (distance : BlockId → Int) (i : StackInstr) (rest : Blob) :
    read (i.bytes distance ++ rest) = some (i.opcode distance, rest) := by
  cases i with
  | loadNull | loadZero | ret | throw => rfl
  | loadInt32 v =>
    obtain ⟨n, hread, hbits⟩ := readNat_ofInt4_append v rest
    simp [bytes, opcode, read, hread, hbits]
  | loadInt64 v =>
    obtain ⟨n, hread, hbits⟩ := readNat_ofInt8_append v rest
    simp [bytes, opcode, read, hread, hbits]
  | loadSingle x => simp [bytes, opcode, read, readNat_u32_append]
  | loadDouble x =>
    have hmod : x.bits.toNat % Nat.pow 256 8 = x.bits.toNat := Nat.mod_eq_of_lt x.bits.toNat_lt
    simp [bytes, opcode, read, readNat_ofNat_append, hmod]
  | loadString t | storeField t | call t | newObject t => simp [bytes, opcode, read, readToken_append]
  | loadArg k | loadLocal k | storeLocal k => simp [bytes, opcode, wide, read, readWide, readNat_ofNat_append]
  | arithmetic op | compare op => cases op <;> rfl
  | jump b =>
    obtain ⟨n, hread, hbits⟩ := readNat_ofInt4_append (distance b) rest
    simp [bytes, opcode, read, hread, hbits]

end Opcode

/-! ## Whole code -/

inductive Reads : Blob → List Opcode → Prop where
  | nil : Reads [] []
  | cons {code rest : Blob} {op : Opcode} {ops : List Opcode} :
      Opcode.read code = some (op, rest) → Reads rest ops → Reads code (op :: ops)

namespace StackCode

/-- What instructions that lie from `at_` on are read as. -/
def opcodes (starts : List Nat) : Nat → List StackInstr → List Opcode
  | _, [] => []
  | at_, i :: rest =>
    i.opcode (distance starts (at_ + i.size)) :: opcodes starts (at_ + i.size) rest

theorem reads_encode (starts : List Nat) (at_ : Nat) (is : List StackInstr) :
    Reads (encode starts at_ is) (opcodes starts at_ is) := by
  induction is generalizing at_ with
  | nil => exact .nil
  | cons i is ih => exact .cons (Opcode.read_bytes _ i _) (ih _)

section Opcodes
variable {α : Type} {f : Opcode → α}

theorem map_opcodes (hf : ∀ distance (i : StackInstr), f (i.opcode distance) = f (i.opcode fun _ => 0))
    (starts : List Nat) (at_ : Nat) (code : List StackInstr) :
    (opcodes starts at_ code).map f = code.map fun i => f (i.opcode fun _ => 0) := by
  induction code generalizing at_ with
  | nil => rfl
  | cons i code ih => rw [opcodes, List.map_cons, List.map_cons, ih, hf]

end Opcodes

end StackCode

end TreeCompiler
