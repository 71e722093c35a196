import TreeCompiler.Number.Power
import TreeCompiler.Text.Lines

/-!
# Bytes of a container

Integers are little-endian. A text or a blob is preceded by its length in four bytes, a list by its
number of entries, and an optional part by a byte that is one if the part is there.
-/

namespace TreeCompiler

abbrev Blob := List UInt8

namespace Blob

/-- The low `width` bytes of a number, lowest first. -/
def ofNat : Nat → Nat → Blob
  | 0, _ => []
  | width + 1, n => UInt8.ofNat n :: ofNat width (n / 256)

/-- The number that bytes, lowest first, stand for. -/
def toNat : Blob → Nat
  | [] => 0
  | b :: bs => b.toNat + 256 * toNat bs

@[simp]
theorem length_ofNat (width n : Nat) : (ofNat width n).length = width := by
  induction width generalizing n with
  | zero => rfl
  | succ width ih => simp [ofNat, ih]

theorem toNat_ofNat (width n : Nat) : toNat (ofNat width n) = n % Nat.pow 256 width := by
  induction width generalizing n with
  | zero => exact (Nat.mod_one n).symm
  | succ width ih =>
    simp only [ofNat, toNat, ih, UInt8.toNat_ofNat']
    rw [show Nat.pow 256 (width + 1) = 256 * Nat.pow 256 width from Nat.mul_comm ..]
    exact Nat.mod_mul.symm

def ofInt (width : Nat) (i : Int) : Blob :=
  ofNat width (i % pow2 (8 * width)).toNat

def u16 (n : UInt16) : Blob :=
  ofNat 2 n.toNat

def u32 (n : UInt32) : Blob :=
  ofNat 4 n.toNat

def size (n : Nat) : Blob :=
  ofNat 4 n

def sized (bytes : Blob) : Blob :=
  size bytes.length ++ bytes

def text (s : String) : Blob :=
  sized (Text.utf8 s)

def list {α : Type} (write : α → Blob) (as : List α) : Blob :=
  size as.length ++ as.flatMap write

def optional {α : Type} (write : α → Blob) : Option α → Blob
  | some a => 1 :: write a
  | none => [0]

def hexByte (b : UInt8) : List Char :=
  [Nat.digitChar (b.toNat / 16), Nat.digitChar (b.toNat % 16)]

def hex (bytes : Blob) : String :=
  .ofList (bytes.flatMap hexByte)

end Blob

end TreeCompiler
