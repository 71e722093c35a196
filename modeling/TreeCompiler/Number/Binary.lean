import TreeCompiler.Number.Power

/-!
# Binary floating-point numbers

A floating-point number is kept as its bit pattern, `Single` in 32 bits and `Double` in 64, and is
read as a sign with a natural significand times a power of two. All arithmetic is exact on natural
numbers with one rounding at the end, to the nearest number and on a tie to the even one.
-/

namespace TreeCompiler.Number

/-- A binary format: bits of the significand, the leading one included, and of the exponent. -/
structure Format where
  precision : Nat
  exponentBits : Nat

def single : Format := ⟨24, 8⟩

def double : Format := ⟨53, 11⟩

/-- What a bit pattern stands for: a number is `significand * 2 ^ power`. -/
inductive Reading where
  | finite (negative : Bool) (significand : Nat) (power : Int)
  | infinite (negative : Bool)
  | undefined
deriving DecidableEq, Repr

namespace Format

variable (f : Format)

/-- Power of two of the last bit of the smallest numbers. -/
def lowestPower : Int :=
  3 - (pow2 (f.exponentBits - 1) : Nat) - f.precision

def infinityBits : Nat :=
  (pow2 f.exponentBits - 1) * pow2 (f.precision - 1)

def signBit : Nat :=
  pow2 (f.exponentBits + f.precision - 1)

def read (bits : Nat) : Reading :=
  let negative := f.signBit ≤ bits
  let fraction := bits % pow2 (f.precision - 1)
  let exponent := bits / pow2 (f.precision - 1) % pow2 f.exponentBits
  if exponent = pow2 f.exponentBits - 1 then
    if fraction = 0 then .infinite negative else .undefined
  else if exponent = 0 then .finite negative fraction f.lowestPower
  else .finite negative (pow2 (f.precision - 1) + fraction) (f.lowestPower + (exponent - 1))

end Format

/-- Quotient rounded to the nearest natural number, a tie to the even one. -/
def roundDiv (n d : Nat) : Nat :=
  let quotient := n / d
  let twice := 2 * (n % d)
  if twice < d then quotient
  else if d < twice then quotient + 1
  else quotient + quotient % 2

/-- Exponent of the largest power of two that is at most `n / d`. -/
def floorLog2 (n d : Nat) : Int :=
  let guess : Int := (n.log2 : Int) - d.log2
  if d * pow2 guess.toNat ≤ n * pow2 (-guess).toNat then guess else guess - 1

namespace Format

variable (f : Format)

/-- Bit pattern of the number nearest to `n / d`. -/
def ofRatio (n d : Nat) : Nat :=
  if n = 0 then 0
  else
    let power := max (floorLog2 n d - (f.precision - 1 : Nat)) f.lowestPower
    let significand := roundDiv (n * pow2 (-power).toNat) (d * pow2 power.toNat)
    let bits :=
      if significand < pow2 (f.precision - 1) then significand
      else ((power - f.lowestPower).toNat + 1) * pow2 (f.precision - 1)
        + (significand - pow2 (f.precision - 1))
    min bits f.infinityBits

/-- Bit pattern of the number nearest to `significand * 2 ^ power`. -/
def ofParts (negative : Bool) (significand : Nat) (power : Int) : Nat :=
  (if negative then f.signBit else 0)
    + f.ofRatio (significand * pow2 power.toNat) (pow2 (-power).toNat)

/-- Bit pattern of what was read, rounded to this format. -/
def ofReading : Reading → Nat
  | .finite negative significand power => f.ofParts negative significand power
  | .infinite negative => (if negative then f.signBit else 0) + f.infinityBits
  | .undefined => f.infinityBits + pow2 (f.precision - 2)

end Format

/-- The integer part of what was read; zero where there is no number. -/
def Reading.truncate : Reading → Option Int
  | .finite negative significand power =>
    let size : Int := (significand * pow2 power.toNat / pow2 (-power).toNat : Nat)
    some (if negative then -size else size)
  | .infinite _ => none
  | .undefined => some 0

def Reading.isNegative : Reading → Bool
  | .finite negative _ _ => negative
  | .infinite negative => negative
  | .undefined => false

structure Single where
  bits : UInt32
deriving DecidableEq, Repr, Inhabited

structure Double where
  bits : UInt64
deriving DecidableEq, Repr, Inhabited

namespace Single

def read (x : Single) : Reading :=
  single.read x.bits.toNat

def widen (x : Single) : Double :=
  ⟨UInt64.ofNat (double.ofReading x.read)⟩

end Single

namespace Double

def read (x : Double) : Reading :=
  double.read x.bits.toNat

def narrow (x : Double) : Single :=
  ⟨UInt32.ofNat (single.ofReading x.read)⟩

def ofNat (n : Nat) : Double :=
  ⟨UInt64.ofNat (double.ofRatio n 1)⟩

def ofInt (i : Int) : Double :=
  ⟨UInt64.ofNat (double.ofParts (i < 0) i.natAbs 0)⟩

def isFinite (x : Double) : Bool :=
  match x.read with
  | .finite .. => true
  | _ => false

def neg (x : Double) : Double :=
  ⟨x.bits ^^^ 0x8000000000000000⟩

def times (x y : Double) : Double :=
  match x.read, y.read with
  | .finite _ m p, .finite _ n q => ⟨UInt64.ofNat (double.ofParts false (m * n) (p + q))⟩
  | _, _ => ⟨UInt64.ofNat double.infinityBits⟩

/-- Quotient of two magnitudes, the second not zero. -/
def dividedBy (x y : Double) : Double :=
  match x.read, y.read with
  | .finite _ m p, .finite _ n q =>
    ⟨UInt64.ofNat (double.ofRatio (m * pow2 (p - q).toNat) (n * pow2 (q - p).toNat))⟩
  | _, _ => ⟨UInt64.ofNat double.infinityBits⟩

/-- `significand` times a power of ten, one step of at most 308 powers at a time, each step rounded;
absent when the number is too large. -/
def scaled (significand : Double) (exponent : Int) : Option Double :=
  if exponent.natAbs ≤ 308 then
    let power := ofNat (pow10 exponent.natAbs)
    if exponent < 0 then some (significand.dividedBy power)
    else
      let product := significand.times power
      if product.isFinite then some product else none
  else if significand.bits = 0 then some significand
  else if 0 ≤ exponent then none
  else scaled (significand.dividedBy (ofNat (pow10 308))) (exponent + 308)
termination_by (-exponent).toNat
decreasing_by omega

end Double

end TreeCompiler.Number
