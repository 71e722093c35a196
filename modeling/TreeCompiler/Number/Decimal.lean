import TreeCompiler.Number.Binary

/-!
# Decimal text of floating-point numbers

`shortest` finds the fewest decimal digits that read back as the same number and, among those, the
ones nearest to it. `plain` writes them without an exponent; `precise` always shows a point or an
exponent, and is positional from `0.0001` up to, but not including, `10 ^ 16`.
-/

namespace TreeCompiler.Number

structure Decimal where
  digits : Nat
  exponent : Int
deriving DecidableEq, Repr

def digitCount (n : Nat) : Nat :=
  (Nat.toDigits 10 n).length

/-- Exponent of the largest power of ten that is at most `n / d`. -/
def floorLog10 (n d : Nat) : Int :=
  let guess : Int := (digitCount n : Int) - digitCount d
  if d * pow10 guess.toNat ≤ n * pow10 (-guess).toNat then guess else guess - 1

/-- The decimal without zeros at the end of its digits. -/
def Decimal.strip : Nat → Decimal → Decimal
  | 0, d => d
  | fuel + 1, d =>
    if d.digits ≠ 0 ∧ d.digits % 10 = 0 then strip fuel ⟨d.digits / 10, d.exponent + 1⟩ else d

/-- The numbers that read back: those between `low` and `high` in units of `2 ^ power`, where the
number itself is `value`; the ends belong to them if `closed`. -/
structure Interval where
  low : Nat
  value : Nat
  high : Nat
  power : Int
  closed : Bool

/-- The nearest decimal of the interval on the grid of multiples of `10 ^ unit`; of two equally
near the larger one. -/
def Interval.onGrid? (i : Interval) (unit : Int) : Option Decimal :=
  let scale := pow10 unit.toNat * pow2 (-i.power).toNat
  let weight := pow2 i.power.toNat * pow10 (-unit).toNat
  let inside (c : Nat) : Bool :=
    if i.closed then i.low * weight ≤ c * scale && c * scale ≤ i.high * weight
    else i.low * weight < c * scale && c * scale < i.high * weight
  let below := i.value * weight / scale
  let above := below + 1
  match inside below, inside above with
  | true, true =>
    if i.value * weight - below * scale < above * scale - i.value * weight
    then some ⟨below, unit⟩ else some ⟨above, unit⟩
  | true, false => some ⟨below, unit⟩
  | false, true => some ⟨above, unit⟩
  | false, false => none

def Interval.search (i : Interval) (top : Int) : Nat → Nat → Decimal
  | 0, tried => ⟨i.value * pow2 i.power.toNat / pow2 (-i.power).toNat, tried⟩
  | fuel + 1, tried =>
    match i.onGrid? (top - tried) with
    | some d => d
    | none => i.search top fuel (tried + 1)

/-- The fewest digits that read back as `significand * 2 ^ power`, which is not zero. -/
def shortest (f : Format) (significand : Nat) (power : Int) : Decimal :=
  let atStep := significand = pow2 (f.precision - 1) ∧ f.lowestPower < power
  let i : Interval :=
    { low := if atStep then 4 * significand - 1 else 4 * significand - 2
      value := 4 * significand
      high := 4 * significand + 2
      power := power - 2
      closed := significand % 2 = 0 }
  let top := floorLog10 (significand * pow2 power.toNat) (pow2 (-power).toNat)
  (i.search top 20 0).strip 20

def zeros (n : Nat) : List Char :=
  List.replicate n '0'

/-- Digits with the point in its place; a whole number gets `.0` if `fraction`. -/
def Decimal.positional (d : Decimal) (fraction : Bool) : List Char :=
  let digits := Nat.toDigits 10 d.digits
  if 0 ≤ d.exponent then
    digits ++ zeros d.exponent.toNat ++ (if fraction then ['.', '0'] else [])
  else
    let places := (-d.exponent).toNat
    if places < digits.length then
      digits.take (digits.length - places) ++ '.' :: digits.drop (digits.length - places)
    else '0' :: '.' :: zeros (places - digits.length) ++ digits

/-- One digit, the others after a point, and the exponent after `e`. -/
def Decimal.scientific (d : Decimal) : List Char :=
  let digits := Nat.toDigits 10 d.digits
  let exponent := d.exponent + (digits.length - 1 : Nat)
  digits.take 1 ++ (if digits.length = 1 then [] else '.' :: digits.drop 1)
    ++ 'e' :: (toString exponent).toList

structure Style where
  /-- A whole number is followed by `.0`, and extreme numbers take an exponent. -/
  marked : Bool

/-- Where the notation with an exponent begins: below the first and from the second power of ten. -/
def Style.positionalFrom : Int := -4

def Style.positionalBelow : Int := 16

def Style.write (style : Style) (f : Format) : Reading → String
  | .undefined => "NaN"
  | .infinite negative => if negative then "-inf" else "inf"
  | .finite negative significand power =>
    let body :=
      if significand = 0 then Decimal.positional ⟨0, 0⟩ style.marked
      else
        let d := shortest f significand power
        let size := d.exponent + (digitCount d.digits - 1 : Nat)
        if style.marked ∧ (size < Style.positionalFrom ∨ Style.positionalBelow ≤ size)
        then d.scientific else d.positional style.marked
    String.ofList (if negative then '-' :: body else body)

namespace Single

def plain (x : Single) : String :=
  Style.write ⟨false⟩ single x.read

def precise (x : Single) : String :=
  Style.write ⟨true⟩ single x.read

end Single

namespace Double

def plain (x : Double) : String :=
  Style.write ⟨false⟩ double x.read

def precise (x : Double) : String :=
  Style.write ⟨true⟩ double x.read

end Double

end TreeCompiler.Number
