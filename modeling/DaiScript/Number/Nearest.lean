import DaiScript.Number.Basic

/-! The number nearest to a fraction. Counted in least positive numbers, a fraction is rounded to 53
binary places, to the even neighbour at a half. Exponent and significand add up to the magnitude,
so a significand that rounds up to `2 ^ 53` carries into the exponent by itself. -/
namespace DaiScript.Number

/-- The quotient rounded to a whole number, to the even one at a half. -/
def roundDiv (a b : Nat) : Nat :=
  let floor := a / b
  let twice := 2 * (a % b)
  if twice < b then floor else if b < twice then floor + 1 else floor + floor % 2

/-- The magnitude of the number nearest to `a / b` least positive numbers. -/
def nearestUnits (a b : Nat) : Nat :=
  let shift := (a / b).log2 - 52
  min (shift * Nat.pow 2 52 + roundDiv a (b * Nat.pow 2 shift)) infinite

def nearest (a b : Nat) : Number :=
  ofParts false (nearestUnits (a * Nat.pow 2 1074) b)

def ofNat (n : Nat) : Number :=
  nearest n 1

def digitsValue (digits : List Char) : Nat :=
  digits.foldl (fun value c => 10 * value + (c.toNat - '0'.toNat)) 0

def ofDecimal (whole fraction : List Char) : Number :=
  nearest (digitsValue (whole ++ fraction)) (Nat.pow 10 fraction.length)

/-- The exact remainder of a division that cuts the quotient toward zero, with the sign of the
dividend. An infinite divisor leaves the dividend. -/
def mod (a b : Number) : Number :=
  if a.isNaN || b.isNaN || a.isInfinite || b.isZero then nan
  else if b.isInfinite then a
  else ofParts a.isNegative (nearestUnits (a.units % b.units) 1)

end DaiScript.Number
