import OpenSoundControl.Numeric.Decimal

/-!
Decimals as double-precision magnitudes. The digits and the power of ten are each rounded to a
double first, and then multiplied or divided, which rounds again. So a decimal of many digits or
with a large exponent need not become the double nearest to it, which is what rounding once gives.
Powers below the least that a double holds are divided out in steps.
-/

namespace OpenSoundControl.Numeric.Double

def greatestPower : Nat := 308

def ofNat (value : Nat) : Nat :=
  Format.double.nearest ⟨value, 1⟩

def powerOfTen (power : Nat) : Nat :=
  ofNat (Nat.pow 10 power)

def shrink : Nat → Nat → Nat → Nat
  | 0, ordinal, power => Format.double.divide ordinal (powerOfTen power)
  | steps + 1, ordinal, power =>
      if power ≤ greatestPower then Format.double.divide ordinal (powerOfTen power)
      else if ordinal = 0 then 0
      else
        shrink steps (Format.double.divide ordinal (powerOfTen greatestPower))
          (power - greatestPower)

def ofDecimal (decimal : Decimal) : Nat :=
  let digits := ofNat decimal.digits
  if decimal.exponent < 0 then
    let power := (-decimal.exponent).toNat
    shrink (power / greatestPower) digits power
  else if digits = 0 then 0
  else if decimal.exponent ≤ greatestPower then
    Format.double.multiply digits (powerOfTen decimal.exponent.toNat)
  else Format.double.infinity

/-- The double nearest to a decimal; a tie goes to the even one. -/
def nearestTo (decimal : Decimal) : Nat :=
  Format.double.nearest (.ofPower decimal.digits 10 decimal.exponent)

def isFinite (ordinal : Nat) : Bool :=
  ordinal < Format.double.infinity

end OpenSoundControl.Numeric.Double
