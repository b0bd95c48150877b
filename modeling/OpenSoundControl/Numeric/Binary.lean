/-!
Binary floating-point magnitudes. A format numbers its magnitudes from zero upward, so the number
of a magnitude is its bit pattern without the sign; infinity follows the greatest finite one.
Rounding takes an exact ratio to the nearest magnitude, and a tie to the even number.
-/

namespace OpenSoundControl.Numeric

/-- The magnitude `significand * 2 ^ exponent`. -/
structure Binary where
  significand : Nat
  exponent : Int
  deriving DecidableEq, Repr

structure Ratio where
  numerator : Nat
  denominator : Nat
  deriving DecidableEq, Repr

def Ratio.ofPower (value base : Nat) (exponent : Int) : Ratio :=
  ⟨value * Nat.pow base exponent.toNat, Nat.pow base (-exponent).toNat⟩

def Binary.toRatio (binary : Binary) : Ratio :=
  .ofPower binary.significand 2 binary.exponent

/-- The quotient `ratio / 2 ^ exponent`, rounded to an integer with ties to even. -/
def Ratio.roundAt (ratio : Ratio) (exponent : Int) : Nat :=
  let numerator := ratio.numerator * Nat.pow 2 (-exponent).toNat
  let denominator := ratio.denominator * Nat.pow 2 exponent.toNat
  let quotient := numerator / denominator
  let remainder := numerator % denominator
  if 2 * remainder < denominator then quotient
  else if denominator < 2 * remainder then quotient + 1
  else quotient + quotient % 2

def Ratio.magnitude (ratio : Ratio) : Int :=
  let estimate : Int := (Nat.log2 ratio.numerator : Int) - Nat.log2 ratio.denominator
  if ratio.denominator * Nat.pow 2 estimate.toNat ≤
      ratio.numerator * Nat.pow 2 (-estimate).toNat then estimate
  else estimate - 1

structure Format where
  precision : Nat
  leastExponent : Int
  infinity : Nat
  deriving DecidableEq, Repr

def Format.single : Format := ⟨24, -149, 0x7F800000⟩

def Format.double : Format := ⟨53, -1074, 0x7FF0000000000000⟩

def Format.binade (format : Format) : Nat :=
  Nat.pow 2 (format.precision - 1)

def Format.value (format : Format) (ordinal : Nat) : Binary :=
  let step := ordinal / format.binade
  let fraction := ordinal % format.binade
  if step = 0 then ⟨fraction, format.leastExponent⟩
  else ⟨fraction + format.binade, format.leastExponent + step - 1⟩

def Format.nearest (format : Format) (ratio : Ratio) : Nat :=
  if ratio.numerator = 0 then 0
  else
    let exponent := max format.leastExponent (ratio.magnitude - (format.precision - 1 : Nat))
    let significand := ratio.roundAt exponent
    min (significand + (exponent - format.leastExponent).toNat * format.binade) format.infinity

def Format.multiply (format : Format) (left right : Nat) : Nat :=
  let first := (format.value left).toRatio
  let second := (format.value right).toRatio
  format.nearest ⟨first.numerator * second.numerator, first.denominator * second.denominator⟩

def Format.divide (format : Format) (left right : Nat) : Nat :=
  let first := (format.value left).toRatio
  let second := (format.value right).toRatio
  format.nearest ⟨first.numerator * second.denominator, first.denominator * second.numerator⟩

def Format.convert (source target : Format) (ordinal : Nat) : Nat :=
  if source.infinity ≤ ordinal then target.infinity
  else target.nearest (source.value ordinal).toRatio

end OpenSoundControl.Numeric
