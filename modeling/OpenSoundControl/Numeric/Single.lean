import OpenSoundControl.Numeric.Double

/-!
Single-precision numbers kept as their 32 bits. Equality of `Single` is equality of bits, which
tells zeros apart by sign and keeps the payload of a NaN; `sameNumber` compares values.
-/

namespace OpenSoundControl

structure Single where
  bits : UInt32
  deriving DecidableEq, Repr

namespace Single

open Numeric

def isNegative (number : Single) : Bool :=
  2147483648 ≤ number.bits.toNat

def ordinal (number : Single) : Nat :=
  number.bits.toNat % 2147483648

def isNaN (number : Single) : Bool :=
  Format.single.infinity < number.ordinal

def isFinite (number : Single) : Bool :=
  number.ordinal < Format.single.infinity

def ofOrdinal (negative : Bool) (ordinal : Nat) : Single :=
  ⟨UInt32.ofNat (ordinal + if negative then 2147483648 else 0)⟩

/-- A NaN is no number's equal, and the two zeros are one number. -/
def sameNumber (left right : Single) : Bool :=
  !left.isNaN && !right.isNaN &&
    (left.bits == right.bits || left.ordinal == 0 && right.ordinal == 0)

def fixedText (number : Single) : String :=
  if number.isNaN then "NaN"
  else String.ofList <| signed number.isNegative <|
    if number.isFinite then (Format.single.value number.ordinal).fixed 6
    else ['i', 'n', 'f']

def shortest (number : Single) : Decimal :=
  Format.single.shortest number.ordinal

def ofInt (value : Int) : Single :=
  ofOrdinal (decide (value < 0)) (Format.single.nearest ⟨value.natAbs, 1⟩)

def ofDecimal (toDouble : Decimal → Nat) (negative : Bool) (decimal : Decimal) : Single :=
  ofOrdinal negative (Format.double.convert Format.single (toDouble decimal))

end Single

end OpenSoundControl
