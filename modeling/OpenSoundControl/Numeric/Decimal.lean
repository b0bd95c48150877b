import OpenSoundControl.Numeric.Binary

/-!
Decimal text for binary magnitudes. The shortest decimal is taken from the coarsest power-of-ten
grid that has a point reading back as the magnitude, and is the nearest such point; a tie goes to
the even digit. The fixed form rounds the exact value to a number of places.
-/

namespace OpenSoundControl.Numeric

/-- The value `digits * 10 ^ exponent`. -/
structure Decimal where
  digits : Nat
  exponent : Int
  deriving DecidableEq, Repr

def digitsOf (value : Nat) : List Char :=
  Nat.toDigits 10 value

def Decimal.leading (decimal : Decimal) : Int :=
  decimal.exponent + (digitsOf decimal.digits).length - 1

/-- The values that round to a magnitude, in units of `2 ^ exponent`. The ends belong to it when
its significand is even. Below a power of two the next magnitude is only half as far. -/
structure Neighbourhood where
  low : Nat
  centre : Nat
  high : Nat
  exponent : Int
  closed : Bool
  deriving DecidableEq, Repr

def Format.neighbourhood (format : Format) (ordinal : Nat) : Neighbourhood :=
  let binary := format.value ordinal
  let centre := 4 * binary.significand
  let narrow := binary.significand = format.binade ∧ format.leastExponent < binary.exponent
  ⟨centre - (if narrow then 1 else 2), centre, centre + 2, binary.exponent - 2,
    binary.significand % 2 = 0⟩

def Neighbourhood.unit (near : Neighbourhood) (power : Int) : Nat :=
  Nat.pow 2 near.exponent.toNat * Nat.pow 10 (-power).toNat

def Neighbourhood.grid (near : Neighbourhood) (power : Int) : Nat :=
  Nat.pow 2 (-near.exponent).toNat * Nat.pow 10 power.toNat

def Neighbourhood.contains (near : Neighbourhood) (digits : Nat) (power : Int) : Bool :=
  let point := digits * near.grid power
  let low := near.low * near.unit power
  let high := near.high * near.unit power
  if near.closed then low ≤ point && point ≤ high
  else low < point && point < high

def Neighbourhood.pointAt (near : Neighbourhood) (power : Int) : Option Nat :=
  let value := near.centre * near.unit power
  let grid := near.grid power
  let below := value / grid
  let remainder := value % grid
  let above := below + 1
  let belowFirst := 2 * remainder < grid ∨ 2 * remainder = grid ∧ below % 2 = 0
  let first := if belowFirst then below else above
  let second := if belowFirst then above else below
  if near.contains first power then some first
  else if near.contains second power then some second
  else none

def Neighbourhood.search (near : Neighbourhood) : Nat → Int → Decimal
  | 0, power => ⟨near.centre * near.unit power / near.grid power, power⟩
  | grids + 1, power =>
      match near.pointAt power with
      | some digits => ⟨digits, power⟩
      | none => near.search grids (power - 1)

/-- A power of ten above the magnitude: `0.30103` exceeds the decimal logarithm of two. -/
def Neighbourhood.above (near : Neighbourhood) : Int :=
  ((Nat.log2 near.high : Int) + near.exponent + 1) * 30103 / 100000 + 1

def Format.shortest (format : Format) (ordinal : Nat) : Decimal :=
  let near := format.neighbourhood ordinal
  if ordinal = 0 then ⟨0, 0⟩ else near.search 24 near.above

/-- Powers of ten of the first digit between `least` and `greatest` are written without an
exponent. -/
structure Layout where
  least : Int
  greatest : Int
  deriving DecidableEq, Repr

def signed (negative : Bool) (text : List Char) : List Char :=
  if negative then '-' :: text else text

def zeroDigits (count : Nat) : List Char :=
  List.replicate count '0'

def Layout.write (layout : Layout) (decimal : Decimal) : List Char :=
  let digits := digitsOf decimal.digits
  let leading := decimal.leading
  if layout.least ≤ leading ∧ leading < 0 then
    ['0', '.'] ++ zeroDigits ((-leading).toNat - 1) ++ digits
  else if 0 ≤ leading ∧ leading ≤ layout.greatest then
    let whole := leading.toNat + 1
    if digits.length ≤ whole then digits ++ zeroDigits (whole - digits.length) ++ ['.', '0']
    else digits.take whole ++ ['.'] ++ digits.drop whole
  else
    let mantissa := match digits with
      | first :: second :: rest => first :: '.' :: second :: rest
      | _ => digits
    mantissa ++ ['e', if leading < 0 then '-' else '+'] ++ digitsOf leading.natAbs

def Binary.fixed (binary : Binary) (places : Nat) : List Char :=
  let ratio := binary.toRatio
  let scale := Nat.pow 10 places
  let units := Ratio.roundAt ⟨ratio.numerator * scale, ratio.denominator⟩ 0
  let fraction := digitsOf (units % scale)
  digitsOf (units / scale) ++ ['.'] ++ zeroDigits (places - fraction.length) ++ fraction

end OpenSoundControl.Numeric
