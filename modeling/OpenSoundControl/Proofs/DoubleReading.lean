import OpenSoundControl.Numeric.Double
import OpenSoundControl.Proofs.Rounding

/-!
How far a decimal read as a double is from its value. The power of ten and the product are each
rounded, so the two errors add up; where the power of ten is a double itself and the value is too,
nothing is lost.
-/

namespace OpenSoundControl.Numeric

def Decimal.toRat (decimal : Decimal) : Rat :=
  decimal.digits * 10 ^ decimal.exponent

theorem Binary.toRatio_denominator_pos (binary : Binary) : 0 < binary.toRatio.denominator :=
  Nat.pow_pos (by decide)

theorem Binary.toRatio_numerator_ne_zero {binary : Binary} (positive : 0 < binary.toRat) :
    binary.toRatio.numerator ≠ 0 := by
  intro zero
  rw [← binary.toRat_toRatio, Ratio.toRat, zero] at positive
  simp at positive

def Within (approximation number share : Rat) : Prop :=
  |approximation - number| ≤ number * share

section Within

variable {approximation number share : Rat}

theorem Within.low (within : Within approximation number share) :
    number * (1 - share) ≤ approximation := by
  have bound := (abs_le.mp within).1
  linarith

theorem Within.high (within : Within approximation number share) :
    approximation ≤ number * (1 + share) := by
  have bound := (abs_le.mp within).2
  linarith

theorem within_of_le (low : number * (1 - share) ≤ approximation)
    (high : approximation ≤ number * (1 + share)) : Within approximation number share :=
  abs_le.mpr ⟨by linarith, by linarith⟩

theorem Within.pos (within : Within approximation number share) (positive : 0 < number)
    (small : share < 1) : 0 < approximation :=
  lt_of_lt_of_le (mul_pos positive (by linarith)) within.low

theorem Within.widen {wider : Rat} (within : Within approximation number share)
    (nonneg : 0 ≤ number) (le : share ≤ wider) : Within approximation number wider :=
  le_trans within (mul_le_mul_of_nonneg_left le nonneg)

theorem Within.trans {first inner : Rat} (later : Within approximation number share)
    (earlier : Within number first inner) (nonneg : 0 ≤ first) (outerNonneg : 0 ≤ share)
    (outerSmall : share ≤ 1) (innerNonneg : 0 ≤ inner) :
    Within approximation first (share + inner + share * inner) := by
  have product : 0 ≤ first * (share * inner) := by positivity
  refine within_of_le ?_ ?_
  · calc first * (1 - (share + inner + share * inner))
        ≤ first * (1 - inner) * (1 - share) := by linarith
      _ ≤ number * (1 - share) := mul_le_mul_of_nonneg_right earlier.low (by linarith)
      _ ≤ approximation := later.low
  · calc approximation ≤ number * (1 + share) := later.high
      _ ≤ first * (1 + inner) * (1 + share) :=
          mul_le_mul_of_nonneg_right earlier.high (by linarith)
      _ = first * (1 + (share + inner + share * inner)) := by ring

theorem Within.mul_left (within : Within approximation number share) {factor : Rat}
    (nonneg : 0 ≤ factor) : Within (factor * approximation) (factor * number) share := by
  rw [Within, ← mul_sub, abs_mul, abs_of_nonneg nonneg, mul_assoc]
  exact mul_le_mul_of_nonneg_left within nonneg

theorem Within.div_left {dividend : Rat} (within : Within approximation number share)
    (nonneg : 0 ≤ dividend) (positive : 0 < number) (shareNonneg : 0 ≤ share)
    (small : share < 1) :
    Within (dividend / approximation) (dividend / number) (share / (1 - share)) := by
  have rest : 0 < 1 - share := by linarith
  have reached : 0 < approximation := within.pos positive small
  have sum : 1 + share / (1 - share) = 1 / (1 - share) := by
    field_simp
    ring
  refine within_of_le ?_ ?_
  · have bound : 1 - share / (1 - share) ≤ 1 / (1 + share) := by
      rw [le_div_iff₀ (by linarith)]
      have square : 0 ≤ share * share / (1 - share) := by positivity
      have expand : (1 - share / (1 - share)) * (1 + share) =
          1 - 2 * (share * share / (1 - share)) := by
        field_simp
        ring
      linarith
    calc dividend / number * (1 - share / (1 - share))
        ≤ dividend / number * (1 / (1 + share)) :=
          mul_le_mul_of_nonneg_left bound (by positivity)
      _ = dividend / (number * (1 + share)) := by
          rw [div_mul_div_comm, mul_one]
      _ ≤ dividend / approximation :=
          div_le_div_of_nonneg_left nonneg reached within.high
  · calc dividend / approximation ≤ dividend / (number * (1 - share)) :=
          div_le_div_of_nonneg_left nonneg (mul_pos positive rest) within.low
      _ = dividend / number * (1 + share / (1 - share)) := by
          rw [sum, div_mul_div_comm, mul_one]

end Within

namespace Double

def toRat (ordinal : Nat) : Rat :=
  (Format.double.value ordinal).toRat

theorem cast_binade : (Format.double.binade : Rat) = 2 ^ 52 := by
  norm_num [Format.binade, Format.double]

theorem two_binade : 2 * Format.double.binade = 2 ^ 53 := rfl

/-- A number rounded to double precision, away from the least and the greatest doubles. -/
structure Rounds (ordinal : Nat) (number : Rat) : Prop where
  finite : ordinal < Format.double.infinity
  error : Within (toRat ordinal) number (1 / 2 ^ 53)
  exact : ∀ (significand : Nat) (exponent : Int), number = significand * 2 ^ exponent →
    significand < 2 ^ 53 → -1074 ≤ exponent → toRat ordinal = number

theorem nearest_rounds (ratio : Ratio) (positive : 0 < ratio.denominator)
    (low : 1 / 2 ^ 255 ≤ ratio.toRat) (high : ratio.toRat < 2 ^ 255) :
    Rounds (Format.double.nearest ratio) ratio.toRat := by
  have nonzero : ratio.numerator ≠ 0 := by
    intro zero
    rw [Ratio.toRat, zero] at low
    norm_num at low
  have finite : Format.double.nearest ratio < Format.double.infinity :=
    Format.double.nearest_lt_infinity nonzero positive 254 (by exact_mod_cast high) (by decide)
  have normal : 2 ^ (Format.double.leastExponent + (Format.double.precision - 1 : Nat)) ≤
      ratio.toRat := by
    refine le_trans ?_ low
    rw [one_div, ← zpow_natCast, ← zpow_neg]
    exact two_zpow_le (by decide)
  refine ⟨finite, ?_, ?_⟩
  · have error := Format.double.nearest_error nonzero positive finite normal
    rw [cast_binade] at error
    rw [Within, toRat]
    refine le_trans error (le_of_eq ?_)
    rw [div_eq_mul_one_div]
    norm_num
  · intro significand exponent value fits least
    exact Format.double.nearest_exact nonzero positive finite value (two_binade ▸ fits) least

theorem nearestTo_rounds {decimal : Decimal} (low : 1 / 2 ^ 255 ≤ decimal.toRat)
    (high : decimal.toRat < 2 ^ 255) : Rounds (nearestTo decimal) decimal.toRat := by
  have same : (Ratio.ofPower decimal.digits 10 decimal.exponent).toRat = decimal.toRat :=
    Ratio.toRat_ofPower decimal.digits (by decide) decimal.exponent
  rw [← same] at low high ⊢
  exact nearest_rounds _ (Nat.pow_pos (by decide)) low high

theorem ofNat_rounds {value : Nat} (nonzero : value ≠ 0) (small : value < 2 ^ 255) :
    Rounds (ofNat value) value := by
  have one : (1 : Rat) ≤ value := by exact_mod_cast Nat.one_le_iff_ne_zero.mpr nonzero
  have same : (⟨value, 1⟩ : Ratio).toRat = value := by simp [Ratio.toRat]
  have rounds := nearest_rounds ⟨value, 1⟩ Nat.one_pos
    (by rw [same]; exact le_trans (by norm_num) one) (by rw [same]; exact_mod_cast small)
  rwa [same] at rounds

theorem toRat_ofNat {value : Nat} (nonzero : value ≠ 0) (small : value < 2 ^ 53) :
    toRat (ofNat value) = value :=
  (ofNat_rounds nonzero (lt_trans small (by decide))).exact value 0 (by simp) small (by decide)

theorem powerOfTen_rounds {power : Nat} (small : power ≤ 60) :
    Rounds (powerOfTen power) (10 ^ power) := by
  have bound : 10 ^ power < 2 ^ 255 :=
    lt_of_le_of_lt (Nat.pow_le_pow_right (by decide) small) (by decide)
  have rounds : Rounds (ofNat (10 ^ power)) ((10 ^ power : Nat) : Rat) :=
    ofNat_rounds (by positivity) bound
  rwa [Nat.cast_pow] at rounds

theorem toRat_powerOfTen {power : Nat} (small : power ≤ 22) :
    toRat (powerOfTen power) = 10 ^ power := by
  refine (powerOfTen_rounds (le_trans small (by decide))).exact (5 ^ power) power ?_ ?_ (by omega)
  · rw [zpow_natCast]
    push_cast
    rw [← mul_pow]
    norm_num
  · exact lt_of_le_of_lt (Nat.pow_le_pow_right (by decide) small) (by decide)

theorem powerOfTen_bounds {power : Nat} (small : power ≤ 60) :
    1 / 2 ≤ toRat (powerOfTen power) ∧ toRat (powerOfTen power) ≤ 2 ^ 201 := by
  have one : (1 : Rat) ≤ 10 ^ power := one_le_pow₀ (by norm_num)
  have limit : (10 : Rat) ^ power ≤ 10 ^ 60 := pow_le_pow_right₀ (by norm_num) small
  have error := (powerOfTen_rounds small).error
  exact ⟨le_trans (by linarith) error.low, le_trans error.high (by linarith)⟩

theorem multiply_rounds (left right : Nat)
    (low : 1 / 2 ^ 255 ≤ toRat left * toRat right) (high : toRat left * toRat right < 2 ^ 255) :
    Rounds (Format.double.multiply left right) (toRat left * toRat right) := by
  have same : toRat left * toRat right =
      (⟨(Format.double.value left).toRatio.numerator *
          (Format.double.value right).toRatio.numerator,
        (Format.double.value left).toRatio.denominator *
          (Format.double.value right).toRatio.denominator⟩ : Ratio).toRat := by
    rw [toRat, toRat, ← Binary.toRat_toRatio, ← Binary.toRat_toRatio]
    simp only [Ratio.toRat]
    push_cast
    rw [div_mul_div_comm]
  rw [same] at low high ⊢
  exact nearest_rounds _
    (Nat.mul_pos (Binary.toRatio_denominator_pos _) (Binary.toRatio_denominator_pos _)) low high

theorem divide_rounds (left : Nat) {right : Nat} (rightPos : 0 < toRat right)
    (low : 1 / 2 ^ 255 ≤ toRat left / toRat right) (high : toRat left / toRat right < 2 ^ 255) :
    Rounds (Format.double.divide left right) (toRat left / toRat right) := by
  have same : toRat left / toRat right =
      (⟨(Format.double.value left).toRatio.numerator *
          (Format.double.value right).toRatio.denominator,
        (Format.double.value left).toRatio.denominator *
          (Format.double.value right).toRatio.numerator⟩ : Ratio).toRat := by
    rw [toRat, toRat, ← Binary.toRat_toRatio, ← Binary.toRat_toRatio]
    simp only [Ratio.toRat]
    push_cast
    rw [div_div_div_eq]
  rw [same] at low high ⊢
  exact nearest_rounds _ (Nat.mul_pos (Binary.toRatio_denominator_pos _)
    (Nat.pos_of_ne_zero (Binary.toRatio_numerator_ne_zero rightPos))) low high

def share : Rat := (2 ^ 20 + 1) / 2 ^ 72

structure Reads (decimal : Decimal) : Prop where
  finite : ofDecimal decimal < Format.double.infinity
  error : Within (toRat (ofDecimal decimal)) decimal.toRat share
  exact : -22 ≤ decimal.exponent → decimal.exponent ≤ 22 →
    ∀ (significand : Nat) (exponent : Int), decimal.toRat = significand * 2 ^ exponent →
      significand < 2 ^ 53 → -1074 ≤ exponent → toRat (ofDecimal decimal) = decimal.toRat

theorem Rounds.reads {decimal : Decimal} {number : Rat}
    (rounds : Rounds (ofDecimal decimal) number) (nonneg : 0 ≤ decimal.toRat)
    (close : Within number decimal.toRat (1 / 2 ^ 53 / (1 - 1 / 2 ^ 53)))
    (kept : -22 ≤ decimal.exponent → decimal.exponent ≤ 22 → number = decimal.toRat) :
    Reads decimal := by
  refine ⟨rounds.finite, ?_, ?_⟩
  · refine (rounds.error.trans close nonneg (by norm_num) (by norm_num) (by norm_num)).widen
      nonneg ?_
    rw [share]
    norm_num
  · intro low high significand exponent same fits least
    rw [kept low high] at rounds
    exact rounds.exact significand exponent same fits least

theorem ofDecimal_divided {decimal : Decimal} {power : Nat} (exponent : decimal.exponent = -power)
    (positive : power ≠ 0) (near : power ≤ 60) :
    ofDecimal decimal = Format.double.divide (ofNat decimal.digits) (powerOfTen power) := by
  have count : (-decimal.exponent).toNat = power := by omega
  have none : power / greatestPower = 0 := Nat.div_eq_of_lt (by rw [greatestPower]; omega)
  simp only [ofDecimal]
  rw [if_pos (by omega), count, none, shrink]

theorem ofDecimal_multiplied {decimal : Decimal} {power : Nat}
    (exponent : decimal.exponent = power) (near : power ≤ 60)
    (started : ofNat decimal.digits ≠ 0) :
    ofDecimal decimal = Format.double.multiply (ofNat decimal.digits) (powerOfTen power) := by
  simp only [ofDecimal]
  rw [if_neg (by omega), if_neg started, if_pos (by rw [exponent, greatestPower]; omega),
    exponent, Int.toNat_natCast]

section Decimals

variable {decimal : Decimal} (nonzero : decimal.digits ≠ 0) (small : decimal.digits < 2 ^ 53)

include nonzero small

theorem reads_divided (power : Nat) (exponent : decimal.exponent = -power)
    (positive : power ≠ 0) (near : power ≤ 60) : Reads decimal := by
  have digits := toRat_ofNat nonzero small
  have one : (1 : Rat) ≤ decimal.digits := by exact_mod_cast Nat.one_le_iff_ne_zero.mpr nonzero
  have limit : (decimal.digits : Rat) < 2 ^ 53 := by exact_mod_cast small
  have value : decimal.toRat = decimal.digits / 10 ^ power := by
    rw [Decimal.toRat, exponent, zpow_neg, zpow_natCast, div_eq_mul_inv]
  have tens := (powerOfTen_rounds near).error
  obtain ⟨tensLow, tensHigh⟩ := powerOfTen_bounds near
  have divided := divide_rounds (ofNat decimal.digits) (tens.pos (by positivity) (by norm_num))
  rw [digits, ← ofDecimal_divided exponent positive near] at divided
  refine (divided ?_ ?_).reads (by rw [value]; positivity) ?_ ?_
  · rw [div_le_div_iff₀ (by norm_num) (by linarith)]
    linarith
  · rw [div_lt_iff₀ (by linarith)]
    linarith
  · rw [value]
    exact tens.div_left decimal.digits.cast_nonneg (by positivity) (by norm_num) (by norm_num)
  · intro low _
    rw [toRat_powerOfTen (by omega), value]

theorem reads_multiplied (power : Nat) (exponent : decimal.exponent = power)
    (near : power ≤ 60) : Reads decimal := by
  have digits := toRat_ofNat nonzero small
  have one : (1 : Rat) ≤ decimal.digits := by exact_mod_cast Nat.one_le_iff_ne_zero.mpr nonzero
  have limit : (decimal.digits : Rat) < 2 ^ 53 := by exact_mod_cast small
  have value : decimal.toRat = decimal.digits * 10 ^ power := by
    rw [Decimal.toRat, exponent, zpow_natCast]
  have started : ofNat decimal.digits ≠ 0 := by
    intro zero
    have none : toRat 0 = 0 := by
      norm_num [toRat, Format.value, Binary.toRat]
    rw [zero, none] at digits
    linarith
  have tens := (powerOfTen_rounds near).error
  obtain ⟨tensLow, tensHigh⟩ := powerOfTen_bounds near
  have multiplied := multiply_rounds (ofNat decimal.digits) (powerOfTen power)
  rw [digits, ← ofDecimal_multiplied exponent near started] at multiplied
  refine (multiplied ?_ ?_).reads (by rw [value]; positivity) ?_ ?_
  · calc (1 : Rat) / 2 ^ 255 ≤ 1 * (1 / 2) := by norm_num
      _ ≤ decimal.digits * toRat (powerOfTen power) := by gcongr
  · calc (decimal.digits : Rat) * toRat (powerOfTen power) ≤ 2 ^ 53 * 2 ^ 201 := by gcongr
      _ < 2 ^ 255 := by norm_num
  · rw [value]
    exact (tens.mul_left decimal.digits.cast_nonneg).widen (by positivity) (by norm_num)
  · intro _ high
    rw [toRat_powerOfTen (by omega), value]

theorem reads_ofDecimal (low : -60 ≤ decimal.exponent) (high : decimal.exponent ≤ 60) :
    Reads decimal := by
  by_cases negative : decimal.exponent < 0
  · exact reads_divided nonzero small (-decimal.exponent).toNat (by omega) (by omega) (by omega)
  · exact reads_multiplied nonzero small decimal.exponent.toNat (by omega) (by omega)

end Decimals

end Double

end OpenSoundControl.Numeric
