import OpenSoundControl.Numeric.Single
import OpenSoundControl.Proofs.DoubleReading

/-!
What the search for a short decimal finds. The point that it takes reads back as the magnitude,
and where the next magnitudes are equally far on both sides it is the point of its grid nearest to
the magnitude.
-/

namespace OpenSoundControl.Numeric

theorem ten_zpow_pos (exponent : Int) : (0 : Rat) < 10 ^ exponent :=
  zpow_pos (by norm_num) exponent

theorem mul_zpow_le_iff (left right : Nat) {first second : Nat} (firstPos : 0 < first)
    (secondPos : 0 < second) (one other : Int) :
    (left : Rat) * (first : Rat) ^ one ≤ right * (second : Rat) ^ other ↔
      left * (first ^ one.toNat * second ^ (-other).toNat) ≤
        right * (second ^ other.toNat * first ^ (-one).toNat) := by
  rw [zpow_eq_div (Nat.cast_ne_zero.mpr firstPos.ne') one,
    zpow_eq_div (Nat.cast_ne_zero.mpr secondPos.ne') other, ← mul_div_assoc, ← mul_div_assoc,
    div_le_div_iff₀ (by positivity) (by positivity), mul_assoc, mul_assoc]
  norm_cast

theorem ten_le_two_iff (left right : Nat) (ten two : Int) :
    (left : Rat) * 10 ^ ten ≤ right * 2 ^ two ↔
      left * (10 ^ ten.toNat * 2 ^ (-two).toNat) ≤
        right * (2 ^ two.toNat * 10 ^ (-ten).toNat) := by
  exact_mod_cast @mul_zpow_le_iff left right 10 2 (by decide) (by decide) ten two

theorem two_le_ten_iff (left right : Nat) (two ten : Int) :
    (left : Rat) * 2 ^ two ≤ right * 10 ^ ten ↔
      left * (2 ^ two.toNat * 10 ^ (-ten).toNat) ≤
        right * (10 ^ ten.toNat * 2 ^ (-two).toNat) := by
  exact_mod_cast @mul_zpow_le_iff left right 2 10 (by decide) (by decide) two ten

theorem nearest_iff (integer : Nat) (number : Rat) : Nearest integer number ↔
    (integer - 1 / 2 ≤ number ∧ number ≤ integer + 1 / 2) ∧
      (integer % 2 ≠ 0 → integer - 1 / 2 < number ∧ number < integer + 1 / 2) := by
  constructor
  · intro nearest
    obtain ⟨low, high⟩ := abs_le.mp nearest.error
    refine ⟨⟨by linarith, by linarith⟩, fun odd => ?_⟩
    have strict := lt_of_le_of_ne nearest.error fun tie => odd (nearest.tie tie)
    obtain ⟨low, high⟩ := abs_lt.mp strict
    exact ⟨by linarith, by linarith⟩
  · rintro ⟨⟨low, high⟩, strict⟩
    refine ⟨abs_le.mpr ⟨by linarith, by linarith⟩, fun tie => ?_⟩
    by_contra odd
    obtain ⟨low, high⟩ := strict odd
    have less : |(integer : Rat) - number| < 1 / 2 := abs_lt.mpr ⟨by linarith, by linarith⟩
    exact less.ne tie

theorem Nearest.of_closer {integer : Nat} {far near : Rat} (nearest : Nearest integer far)
    (closer : |integer - near| ≤ |integer - far|) : Nearest integer near where
  error := le_trans closer nearest.error
  tie even := nearest.tie (le_antisymm nearest.error (even ▸ closer))

theorem Nearest.closest {integer : Nat} {number : Rat} (nearest : Nearest integer number)
    (other : Nat) : |integer - number| ≤ |other - number| := by
  by_cases same : other = integer
  · rw [same]
  · have apart : (1 : Int) ≤ |(other : Int) - integer| := by
      have nonzero : (0 : Int) < |(other : Int) - integer| := abs_pos.mpr (by omega)
      omega
    have cast : (1 : Rat) ≤ |(other : Rat) - integer| := by exact_mod_cast apart
    have triangle := abs_sub_le (other : Rat) number integer
    rw [abs_sub_comm number] at triangle
    have error := nearest.error
    linarith

namespace Neighbourhood

variable (near : Neighbourhood)

def measured (power : Int) : Rat :=
  near.centre * 2 ^ near.exponent / 10 ^ power

theorem grid_pos (power : Int) : 0 < near.grid power :=
  Nat.mul_pos (Nat.pow_pos (by decide)) (Nat.pow_pos (by decide))

theorem unit_div_grid (power : Int) :
    (near.unit power : Rat) / near.grid power = 2 ^ near.exponent / 10 ^ power := by
  rw [zpow_eq_div (by norm_num) power, zpow_eq_div (by norm_num) near.exponent, div_div_div_eq]
  simp [unit, grid]

theorem mul_unit_div_grid (count : Nat) (power : Int) :
    ((count * near.unit power : Nat) : Rat) / near.grid power =
      count * 2 ^ near.exponent / 10 ^ power := by
  push_cast
  rw [mul_div_assoc, near.unit_div_grid, mul_div_assoc]

theorem le_point_iff (count digits : Nat) (power : Int) :
    count * near.unit power ≤ digits * near.grid power ↔
      (count : Rat) * 2 ^ near.exponent ≤ digits * 10 ^ power := by
  have cast : (0 : Rat) < near.grid power := by exact_mod_cast near.grid_pos power
  rw [← div_le_iff₀ (ten_zpow_pos power), ← mul_unit_div_grid, div_le_iff₀ cast]
  norm_cast

theorem point_le_iff (count digits : Nat) (power : Int) :
    digits * near.grid power ≤ count * near.unit power ↔
      (digits : Rat) * 10 ^ power ≤ count * 2 ^ near.exponent := by
  have cast : (0 : Rat) < near.grid power := by exact_mod_cast near.grid_pos power
  rw [← le_div_iff₀ (ten_zpow_pos power), ← mul_unit_div_grid, le_div_iff₀ cast]
  norm_cast

theorem contains_iff (digits : Nat) (power : Int) :
    near.contains digits power = true ↔
      (near.low * 2 ^ near.exponent ≤ (digits * 10 ^ power : Rat) ∧
        (digits * 10 ^ power : Rat) ≤ near.high * 2 ^ near.exponent) ∧
      (near.closed = false → near.low * 2 ^ near.exponent < (digits * 10 ^ power : Rat) ∧
        (digits * 10 ^ power : Rat) < near.high * 2 ^ near.exponent) := by
  simp only [← not_le, ← le_point_iff, ← point_le_iff]
  cases closed : near.closed with
  | true => simp [contains, closed]
  | false =>
      simp [contains, closed]
      omega

def first (power : Int) : Nat :=
  let value := near.centre * near.unit power
  let grid := near.grid power
  if 2 * (value % grid) < grid then value / grid
  else if grid < 2 * (value % grid) then value / grid + 1
  else value / grid + value / grid % 2

theorem first_nearest (power : Int) : Nearest (near.first power) (near.measured power) := by
  rw [measured, ← mul_unit_div_grid]
  exact nearest_quotient _ (near.grid_pos power)

theorem first_eq (power : Int) : near.first power =
    (let value := near.centre * near.unit power
    let grid := near.grid power
    let below := value / grid
    if 2 * (value % grid) < grid ∨ 2 * (value % grid) = grid ∧ below % 2 = 0 then below
    else below + 1) := by
  simp only [first]
  split_ifs <;> omega

theorem pointAt_first {power : Int} (inside : near.contains (near.first power) power = true) :
    near.pointAt power = some (near.first power) := by
  rw [first_eq] at inside ⊢
  exact if_pos inside

theorem pointAt_contains {digits : Nat} {power : Int}
    (found : near.pointAt power = some digits) : near.contains digits power = true := by
  have tried (first second : Nat) (picked : (if near.contains first power then some first
      else if near.contains second power then some second else none) = some digits) :
      near.contains digits power = true := by
    split at picked
    · rename_i inside
      rwa [← Option.some.inj picked]
    · split at picked
      · rename_i inside
        rwa [← Option.some.inj picked]
      · contradiction
  exact tried _ _ found

theorem search_spec (grids : Nat) (power least : Int) (low : power - grids < least)
    (high : least ≤ power) (some : (near.pointAt least).isSome) :
    least ≤ (near.search grids power).exponent ∧ (near.search grids power).exponent ≤ power ∧
      near.pointAt (near.search grids power).exponent = .some (near.search grids power).digits := by
  induction grids generalizing power with
  | zero => omega
  | succ grids ih =>
      rw [search]
      cases found : near.pointAt power with
      | some digits => exact ⟨high, Int.le_refl _, found⟩
      | none =>
          have lower : least ≠ power := by
            rintro rfl
            simp [found] at some
          obtain ⟨above, below, point⟩ := ih (power - 1) (by omega) (by omega)
          exact ⟨above, Int.le_trans below (by omega), point⟩

theorem contains_first (power : Int) (fine : (10 : Rat) ^ power ≤ 2 ^ near.exponent)
    (low : near.low < near.centre) (high : near.centre < near.high) :
    near.contains (near.first power) power = true := by
  have unit := two_zpow_pos near.exponent
  have step := ten_zpow_pos power
  have lowCast : (near.low : Rat) + 1 ≤ near.centre := by exact_mod_cast low
  have highCast : (near.centre : Rat) + 1 ≤ near.high := by exact_mod_cast high
  obtain ⟨behind, ahead⟩ := abs_le.mp (near.first_nearest power).error
  rw [measured, le_sub_iff_add_le, ← sub_eq_neg_add, sub_le_iff_le_add,
    div_le_iff₀ step] at behind
  rw [measured, sub_le_iff_le_add, ← sub_le_iff_le_add', le_div_iff₀ step] at ahead
  have lowSide : near.low * 2 ^ near.exponent < (near.first power * 10 ^ power : Rat) := by
    calc (near.low : Rat) * 2 ^ near.exponent ≤ (near.centre - 1) * 2 ^ near.exponent :=
          mul_le_mul_of_nonneg_right (by linarith) unit.le
      _ < near.first power * 10 ^ power := by linarith
  have highSide : (near.first power * 10 ^ power : Rat) < near.high * 2 ^ near.exponent := by
    calc (near.first power * 10 ^ power : Rat) < (near.centre + 1) * 2 ^ near.exponent := by
          linarith
      _ ≤ near.high * 2 ^ near.exponent := mul_le_mul_of_nonneg_right (by linarith) unit.le
  exact (near.contains_iff _ _).mpr ⟨⟨lowSide.le, highSide.le⟩, fun _ => ⟨lowSide, highSide⟩⟩

end Neighbourhood

namespace Format

variable (format : Format) {ordinal : Nat}

def Wide (ordinal : Nat) : Prop :=
  (format.value ordinal).significand = format.binade →
    (format.value ordinal).exponent ≤ format.leastExponent

theorem neighbourhood_low (nonzero : (format.value ordinal).significand ≠ 0) :
    (format.neighbourhood ordinal).low < (format.neighbourhood ordinal).centre := by
  simp only [neighbourhood]
  split <;> omega

theorem neighbourhood_low_pos (nonzero : (format.value ordinal).significand ≠ 0) :
    0 < (format.neighbourhood ordinal).low := by
  simp only [neighbourhood]
  split <;> omega

theorem neighbourhood_high :
    (format.neighbourhood ordinal).centre < (format.neighbourhood ordinal).high := by
  simp only [neighbourhood]
  omega

theorem unit_neighbourhood : (2 : Rat) ^ (format.neighbourhood ordinal).exponent =
    2 ^ (format.value ordinal).exponent / 4 := by
  exact two_zpow_quarter _

theorem measured_neighbourhood (power : Int) :
    (format.neighbourhood ordinal).measured power =
      (format.value ordinal).toRat / 10 ^ power := by
  rw [Neighbourhood.measured, unit_neighbourhood, Binary.toRat]
  simp only [neighbourhood]
  push_cast
  ring

theorem contains_neighbourhood_iff (wide : format.Wide ordinal)
    (nonzero : (format.value ordinal).significand ≠ 0) (digits : Nat) (power : Int) :
    (format.neighbourhood ordinal).contains digits power = true ↔
      Nearest (format.value ordinal).significand
        (digits * 10 ^ power / 2 ^ (format.value ordinal).exponent) := by
  have unit := two_zpow_pos (format.value ordinal).exponent
  rw [Neighbourhood.contains_iff, unit_neighbourhood]
  have both : ¬((format.value ordinal).significand = format.binade ∧
      format.leastExponent < (format.value ordinal).exponent) := by
    intro narrow
    have bottom := wide narrow.1
    omega
  simp only [neighbourhood, if_neg both]
  generalize (format.value ordinal).significand = significand at *
  generalize (2 : Rat) ^ (format.value ordinal).exponent = width at *
  have low : ((4 * significand - 2 : Nat) : Rat) * (width / 4) =
      (significand - 1 / 2) * width := by
    rw [Nat.cast_sub (by omega)]
    push_cast
    ring
  have high : ((4 * significand + 2 : Nat) : Rat) * (width / 4) =
      (significand + 1 / 2) * width := by
    push_cast
    ring
  rw [low, high, ← le_div_iff₀ unit, ← div_le_iff₀ unit, ← lt_div_iff₀ unit, ← div_lt_iff₀ unit,
    nearest_iff]
  simp

theorem significand_ne_zero (nonzero : ordinal ≠ 0) : (format.value ordinal).significand ≠ 0 := by
  intro zero
  have whole := format.ordinal_eq ordinal
  have positive := format.binade_pos
  have least := format.le_value_exponent ordinal
  by_cases above : format.leastExponent < (format.value ordinal).exponent
  · have normal := format.value_normal above
    omega
  · have bottom : ((format.value ordinal).exponent - format.leastExponent).toNat = 0 := by omega
    rw [zero, bottom] at whole
    omega

theorem pointAt_nearest (wide : format.Wide ordinal) (nonzero : ordinal ≠ 0) {digits : Nat}
    {power : Int} (found : (format.neighbourhood ordinal).pointAt power = some digits) :
    Nearest digits ((format.value ordinal).toRat / 10 ^ power) := by
  have significand := format.significand_ne_zero nonzero
  have inside := Neighbourhood.pointAt_contains _ found
  have first := (format.neighbourhood ordinal).first_nearest power
  rw [contains_neighbourhood_iff format wide significand] at inside
  rw [measured_neighbourhood] at first
  have closest := first.closest digits
  have unit := two_zpow_pos (format.value ordinal).exponent
  have step := ten_zpow_pos power
  have rescaled (count : Nat) :
      |((format.value ordinal).significand : Rat) -
        count * 10 ^ power / 2 ^ (format.value ordinal).exponent| =
      |count - (format.value ordinal).toRat / 10 ^ power| *
        (10 ^ power / 2 ^ (format.value ordinal).exponent) := by
    rw [abs_sub_comm (count : Rat), abs_sub_mul_pos _ _ (div_pos step unit), Binary.toRat]
    congr 1
    field_simp
  have taken := Neighbourhood.pointAt_first _ ((contains_neighbourhood_iff format wide significand
    _ _).mpr (inside.of_closer (by
      rw [rescaled, rescaled]
      exact mul_le_mul_of_nonneg_right closest (div_pos step unit).le)))
  rw [found, Option.some.injEq] at taken
  rw [taken]
  exact first

end Format

section Singles

theorem of_all_exponents (property : Int → Prop)
    (checked : ∀ step : Nat, step < 254 → property (step - 149)) {exponent : Int}
    (low : -149 ≤ exponent) (high : exponent ≤ 104) : property exponent := by
  have entry := checked (exponent + 149).toNat (by omega)
  rwa [Int.toNat_of_nonneg (by omega), Int.add_sub_cancel] at entry

def finePower (exponent : Int) : Int :=
  (exponent - 2) * 30103 / 100000

theorem finePower_bounds {exponent : Int} (low : -149 ≤ exponent) (high : exponent ≤ 104) :
    (10 : Rat) ^ finePower exponent ≤ 2 ^ (exponent - 2) ∧
      (2 : Rat) ^ (exponent - 2) ≤ 10 * 10 ^ finePower exponent := by
  have table := of_all_exponents (fun exponent =>
    1 * (10 ^ (finePower exponent).toNat * 2 ^ (-(exponent - 2)).toNat) ≤
      1 * (2 ^ (exponent - 2).toNat * 10 ^ (-finePower exponent).toNat) ∧
    1 * (2 ^ (exponent - 2).toNat * 10 ^ (-finePower exponent).toNat) ≤
      10 * (10 ^ (finePower exponent).toNat * 2 ^ (-(exponent - 2)).toNat))
    (by decide +kernel) low high
  rw [← ten_le_two_iff, ← two_le_ten_iff] at table
  simpa using table

theorem single_exponent_ge (ordinal : Nat) : -149 ≤ (Format.single.value ordinal).exponent :=
  Format.single.le_value_exponent ordinal

theorem single_significand_lt (ordinal : Nat) :
    (Format.single.value ordinal).significand < 2 ^ 24 :=
  Format.single.value_significand_lt ordinal

variable {ordinal : Nat} (nonzero : ordinal ≠ 0) (finite : ordinal < Format.single.infinity)

include finite in
theorem single_exponent_le : (Format.single.value ordinal).exponent ≤ 104 := by
  have step : ordinal / Format.single.binade ≤ 254 := by
    rw [Nat.div_le_iff_le_mul_add_pred Format.single.binade_pos]
    exact Nat.le_of_lt_succ (lt_of_lt_of_le finite (by decide))
  have least : Format.single.leastExponent = -149 := rfl
  rw [Format.value]
  generalize ordinal / Format.single.binade = steps at *
  split
  · simp [least]
  · simp only [least]
    omega

include nonzero finite

theorem shortest_found :
    finePower (Format.single.value ordinal).exponent ≤ (Format.single.shortest ordinal).exponent ∧
      (Format.single.shortest ordinal).exponent ≤ 40 ∧
      (Format.single.neighbourhood ordinal).pointAt (Format.single.shortest ordinal).exponent =
        some (Format.single.shortest ordinal).digits := by
  have low := single_exponent_ge ordinal
  have high := single_exponent_le finite
  have small := single_significand_lt ordinal
  have fine := (finePower_bounds low high).1
  have inside := (Format.single.neighbourhood ordinal).contains_first _ fine
    (Format.single.neighbourhood_low (Format.single.significand_ne_zero nonzero))
    Format.single.neighbourhood_high
  have above : (Format.single.neighbourhood ordinal).above =
      ((Nat.log2 (4 * (Format.single.value ordinal).significand + 2) : Int) +
        ((Format.single.value ordinal).exponent - 2) + 1) * 30103 / 100000 + 1 := rfl
  have logarithm : Nat.log2 (4 * (Format.single.value ordinal).significand + 2) < 26 :=
    (Nat.log2_lt (by omega)).mpr (by omega)
  rw [Format.shortest, if_neg nonzero]
  have reached := (Format.single.neighbourhood ordinal).search_spec 24
    (Format.single.neighbourhood ordinal).above (finePower (Format.single.value ordinal).exponent)
    (by rw [above, finePower]; omega) (by rw [above, finePower]; omega)
    (by rw [Neighbourhood.pointAt_first _ inside]; rfl)
  exact ⟨reached.1, le_trans reached.2.1 (by rw [above]; omega), reached.2.2⟩

theorem shortest_exponent : -46 ≤ (Format.single.shortest ordinal).exponent ∧
    (Format.single.shortest ordinal).exponent ≤ 40 := by
  obtain ⟨fine, coarse, -⟩ := shortest_found nonzero finite
  have low := single_exponent_ge ordinal
  rw [finePower] at fine
  exact ⟨by omega, coarse⟩

theorem shortest_between :
    0 < (Format.single.shortest ordinal).toRat ∧
      (Format.single.shortest ordinal).toRat ≤
        2 ^ 26 * 2 ^ ((Format.single.value ordinal).exponent - 2) := by
  have significand := Format.single.significand_ne_zero nonzero
  have small := single_significand_lt ordinal
  obtain ⟨-, -, point⟩ := shortest_found nonzero finite
  have inside := ((Neighbourhood.contains_iff _ _ _).mp (Neighbourhood.pointAt_contains _ point)).1
  have low : (0 : Rat) < (Format.single.neighbourhood ordinal).low := by
    exact_mod_cast Format.single.neighbourhood_low_pos significand
  have high : ((Format.single.neighbourhood ordinal).high : Rat) ≤ 2 ^ 26 := by
    have top : 4 * (Format.single.value ordinal).significand + 2 ≤ 2 ^ 26 := by omega
    exact_mod_cast top
  exact ⟨lt_of_lt_of_le (mul_pos low (two_zpow_pos _)) inside.1,
    le_trans inside.2 (mul_le_mul_of_nonneg_right high (two_zpow_pos _).le)⟩

theorem shortest_digits :
    (Format.single.shortest ordinal).digits ≠ 0 ∧
      (Format.single.shortest ordinal).digits < 2 ^ 30 := by
  obtain ⟨positive, top⟩ := shortest_between nonzero finite
  have fine := (shortest_found nonzero finite).1
  have unit := (finePower_bounds (single_exponent_ge ordinal) (single_exponent_le finite)).2
  rw [Decimal.toRat] at positive top
  generalize Format.single.shortest ordinal = decimal at *
  have step := ten_zpow_pos decimal.exponent
  have finer : (10 : Rat) ^ finePower (Format.single.value ordinal).exponent ≤
      10 ^ decimal.exponent := zpow_le_zpow_right₀ (by norm_num) fine
  constructor
  · intro zero
    rw [zero] at positive
    simp at positive
  · have scaled : (decimal.digits : Rat) * 10 ^ decimal.exponent ≤
        (2 ^ 26 * 10) * 10 ^ decimal.exponent := by linarith
    have bound : (decimal.digits : Rat) ≤ 2 ^ 26 * 10 := le_of_mul_le_mul_right scaled step
    exact lt_of_le_of_lt (by exact_mod_cast bound) (by decide : 2 ^ 26 * 10 < 2 ^ 30)

theorem shortest_nearest (wide : Format.single.Wide ordinal) :
    Nearest (Format.single.value ordinal).significand
        ((Format.single.shortest ordinal).toRat / 2 ^ (Format.single.value ordinal).exponent) ∧
      Nearest (Format.single.shortest ordinal).digits
        ((Format.single.value ordinal).toRat / 10 ^ (Format.single.shortest ordinal).exponent) := by
  obtain ⟨-, -, point⟩ := shortest_found nonzero finite
  exact ⟨(Format.single.contains_neighbourhood_iff wide
      (Format.single.significand_ne_zero nonzero) _ _).mp (Neighbourhood.pointAt_contains _ point),
    Format.single.pointAt_nearest wide nonzero point⟩

end Singles

end OpenSoundControl.Numeric
