import OpenSoundControl.Numeric.Binary
import Mathlib.Algebra.Order.Field.Power
import Mathlib.Algebra.Order.Ring.Rat
import Mathlib.Tactic.FieldSimp
import Mathlib.Tactic.Linarith
import Mathlib.Tactic.Positivity
import Mathlib.Tactic.Ring

/-!
Rounding to a binary format, over the rational numbers. A ratio becomes the magnitude nearest to
it: the error is at most half a unit in the last place, a ratio that the format holds is kept, and
a ratio in the middle goes to the even significand.
-/

namespace OpenSoundControl.Numeric

theorem zpow_eq_div {base : Rat} (nonzero : base ≠ 0) (exponent : Int) :
    base ^ exponent = base ^ exponent.toNat / base ^ (-exponent).toNat := by
  rw [← zpow_natCast, ← zpow_natCast, ← zpow_sub₀ nonzero]
  congr 1
  omega

theorem two_zpow_pos (exponent : Int) : (0 : Rat) < 2 ^ exponent :=
  zpow_pos (by norm_num) exponent

theorem two_zpow_succ (exponent : Int) : (2 : Rat) ^ (exponent + 1) = 2 * 2 ^ exponent := by
  rw [zpow_add_one₀ (by norm_num), mul_comm]

theorem two_zpow_pred (exponent : Int) : (2 : Rat) ^ (exponent - 1) = 2 ^ exponent / 2 := by
  rw [zpow_sub_one₀ (by norm_num), div_eq_mul_inv]

theorem two_zpow_quarter (exponent : Int) : (2 : Rat) ^ (exponent - 2) = 2 ^ exponent / 4 := by
  rw [zpow_sub₀ (by norm_num)]
  norm_num

theorem two_zpow_le {low high : Int} (le : low ≤ high) : (2 : Rat) ^ low ≤ 2 ^ high :=
  zpow_le_zpow_right₀ (by norm_num) le

theorem le_of_two_zpow_lt {low high : Int} (lt : (2 : Rat) ^ low < 2 ^ (high + 1)) : low ≤ high :=
  Int.lt_add_one_iff.mp ((zpow_lt_zpow_iff_right₀ (by norm_num)).mp lt)

theorem abs_sub_mul_pos (left right : Rat) {unit : Rat} (positive : 0 < unit) :
    |left - right| * unit = |left * unit - right * unit| := by
  rw [← sub_mul, abs_mul, abs_of_pos positive]

def Ratio.toRat (ratio : Ratio) : Rat :=
  ratio.numerator / ratio.denominator

def Binary.toRat (binary : Binary) : Rat :=
  binary.significand * 2 ^ binary.exponent

theorem Ratio.toRat_ofPower (value : Nat) {base : Nat} (positive : 0 < base) (exponent : Int) :
    (Ratio.ofPower value base exponent).toRat = value * (base : Rat) ^ exponent := by
  rw [zpow_eq_div (Nat.cast_ne_zero.mpr positive.ne')]
  simp [Ratio.toRat, Ratio.ofPower, mul_div_assoc]

theorem Binary.toRat_toRatio (binary : Binary) : binary.toRatio.toRat = binary.toRat := by
  exact Ratio.toRat_ofPower binary.significand (by decide) binary.exponent

/-- An integer nearest to a number; of two such integers, the even one. -/
structure Nearest (integer : Nat) (number : Rat) : Prop where
  error : |integer - number| ≤ 1 / 2
  tie : |integer - number| = 1 / 2 → integer % 2 = 0

theorem Nearest.unique {left right : Nat} {number : Rat} (first : Nearest left number)
    (second : Nearest right number) : left = right := by
  obtain ⟨leftLow, leftHigh⟩ := abs_le.mp first.error
  obtain ⟨rightLow, rightHigh⟩ := abs_le.mp second.error
  have near : |(left : Rat) - right| ≤ 1 := abs_le.mpr ⟨by linarith, by linarith⟩
  have close : |(left : Int) - right| ≤ 1 := by exact_mod_cast near
  by_contra different
  obtain ⟨closeLow, closeHigh⟩ := abs_le.mp close
  -- neighbours are both nearest only to their middle, and one of them is odd
  rcases Nat.lt_or_gt_of_ne different with less | greater
  · obtain rfl : right = left + 1 := by omega
    push_cast at rightHigh
    have left' := first.tie (by rw [abs_of_nonpos] <;> linarith)
    have right' := second.tie (by push_cast; rw [abs_of_nonneg] <;> linarith)
    omega
  · obtain rfl : left = right + 1 := by omega
    push_cast at leftHigh
    have left' := first.tie (by push_cast; rw [abs_of_nonneg] <;> linarith)
    have right' := second.tie (by rw [abs_of_nonpos] <;> linarith)
    omega

theorem nearest_of_eq (integer : Nat) {number : Rat} (same : number = integer) :
    Nearest integer number := by
  constructor
  · simp [same]
  · simp [same]

theorem nearest_below (integer : Nat) {fraction : Rat} (nonneg : 0 ≤ fraction)
    (small : fraction < 1 / 2) : Nearest integer (integer + fraction) := by
  have error : |(integer : Rat) - (integer + fraction)| < 1 / 2 :=
    abs_lt.mpr ⟨by linarith, by linarith⟩
  exact ⟨error.le, fun tie => absurd tie error.ne⟩

theorem nearest_above (integer : Nat) {fraction : Rat} (large : 1 / 2 < fraction)
    (proper : fraction < 1) : Nearest (integer + 1) (integer + fraction) := by
  have error : |((integer + 1 : Nat) : Rat) - (integer + fraction)| < 1 / 2 := by
    push_cast
    exact abs_lt.mpr ⟨by linarith, by linarith⟩
  exact ⟨error.le, fun tie => absurd tie error.ne⟩

theorem nearest_middle (integer : Nat) :
    Nearest (integer + integer % 2) ((integer : Rat) + 1 / 2) := by
  refine ⟨?_, fun _ => by omega⟩
  rcases Nat.mod_two_eq_zero_or_one integer with even | odd
  · rw [even]
    norm_num
  · rw [odd]
    norm_num

theorem nearest_quotient (numerator : Nat) {denominator : Nat} (positive : 0 < denominator) :
    Nearest
      (if 2 * (numerator % denominator) < denominator then numerator / denominator
      else if denominator < 2 * (numerator % denominator) then numerator / denominator + 1
      else numerator / denominator + numerator / denominator % 2)
      ((numerator : Rat) / denominator) := by
  have cast : (0 : Rat) < denominator := by exact_mod_cast positive
  have below : numerator % denominator < denominator := Nat.mod_lt numerator positive
  have whole := Nat.div_add_mod numerator denominator
  generalize numerator / denominator = quotient at *
  generalize numerator % denominator = remainder at *
  have value : (numerator : Rat) / denominator = quotient + remainder / denominator := by
    rw [← whole]
    push_cast
    field_simp
  rw [value]
  split
  · rename_i less
    refine nearest_below quotient (by positivity) ?_
    rw [div_lt_div_iff₀ cast (by norm_num)]
    exact_mod_cast (by omega : remainder * 2 < 1 * denominator)
  · split
    · rename_i greater
      refine nearest_above quotient ?_ ((div_lt_one cast).mpr (by exact_mod_cast below))
      rw [div_lt_div_iff₀ (by norm_num) cast]
      exact_mod_cast (by omega : 1 * denominator < remainder * 2)
    · have half : (remainder : Rat) / denominator = 1 / 2 := by
        rw [div_eq_div_iff cast.ne' (by norm_num)]
        exact_mod_cast (by omega : remainder * 2 = 1 * denominator)
      rw [half]
      exact nearest_middle quotient

theorem Ratio.roundAt_nearest {ratio : Ratio} (positive : 0 < ratio.denominator)
    (exponent : Int) : Nearest (ratio.roundAt exponent) (ratio.toRat / 2 ^ exponent) := by
  have scaled : ratio.toRat / 2 ^ exponent =
      ((ratio.numerator * Nat.pow 2 (-exponent).toNat : Nat) : Rat) /
        (ratio.denominator * Nat.pow 2 exponent.toNat : Nat) := by
    rw [zpow_eq_div (by norm_num), Ratio.toRat]
    have cast : (ratio.denominator : Rat) ≠ 0 := Nat.cast_ne_zero.mpr positive.ne'
    push_cast [Nat.pow_eq]
    field_simp
  rw [scaled]
  exact nearest_quotient _ (Nat.mul_pos positive (Nat.pow_pos (by decide)))

theorem Ratio.magnitude_spec {ratio : Ratio} (nonzero : ratio.numerator ≠ 0)
    (positive : 0 < ratio.denominator) :
    2 ^ ratio.magnitude ≤ ratio.toRat ∧ ratio.toRat < 2 ^ (ratio.magnitude + 1) := by
  have cast : (0 : Rat) < ratio.denominator := by exact_mod_cast positive
  have numeratorLow : (2 : Rat) ^ (ratio.numerator.log2 : Int) ≤ ratio.numerator := by
    exact_mod_cast Nat.log2_self_le nonzero
  have numeratorHigh : (ratio.numerator : Rat) < 2 ^ ((ratio.numerator.log2 : Int) + 1) := by
    exact_mod_cast Nat.lt_log2_self
  have denominatorLow : (2 : Rat) ^ (ratio.denominator.log2 : Int) ≤ ratio.denominator := by
    exact_mod_cast Nat.log2_self_le positive.ne'
  have denominatorHigh : (ratio.denominator : Rat) < 2 ^ ((ratio.denominator.log2 : Int) + 1) := by
    exact_mod_cast Nat.lt_log2_self
  -- the logarithms of the two parts tell the magnitude up to one
  generalize estimated : (ratio.numerator.log2 : Int) - ratio.denominator.log2 = estimate
  have low : 2 ^ (estimate - 1) ≤ ratio.toRat := by
    rw [Ratio.toRat, le_div_iff₀ cast]
    calc (2 : Rat) ^ (estimate - 1) * ratio.denominator
        ≤ 2 ^ (estimate - 1) * 2 ^ ((ratio.denominator.log2 : Int) + 1) :=
          mul_le_mul_of_nonneg_left denominatorHigh.le (two_zpow_pos _).le
      _ = 2 ^ (ratio.numerator.log2 : Int) := by
          rw [← zpow_add₀ (by norm_num)]
          congr 1
          omega
      _ ≤ ratio.numerator := numeratorLow
  have high : ratio.toRat < 2 ^ (estimate + 1) := by
    rw [Ratio.toRat, div_lt_iff₀ cast]
    calc (ratio.numerator : Rat)
        < 2 ^ ((ratio.numerator.log2 : Int) + 1) := numeratorHigh
      _ = 2 ^ (estimate + 1) * 2 ^ (ratio.denominator.log2 : Int) := by
          rw [← zpow_add₀ (by norm_num)]
          congr 1
          omega
      _ ≤ 2 ^ (estimate + 1) * ratio.denominator :=
          mul_le_mul_of_nonneg_left denominatorLow (two_zpow_pos _).le
  have reached : ratio.denominator * Nat.pow 2 estimate.toNat ≤
      ratio.numerator * Nat.pow 2 (-estimate).toNat ↔ 2 ^ estimate ≤ ratio.toRat := by
    rw [zpow_eq_div (by norm_num), Ratio.toRat, div_le_div_iff₀ (by positivity) cast, mul_comm]
    norm_cast
  simp only [Ratio.magnitude, estimated, reached]
  by_cases above : 2 ^ estimate ≤ ratio.toRat
  · simpa only [if_pos above] using ⟨above, high⟩
  · simpa only [if_neg above, sub_add_cancel] using ⟨low, not_le.mp above⟩

theorem Nearest.le_of_lt {integer bound : Nat} {number : Rat} (nearest : Nearest integer number)
    (below : number < bound) : integer ≤ bound := by
  obtain ⟨_, high⟩ := abs_le.mp nearest.error
  have close : (integer : Rat) < bound + 1 := by linarith
  exact Nat.lt_add_one_iff.mp (by exact_mod_cast close)

theorem Nearest.ge_of_le {integer bound : Nat} {number : Rat} (nearest : Nearest integer number)
    (above : bound ≤ number) : bound ≤ integer := by
  obtain ⟨low, _⟩ := abs_le.mp nearest.error
  have close : (bound : Rat) < integer + 1 := by linarith
  exact Nat.lt_add_one_iff.mp (by exact_mod_cast close)

namespace Format

variable (format : Format)

theorem binade_pos : 0 < format.binade :=
  Nat.pow_pos (by decide)

theorem cast_binade : (format.binade : Rat) = 2 ^ ((format.precision - 1 : Nat) : Int) := by
  rw [zpow_natCast]
  exact_mod_cast rfl

theorem value_significand_lt (ordinal : Nat) :
    (format.value ordinal).significand < 2 * format.binade := by
  have fraction := Nat.mod_lt ordinal format.binade_pos
  rw [value]
  split
  · exact Nat.lt_of_lt_of_le fraction (by omega)
  · simp only
    omega

theorem le_value_exponent (ordinal : Nat) :
    format.leastExponent ≤ (format.value ordinal).exponent := by
  rw [value]
  generalize ordinal / format.binade = step
  split
  · exact Int.le_refl _
  · simp only
    omega

theorem value_normal {ordinal : Nat}
    (above : format.leastExponent < (format.value ordinal).exponent) :
    format.binade ≤ (format.value ordinal).significand := by
  rw [value] at above ⊢
  split at above
  · exact absurd above (Int.lt_irrefl _)
  · rename_i step
    simp [step]

theorem ordinal_eq (ordinal : Nat) : ordinal = (format.value ordinal).significand +
    ((format.value ordinal).exponent - format.leastExponent).toNat * format.binade := by
  have whole := Nat.mod_add_div ordinal format.binade
  rw [value]
  generalize ordinal / format.binade = step at *
  generalize ordinal % format.binade = fraction at *
  cases step with
  | zero => simpa using whole.symm
  | succ before =>
      have place : (format.leastExponent + (before + 1 : Nat) - 1 - format.leastExponent).toNat =
          before := by omega
      simp only [Nat.add_one_ne_zero, if_false, place]
      rw [← whole]
      ring

theorem toRat_value {significand : Nat} {exponent : Int}
    (least : format.leastExponent ≤ exponent) (high : significand ≤ 2 * format.binade)
    (low : format.binade ≤ significand ∨ exponent = format.leastExponent) :
    (format.value (significand + (exponent - format.leastExponent).toNat * format.binade)).toRat =
      significand * 2 ^ exponent := by
  have positive := format.binade_pos
  obtain ⟨steps, rfl⟩ : ∃ steps : Nat, exponent = format.leastExponent + steps :=
    ⟨(exponent - format.leastExponent).toNat, by omega⟩
  have place : (format.leastExponent + steps - format.leastExponent).toNat = steps := by omega
  rw [value, place, Nat.add_mul_div_right _ _ positive, Nat.add_mul_mod_self_right]
  rcases Nat.lt_trichotomy significand (2 * format.binade) with below | full | above
  · by_cases normal : format.binade ≤ significand
    · have one : significand / format.binade = 1 :=
        Nat.div_eq_of_lt_le (by omega) (by omega)
      have rest : significand % format.binade + format.binade = significand := by
        have whole := Nat.mod_add_div significand format.binade
        rw [one] at whole
        omega
      rw [one, if_neg (by omega), rest, Binary.toRat]
      congr 2
      push_cast
      omega
    · have none : steps = 0 := by
        rcases low with reached | bottom
        · contradiction
        · omega
      simp [none, Nat.div_eq_of_lt (not_le.mp normal), Nat.mod_eq_of_lt (not_le.mp normal),
        Binary.toRat]
  · rw [full, Nat.mul_div_cancel _ positive, Nat.mul_mod_left, if_neg (by omega), Binary.toRat]
    have next : format.leastExponent + ((2 + steps : Nat) : Int) - 1 =
        format.leastExponent + steps + 1 := by
      push_cast
      omega
    simp only [next, two_zpow_succ]
    push_cast
    ring
  · omega

def exponentFor (ratio : Ratio) : Int :=
  max format.leastExponent (ratio.magnitude - (format.precision - 1 : Nat))

theorem nearest_of_nonzero {ratio : Ratio} (nonzero : ratio.numerator ≠ 0) :
    format.nearest ratio = min (ratio.roundAt (format.exponentFor ratio) +
      (format.exponentFor ratio - format.leastExponent).toNat * format.binade) format.infinity := by
  rw [nearest, if_neg nonzero]
  rfl

section Nonzero

variable {ratio : Ratio} (nonzero : ratio.numerator ≠ 0) (positive : 0 < ratio.denominator)

include nonzero positive

theorem toRat_lt_exponentFor :
    ratio.toRat / 2 ^ format.exponentFor ratio < (2 * format.binade : Nat) := by
  have magnitude := (Ratio.magnitude_spec nonzero positive).2
  rw [div_lt_iff₀ (two_zpow_pos _)]
  push_cast
  rw [cast_binade, mul_assoc, ← zpow_add₀ (by norm_num), ← two_zpow_succ]
  refine lt_of_lt_of_le magnitude (two_zpow_le ?_)
  rw [exponentFor]
  omega

theorem roundAt_exponentFor_le :
    ratio.roundAt (format.exponentFor ratio) ≤ 2 * format.binade :=
  (Ratio.roundAt_nearest positive _).le_of_lt
    (format.toRat_lt_exponentFor nonzero positive)

theorem binade_le_roundAt (above : format.leastExponent < format.exponentFor ratio) :
    format.binade ≤ ratio.roundAt (format.exponentFor ratio) := by
  refine (Ratio.roundAt_nearest positive _).ge_of_le ?_
  rw [le_div_iff₀ (two_zpow_pos _), cast_binade, ← zpow_add₀ (by norm_num)]
  refine le_trans (two_zpow_le ?_) (Ratio.magnitude_spec nonzero positive).1
  rw [exponentFor] at above ⊢
  omega

theorem toRat_nearest (finite : format.nearest ratio < format.infinity) :
    (format.value (format.nearest ratio)).toRat =
      ratio.roundAt (format.exponentFor ratio) * 2 ^ format.exponentFor ratio := by
  rw [format.nearest_of_nonzero nonzero] at finite ⊢
  rw [min_eq_left (by omega)]
  have least : format.leastExponent ≤ format.exponentFor ratio := le_max_left _ _
  refine format.toRat_value least (format.roundAt_exponentFor_le nonzero positive) ?_
  by_cases above : format.leastExponent < format.exponentFor ratio
  · exact .inl (format.binade_le_roundAt nonzero positive above)
  · exact .inr (by omega)

theorem nearest_lt_infinity (top : Int) (below : ratio.toRat < 2 ^ (top + 1))
    (room : (2 + (max format.leastExponent (top - (format.precision - 1 : Nat)) -
      format.leastExponent).toNat) * format.binade < format.infinity) :
    format.nearest ratio < format.infinity := by
  have magnitude : ratio.magnitude ≤ top :=
    le_of_two_zpow_lt (lt_of_le_of_lt (Ratio.magnitude_spec nonzero positive).1 below)
  have rounded := format.roundAt_exponentFor_le nonzero positive
  have places : (format.exponentFor ratio - format.leastExponent).toNat * format.binade ≤
      (max format.leastExponent (top - (format.precision - 1 : Nat)) -
        format.leastExponent).toNat * format.binade := by
    refine Nat.mul_le_mul_right _ (Int.toNat_le_toNat ?_)
    rw [exponentFor]
    omega
  rw [format.nearest_of_nonzero nonzero]
  refine lt_of_le_of_lt (min_le_left _ _) (lt_of_le_of_lt ?_ room)
  rw [Nat.add_mul]
  exact Nat.add_le_add rounded places

theorem nearest_error (finite : format.nearest ratio < format.infinity)
    (normal : 2 ^ (format.leastExponent + (format.precision - 1 : Nat)) ≤ ratio.toRat) :
    |(format.value (format.nearest ratio)).toRat - ratio.toRat| ≤
      ratio.toRat / (2 * format.binade) := by
  have magnitude := Ratio.magnitude_spec nonzero positive
  have reached : format.leastExponent + (format.precision - 1 : Nat) ≤ ratio.magnitude :=
    le_of_two_zpow_lt (lt_of_le_of_lt normal magnitude.2)
  have exponent : format.exponentFor ratio = ratio.magnitude - (format.precision - 1 : Nat) :=
    max_eq_right (by omega)
  have unitPos := two_zpow_pos (format.exponentFor ratio)
  have unit_le : 2 ^ format.exponentFor ratio ≤ ratio.toRat / format.binade := by
    rw [le_div_iff₀ (by exact_mod_cast format.binade_pos), cast_binade, ← zpow_add₀ (by norm_num),
      exponent, sub_add_cancel]
    exact magnitude.1
  have error := (Ratio.roundAt_nearest positive (format.exponentFor ratio)).error
  rw [format.toRat_nearest nonzero positive finite]
  generalize (2 : Rat) ^ format.exponentFor ratio = unit at *
  calc |(ratio.roundAt (format.exponentFor ratio) : Rat) * unit - ratio.toRat|
      = |ratio.roundAt (format.exponentFor ratio) - ratio.toRat / unit| * unit := by
        rw [abs_sub_mul_pos _ _ unitPos, div_mul_cancel₀ _ unitPos.ne']
    _ ≤ 1 / 2 * (ratio.toRat / format.binade) := by gcongr
    _ = ratio.toRat / (2 * format.binade) := by ring

theorem nearest_exact (finite : format.nearest ratio < format.infinity) {significand : Nat}
    {exponent : Int} (value : ratio.toRat = significand * 2 ^ exponent)
    (fits : significand < 2 * format.binade) (least : format.leastExponent ≤ exponent) :
    (format.value (format.nearest ratio)).toRat = ratio.toRat := by
  have magnitude : ratio.magnitude ≤ (format.precision - 1 : Nat) + exponent := by
    refine le_of_two_zpow_lt (lt_of_le_of_lt (Ratio.magnitude_spec nonzero positive).1 ?_)
    have cast : (significand : Rat) < 2 * format.binade := by exact_mod_cast fits
    rw [value, add_right_comm, zpow_add₀ (by norm_num), two_zpow_succ, ← cast_binade]
    exact mul_lt_mul_of_pos_right cast (two_zpow_pos _)
  obtain ⟨shift, rfl⟩ : ∃ shift : Nat, exponent = format.exponentFor ratio + shift :=
    ⟨(exponent - format.exponentFor ratio).toNat, by rw [exponentFor]; omega⟩
  have unit := two_zpow_pos (format.exponentFor ratio)
  have whole : ratio.toRat / 2 ^ format.exponentFor ratio =
      (significand * 2 ^ shift : Nat) := by
    rw [value, zpow_add₀ (by norm_num), div_eq_iff unit.ne']
    push_cast [zpow_natCast]
    ring
  have rounded := (Ratio.roundAt_nearest positive (format.exponentFor ratio)).unique
    (nearest_of_eq _ whole)
  rw [format.toRat_nearest nonzero positive finite, rounded, ← whole, div_mul_cancel₀ _ unit.ne']

theorem exponentFor_eq {exponent : Int} (least : format.leastExponent ≤ exponent)
    (above : format.leastExponent < exponent → format.binade * 2 ^ exponent ≤ ratio.toRat)
    (below : ratio.toRat < 2 * format.binade * 2 ^ exponent) :
    format.exponentFor ratio = exponent := by
  have magnitude := Ratio.magnitude_spec nonzero positive
  have most : ratio.magnitude ≤ (format.precision - 1 : Nat) + exponent := by
    refine le_of_two_zpow_lt (lt_of_le_of_lt magnitude.1 ?_)
    rw [add_right_comm, zpow_add₀ (by norm_num), two_zpow_succ, ← cast_binade]
    exact below
  have fewest : format.leastExponent < exponent →
      (format.precision - 1 : Nat) + exponent ≤ ratio.magnitude := by
    intro bottom
    refine le_of_two_zpow_lt (lt_of_le_of_lt ?_ magnitude.2)
    rw [zpow_add₀ (by norm_num), ← cast_binade]
    exact above bottom
  rw [exponentFor]
  omega

theorem nearest_eq_ordinal {ordinal : Nat} (finite : ordinal < format.infinity)
    (near : Nearest (format.value ordinal).significand
      (ratio.toRat / 2 ^ (format.value ordinal).exponent))
    (wide : (format.value ordinal).significand = format.binade →
      format.leastExponent < (format.value ordinal).exponent →
        (format.value ordinal).toRat ≤ ratio.toRat) :
    format.nearest ratio = ordinal := by
  have whole := format.ordinal_eq ordinal
  have small := format.value_significand_lt ordinal
  have least := format.le_value_exponent ordinal
  have normal := @value_normal format ordinal
  rw [Binary.toRat] at wide
  generalize format.value ordinal = value at *
  obtain ⟨significand, exponent⟩ := value
  simp only at *
  have unit := two_zpow_pos exponent
  obtain ⟨low, high⟩ := abs_le.mp near.error
  have same : format.exponentFor ratio = exponent := by
    refine format.exponentFor_eq nonzero positive least ?_ ?_
    · intro bottom
      by_cases power : significand = format.binade
      · rw [← power]
        exact wide power bottom
      · have more : (format.binade : Rat) + 1 ≤ significand := by
          exact_mod_cast Nat.lt_of_le_of_ne (normal bottom) (Ne.symm power)
        rw [← le_div_iff₀ unit]
        linarith
    · have cast : (significand : Rat) + 1 ≤ 2 * format.binade := by exact_mod_cast small
      rw [← div_lt_iff₀ unit]
      linarith
  have rounded := (Ratio.roundAt_nearest positive exponent).unique near
  rw [format.nearest_of_nonzero nonzero, same, rounded, ← whole]
  exact min_eq_left finite.le

end Nonzero

end Format

end OpenSoundControl.Numeric
