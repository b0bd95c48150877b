import OpenSoundControl.Proofs.ShortestDecimal
import Mathlib.Tactic.LinearCombination

/-!
How close a decimal can come to the middle between two singles. The multiples of a power of ten
and those of half a last place are compared by Euclid's algorithm: the two rows that it keeps are a
basis of all pairs of multiples, one above and one below, so a pair that is not a multiple of one
row is at least as far apart as both rows together.
-/

namespace OpenSoundControl.Numeric

/-- So many steps of the one kind against so many of the other, and how far they are apart. -/
structure Row where
  tens : Nat
  halves : Nat
  gap : Nat
  deriving DecidableEq

/-- In `above` the multiple of the power of ten is the greater one, in `below` the other. -/
structure Basis where
  above : Row
  below : Row
  deriving DecidableEq

def Row.reduce (row other : Row) : Row :=
  let enough := (2 ^ 24 - row.tens) / other.tens + 1
  let count := if other.gap = 0 then enough else min (row.gap / other.gap) enough
  ⟨row.tens + count * other.tens, row.halves + count * other.halves,
    row.gap - count * other.gap⟩

def Basis.step (basis : Basis) : Basis :=
  if basis.below.gap ≤ basis.above.gap then ⟨basis.above.reduce basis.below, basis.below⟩
  else ⟨basis.above, basis.below.reduce basis.above⟩

def Basis.Reached (basis : Basis) : Prop :=
  2 ^ 24 < basis.above.tens ∨ 2 ^ 24 < basis.below.tens

instance (basis : Basis) : Decidable basis.Reached :=
  inferInstanceAs (Decidable (_ ∨ _))

def Basis.run : Nat → Basis → Basis
  | 0, basis => basis
  | steps + 1, basis => if basis.Reached then basis else basis.step.run steps

structure Basis.Valid (ten half : Nat) (basis : Basis) : Prop where
  above : basis.above.tens * ten = basis.above.halves * half + basis.above.gap
  below : basis.below.halves * half = basis.below.tens * ten + basis.below.gap
  unimodular : basis.above.tens * basis.below.halves =
    basis.below.tens * basis.above.halves + 1

section Bases

variable {ten half : Nat} {basis : Basis}

theorem count_mul_le (row other : Row) (enough : Nat) :
    (if other.gap = 0 then enough else min (row.gap / other.gap) enough) * other.gap ≤ row.gap := by
  split
  · rename_i zero
    simp [zero]
  · exact le_trans (Nat.mul_le_mul_right _ (min_le_left _ _)) (Nat.div_mul_le_self _ _)

theorem Basis.Valid.step (valid : basis.Valid ten half) : basis.step.Valid ten half := by
  obtain ⟨above, below, unimodular⟩ := valid
  rw [Basis.step]
  split
  · have enough := count_mul_le basis.above basis.below
      ((2 ^ 24 - basis.above.tens) / basis.below.tens + 1)
    simp only [Row.reduce]
    generalize (if basis.below.gap = 0 then _ else _) = count at *
    refine ⟨?_, below, ?_⟩
    · zify [enough] at above below ⊢
      linear_combination above - count * below
    · linear_combination unimodular
  · have enough := count_mul_le basis.below basis.above
      ((2 ^ 24 - basis.below.tens) / basis.above.tens + 1)
    simp only [Row.reduce]
    generalize (if basis.above.gap = 0 then _ else _) = count at *
    refine ⟨above, ?_, ?_⟩
    · zify [enough] at above below ⊢
      linear_combination below - count * above
    · linear_combination unimodular

theorem Basis.Valid.run (valid : basis.Valid ten half) (steps : Nat) :
    (basis.run steps).Valid ten half := by
  induction steps generalizing basis with
  | zero => exact valid
  | succ steps ih =>
      rw [Basis.run]
      split
      · exact valid
      · exact ih valid.step

theorem add_le_abs_sub {first second left right : Int} (leftNonneg : 0 ≤ left)
    (rightNonneg : 0 ≤ right) (opposite : 0 < first ∧ second < 0 ∨ first < 0 ∧ 0 < second) :
    left + right ≤ |first * left - second * right| := by
  rcases opposite with ⟨above, below⟩ | ⟨below, above⟩
  · refine le_trans ?_ (le_abs_self _)
    have more := mul_le_mul_of_nonneg_right (Int.add_one_le_of_lt above) leftNonneg
    have less := mul_le_mul_of_nonneg_right (Int.le_sub_one_of_lt below) rightNonneg
    linarith
  · refine le_trans ?_ (neg_le_abs _)
    have more := mul_le_mul_of_nonneg_right (Int.add_one_le_of_lt above) rightNonneg
    have less := mul_le_mul_of_nonneg_right (Int.le_sub_one_of_lt below) leftNonneg
    linarith

structure Row.Times (row : Row) (times tens halves gap : Nat) : Prop where
  positive : 0 < times
  tens : tens = times * row.tens
  halves : halves = times * row.halves
  gap : gap = times * row.gap

theorem exists_times {row : Row} {count : Int} {tens halves gap : Nat} (positive : 0 < tens)
    (tensEq : (tens : Int) = count * row.tens) (halvesEq : (halves : Int) = count * row.halves)
    (gapEq : gap = (count * row.gap).natAbs) : ∃ times, row.Times times tens halves gap := by
  have countPos : 0 < count := by
    by_contra none
    have nonpos := mul_nonpos_of_nonpos_of_nonneg (not_lt.mp none) (Int.natCast_nonneg row.tens)
    omega
  obtain ⟨times, rfl⟩ := Int.eq_ofNat_of_zero_le countPos.le
  refine ⟨times, by exact_mod_cast countPos, by exact_mod_cast tensEq,
    by exact_mod_cast halvesEq, ?_⟩
  rw [gapEq, Int.natAbs_mul, Int.natAbs_natCast, Int.natAbs_natCast]

theorem Basis.Valid.coordinates (valid : basis.Valid ten half) (tens halves : Nat) :
    ∃ first second : Int, tens = first * basis.above.tens + second * basis.below.tens ∧
      halves = first * basis.above.halves + second * basis.below.halves ∧
      (tens * ten : Int) - halves * half =
        first * basis.above.gap - second * basis.below.gap := by
  obtain ⟨above, below, unimodular⟩ := valid
  zify at above below unimodular
  refine ⟨tens * basis.below.halves - halves * basis.below.tens,
    halves * basis.above.tens - tens * basis.above.halves, ?_, ?_, ?_⟩
  · linear_combination (tens : Int) * -unimodular
  · linear_combination (halves : Int) * -unimodular
  · linear_combination (tens * basis.below.halves - halves * basis.below.tens) * above -
      (halves * basis.above.tens - tens * basis.above.halves) * below -
      (tens * ten - halves * half : Int) * unimodular

theorem Basis.Valid.apart (valid : basis.Valid ten half) (reached : basis.Reached)
    {tens halves gap : Nat} (positive : 0 < tens) (small : tens ≤ 2 ^ 24)
    (gapEq : gap = ((tens * ten : Int) - halves * half).natAbs) :
    (∃ times, basis.above.Times times tens halves gap) ∨
      (∃ times, basis.below.Times times tens halves gap) ∨
        basis.above.gap + basis.below.gap ≤ gap := by
  obtain ⟨first, second, tensEq, halvesEq, difference⟩ := valid.coordinates tens halves
  rw [difference] at gapEq
  have aboveNonneg : (0 : Int) ≤ basis.above.tens := Int.natCast_nonneg _
  have belowNonneg : (0 : Int) ≤ basis.below.tens := Int.natCast_nonneg _
  have between (opposite : 0 < first ∧ second < 0 ∨ first < 0 ∧ 0 < second) :
      basis.above.gap + basis.below.gap ≤ gap := by
    have sum := add_le_abs_sub (Int.natCast_nonneg basis.above.gap)
      (Int.natCast_nonneg basis.below.gap) opposite
    rw [← Int.natCast_natAbs, ← gapEq] at sum
    exact_mod_cast sum
  rcases Int.lt_trichotomy first 0 with negative | zero | firstPos
  · refine .inr (.inr (between (.inr ⟨negative, ?_⟩)))
    by_contra none
    have aboveNonpos := mul_nonpos_of_nonpos_of_nonneg negative.le aboveNonneg
    have belowNonpos := mul_nonpos_of_nonpos_of_nonneg (not_lt.mp none) belowNonneg
    omega
  · rw [zero, zero_mul, zero_add] at tensEq halvesEq
    rw [zero, zero_mul, zero_sub, Int.natAbs_neg] at gapEq
    exact .inr (.inl (exists_times positive tensEq halvesEq gapEq))
  · rcases Int.lt_trichotomy second 0 with negative | zero | secondPos
    · exact .inr (.inr (between (.inl ⟨firstPos, negative⟩)))
    · rw [zero, zero_mul, add_zero] at tensEq halvesEq
      rw [zero, zero_mul, sub_zero] at gapEq
      exact .inl (exists_times positive tensEq halvesEq gapEq)
    · -- both rows would be needed, and one of them has too many digits
      exfalso
      have aboveLe := mul_le_mul_of_nonneg_right (Int.add_one_le_of_lt firstPos) aboveNonneg
      have belowLe := mul_le_mul_of_nonneg_right (Int.add_one_le_of_lt secondPos) belowNonneg
      rcases reached with many | many
      · omega
      · omega

end Bases

section Singles

def coarsePower (exponent : Int) : Int :=
  -(-exponent * 30103 / 100000)

def coarseTen (exponent : Int) : Nat :=
  10 ^ (coarsePower exponent).toNat * 2 ^ (-(exponent - 1)).toNat

def halfUnit (exponent : Int) : Nat :=
  2 ^ (exponent - 1).toNat * 10 ^ (-coarsePower exponent).toNat

def basisAt (exponent : Int) : Basis :=
  Basis.run 100 ⟨⟨1, 0, coarseTen exponent⟩, ⟨0, 1, halfUnit exponent⟩⟩

theorem valid_basisAt (exponent : Int) :
    (basisAt exponent).Valid (coarseTen exponent) (halfUnit exponent) :=
  Basis.Valid.run ⟨by simp, by simp, by simp⟩ 100

/-- The one middle between two singles that decimals come closer to than a double can tell. -/
def Elusive (exponent : Int) (halves : Nat) : Prop :=
  exponent = -107 ∧ halves = 22841339

instance (exponent : Int) (halves : Nat) : Decidable (Elusive exponent halves) :=
  inferInstanceAs (Decidable (_ ∧ _))

def Row.Clear (exponent : Int) (row : Row) : Prop :=
  2 ^ 24 < row.tens ∨ row.halves % 2 = 0 ∨ 2 ^ 25 ≤ row.halves ∨ row.gap = 0 ∨
    (2 ^ 20 + 1) * (row.tens * coarseTen exponent) < 2 ^ 72 * row.gap ∨
    Elusive exponent row.halves

instance (exponent : Int) (row : Row) : Decidable (row.Clear exponent) :=
  inferInstanceAs (Decidable (_ ∨ _))

structure Basis.Separates (exponent : Int) (basis : Basis) : Prop where
  reached : basis.Reached
  above : basis.above.Clear exponent
  below : basis.below.Clear exponent
  gap : (2 ^ 20 + 1) * (2 ^ 25 * halfUnit exponent) <
    2 ^ 72 * (basis.above.gap + basis.below.gap)

instance (exponent : Int) (basis : Basis) : Decidable (basis.Separates exponent) :=
  decidable_of_iff (basis.Reached ∧ basis.above.Clear exponent ∧ basis.below.Clear exponent ∧
      (2 ^ 20 + 1) * (2 ^ 25 * halfUnit exponent) <
        2 ^ 72 * (basis.above.gap + basis.below.gap))
    ⟨fun checked => ⟨checked.1, checked.2.1, checked.2.2.1, checked.2.2.2⟩,
      fun separates => ⟨separates.reached, separates.above, separates.below, separates.gap⟩⟩

theorem separates_basisAt {exponent : Int} (low : -149 ≤ exponent) (high : exponent ≤ 104) :
    (basisAt exponent).Separates exponent :=
  of_all_exponents (fun exponent => (basisAt exponent).Separates exponent) (by decide +kernel)
    low high

theorem coarsePower_bounds {exponent : Int} (low : -149 ≤ exponent) (high : exponent ≤ 104) :
    (2 : Rat) ^ exponent ≤ 10 ^ coarsePower exponent ∧
      1048576 * (10 : Rat) ^ (coarsePower exponent - 1) ≤ 1048575 * 2 ^ exponent := by
  have table := of_all_exponents (fun exponent =>
    1 * (2 ^ exponent.toNat * 10 ^ (-coarsePower exponent).toNat) ≤
      1 * (10 ^ (coarsePower exponent).toNat * 2 ^ (-exponent).toNat) ∧
    1048576 * (10 ^ (coarsePower exponent - 1).toNat * 2 ^ (-exponent).toNat) ≤
      1048575 * (2 ^ exponent.toNat * 10 ^ (-(coarsePower exponent - 1)).toNat))
    (by decide +kernel) low high
  rw [← ten_le_two_iff, ← two_le_ten_iff] at table
  simpa using table

theorem halfUnit_pos (exponent : Int) : 0 < halfUnit exponent :=
  Nat.mul_pos (Nat.pow_pos (by decide)) (Nat.pow_pos (by decide))

theorem common_part (exponent : Int) : ∃ part : Rat, 0 < part ∧
    10 ^ coarsePower exponent = coarseTen exponent * part ∧
      2 ^ (exponent - 1) = halfUnit exponent * part := by
  have cast : (0 : Rat) < halfUnit exponent := by exact_mod_cast halfUnit_pos exponent
  refine ⟨2 ^ (exponent - 1) / halfUnit exponent, div_pos (two_zpow_pos _) cast, ?_, ?_⟩
  · rw [zpow_eq_div (by norm_num) (coarsePower exponent), zpow_eq_div (by norm_num) (exponent - 1),
      coarseTen, halfUnit]
    push_cast
    field_simp
  · field_simp

theorem gap_eq_of_clear {exponent : Int} {row : Row} {times tens halves gap : Nat}
    (clear : row.Clear exponent) (multiple : row.Times times tens halves gap)
    (small : tens ≤ 2 ^ 24) (odd : halves % 2 = 1) (bounded : halves < 2 ^ 25)
    (ordinary : ¬Elusive exponent halves)
    (close : 2 ^ 72 * gap ≤ (2 ^ 20 + 1) * (tens * coarseTen exponent)) : gap = 0 := by
  obtain ⟨positive, rfl, rfl, rfl⟩ := multiple
  have tensLe : row.tens ≤ times * row.tens := Nat.le_mul_of_pos_left _ positive
  have halvesLe : row.halves ≤ times * row.halves := Nat.le_mul_of_pos_left _ positive
  rcases clear with many | even | far | none | apart | ⟨same, elusive⟩
  · omega
  · rw [Nat.mul_mod, even] at odd
    simp at odd
  · omega
  · rw [none, Nat.mul_zero]
  · have scaled := Nat.mul_lt_mul_of_pos_left apart positive
    exfalso
    linarith
  · exfalso
    refine ordinary ⟨same, ?_⟩
    -- twice this middle is out of range
    have once : times < 2 := by
      by_contra more
      have twice := Nat.mul_le_mul_right row.halves (not_lt.mp more)
      omega
    have one : times = 1 := by omega
    rw [one, Nat.one_mul, elusive]

theorem gap_eq_zero {exponent : Int} (low : -149 ≤ exponent) (high : exponent ≤ 104)
    {digits halves gap : Nat} (positive : 0 < digits) (small : digits ≤ 2 ^ 24)
    (odd : halves % 2 = 1) (bounded : halves < 2 ^ 25) (ordinary : ¬Elusive exponent halves)
    (gapEq : gap = ((digits * coarseTen exponent : Int) - halves * halfUnit exponent).natAbs)
    (range : digits * coarseTen exponent ≤ 2 ^ 25 * halfUnit exponent)
    (close : 2 ^ 72 * gap ≤ (2 ^ 20 + 1) * (digits * coarseTen exponent)) : gap = 0 := by
  have separates := separates_basisAt low high
  rcases (valid_basisAt exponent).apart separates.reached positive small gapEq with
    ⟨times, multiple⟩ | ⟨times, multiple⟩ | apart
  · exact gap_eq_of_clear separates.above multiple small odd bounded ordinary close
  · exact gap_eq_of_clear separates.below multiple small odd bounded ordinary close
  · have limit := separates.gap
    omega

theorem eq_middle {exponent : Int} (low : -149 ≤ exponent) (high : exponent ≤ 104)
    {digits halves : Nat} (positive : 0 < digits) (small : digits ≤ 2 ^ 24)
    (odd : halves % 2 = 1) (bounded : halves < 2 ^ 25) (ordinary : ¬Elusive exponent halves)
    (range : (digits * 10 ^ coarsePower exponent : Rat) ≤ 2 ^ 25 * 2 ^ (exponent - 1))
    (close : |(digits * 10 ^ coarsePower exponent : Rat) - halves * 2 ^ (exponent - 1)| ≤
      digits * 10 ^ coarsePower exponent * Double.share) :
    (digits * 10 ^ coarsePower exponent : Rat) = halves * 2 ^ (exponent - 1) := by
  obtain ⟨part, partPos, tenEq, halfEq⟩ := common_part exponent
  obtain ⟨gap, gapEq⟩ : ∃ gap : Nat,
      gap = ((digits * coarseTen exponent : Int) - halves * halfUnit exponent).natAbs := ⟨_, rfl⟩
  have gapCast : (gap : Rat) =
      |(digits * coarseTen exponent : Rat) - halves * halfUnit exponent| := by
    rw [gapEq, Nat.cast_natAbs]
    push_cast
    rfl
  have rangeNat : digits * coarseTen exponent ≤ 2 ^ 25 * halfUnit exponent := by
    rw [tenEq, halfEq, ← mul_assoc, ← mul_assoc] at range
    exact_mod_cast le_of_mul_le_mul_right range partPos
  have closeNat : 2 ^ 72 * gap ≤ (2 ^ 20 + 1) * (digits * coarseTen exponent) := by
    rw [tenEq, halfEq, ← mul_assoc, ← mul_assoc, ← abs_sub_mul_pos _ _ partPos, ← gapCast,
      mul_right_comm] at close
    have shared := le_of_mul_le_mul_right close partPos
    rw [Double.share, mul_div_assoc', le_div_iff₀ (by norm_num)] at shared
    have cast : (2 ^ 72 * gap : Rat) ≤ (2 ^ 20 + 1) * (digits * coarseTen exponent) := by linarith
    exact_mod_cast cast
  have none := gap_eq_zero low high positive small odd bounded ordinary gapEq rangeNat closeNat
  rw [none, Nat.cast_zero] at gapCast
  have same := sub_eq_zero.mp (abs_eq_zero.mp gapCast.symm)
  rw [tenEq, halfEq, ← mul_assoc, ← mul_assoc, same]

end Singles

end OpenSoundControl.Numeric
