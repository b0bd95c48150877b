import OpenSoundControl.Proofs.Separation

/-!
A single read by way of a double. The shortest decimal of a single reads back as it when it is
rounded once. A double rounds twice, and the second rounding goes wrong only if the first one
reaches the middle between two singles; then the decimal would be that middle, or nearly so.
-/

namespace OpenSoundControl.Numeric

/-- The middle between an integer and its neighbour on either side, in halves. -/
def Beside (integer halves : Nat) : Prop :=
  halves = 2 * integer + 1 ∨ halves + 1 = 2 * integer

theorem Beside.distance {integer halves : Nat} (beside : Beside integer halves) {unit : Rat}
    (positive : 0 < unit) : |halves * (unit / 2) - integer * unit| = unit / 2 := by
  rcases beside with rfl | below
  · push_cast
    rw [abs_of_nonneg (by linarith)]
    ring
  · have cast : (halves : Rat) = 2 * integer - 1 :=
      eq_sub_of_add_eq (by exact_mod_cast below)
    rw [cast, abs_of_nonpos (by linarith)]
    ring

theorem Nearest.crossed {integer : Nat} {before after : Rat} (nearest : Nearest integer before)
    (lost : ¬Nearest integer after) (nonzero : integer ≠ 0) :
    ∃ halves : Nat, Beside integer halves ∧ |before - halves / 2| ≤ |after - before| := by
  obtain ⟨low, high⟩ := ((nearest_iff _ _).mp nearest).1
  have outside : after ≤ integer - 1 / 2 ∨ integer + 1 / 2 ≤ after := by
    by_contra inside
    rw [not_or, not_le, not_le] at inside
    exact lost ((nearest_iff _ _).mpr ⟨⟨inside.1.le, inside.2.le⟩, fun _ => inside⟩)
  rcases outside with below | above
  · have cast : ((2 * integer - 1 : Nat) : Rat) / 2 = integer - 1 / 2 := by
      rw [Nat.cast_sub (by omega)]
      push_cast
      ring
    refine ⟨2 * integer - 1, .inr (by omega), ?_⟩
    rw [cast, abs_of_nonneg (by linarith), abs_of_nonpos (by linarith)]
    linarith
  · have cast : ((2 * integer + 1 : Nat) : Rat) / 2 = integer + 1 / 2 := by
      push_cast
      ring
    refine ⟨2 * integer + 1, .inl rfl, ?_⟩
    rw [cast, abs_of_nonpos (by linarith), abs_of_nonneg (by linarith)]
    linarith

theorem five_pow_le {digits halves : Nat} {ten two : Int} (digitsPos : 0 < digits)
    (halvesPos : 0 < halves) (same : (digits * 10 ^ ten : Rat) = halves * 2 ^ two) :
    5 ^ ten.toNat ≤ halves ∧ 5 ^ (-ten).toNat ≤ digits := by
  have whole : digits * (10 ^ ten.toNat * 2 ^ (-two).toNat) =
      halves * (2 ^ two.toNat * 10 ^ (-ten).toNat) :=
    le_antisymm ((ten_le_two_iff _ _ _ _).mp same.le) ((two_le_ten_iff _ _ _ _).mp same.ge)
  have coprime (power place : Nat) : Nat.Coprime (5 ^ power) (2 ^ place) :=
    Nat.Coprime.pow _ _ (by decide)
  rcases Int.le_total 0 ten with nonneg | nonpos
  · have none : (-ten).toNat = 0 := by omega
    refine ⟨Nat.le_of_dvd halvesPos ((coprime _ two.toNat).dvd_of_dvd_mul_right ?_), by
      rwa [none, Nat.pow_zero]⟩
    rw [none, Nat.pow_zero, Nat.mul_one] at whole
    rw [← whole]
    exact Dvd.dvd.mul_left (Dvd.dvd.mul_right (pow_dvd_pow_of_dvd (by decide) _) _) _
  · have none : ten.toNat = 0 := by omega
    refine ⟨by rwa [none, Nat.pow_zero],
      Nat.le_of_dvd digitsPos ((coprime _ (-two).toNat).dvd_of_dvd_mul_right ?_)⟩
    rw [none, Nat.pow_zero, Nat.one_mul] at whole
    rw [whole]
    exact Dvd.dvd.mul_left (Dvd.dvd.mul_left (pow_dvd_pow_of_dvd (by decide) _) _) _

theorem on_coarse_grid {exponent : Int} {decimal : Decimal} (fine : exponent ≤ decimal.exponent) :
    decimal.toRat = (decimal.digits * 10 ^ (decimal.exponent - exponent).toNat : Nat) *
      10 ^ exponent := by
  have split : (10 : Rat) ^ decimal.exponent =
      10 ^ (decimal.exponent - exponent).toNat * 10 ^ exponent := by
    rw [← zpow_natCast, ← zpow_add₀ (by norm_num)]
    congr 1
    omega
  rw [Decimal.toRat, split]
  push_cast
  ring

theorem le_of_five_pow_le {power bound : Nat} (le : 5 ^ power ≤ bound) (small : bound < 2 ^ 30) :
    power ≤ 22 := by
  by_contra large
  have many : 5 ^ 23 ≤ 5 ^ power := Nat.pow_le_pow_right (by decide) (by omega)
  omega

/-- A single whose neighbours are equally far, and between which and its neighbours no middle is
too close to a decimal. -/
structure Ordinary (ordinal : Nat) : Prop where
  wide : Format.single.Wide ordinal
  middles : ∀ halves, Beside (Format.single.value ordinal).significand halves →
    ¬Elusive (Format.single.value ordinal).exponent halves

theorem ordinary_or_special {ordinal : Nat} (finite : ordinal < Format.single.infinity) :
    Ordinary ordinal ∨ (∃ step < 253, ordinal = (step + 2) * 2 ^ 23) ∨
      ordinal = 0x15AE43FD ∨ ordinal = 0x15AE43FE := by
  have whole := Format.single.ordinal_eq ordinal
  have low := single_exponent_ge ordinal
  have high := single_exponent_le finite
  have least : Format.single.leastExponent = -149 := rfl
  have binade : Format.single.binade = 2 ^ 23 := rfl
  rw [least, binade] at whole
  by_cases wide : Format.single.Wide ordinal
  · by_cases middles : ∀ halves, Beside (Format.single.value ordinal).significand halves →
        ¬Elusive (Format.single.value ordinal).exponent halves
    · exact .inl ⟨wide, middles⟩
    · push Not at middles
      obtain ⟨halves, side, exponent, middle⟩ := middles
      rw [exponent] at whole
      rw [Beside] at side
      exact .inr (.inr (by omega))
  · rw [Format.Wide, not_forall] at wide
    obtain ⟨power, above⟩ := wide
    exact .inr (.inl ⟨((Format.single.value ordinal).exponent + 148).toNat, by omega, by omega⟩)

section Singles

variable {ordinal : Nat} (nonzero : ordinal ≠ 0) (finite : ordinal < Format.single.infinity)

include nonzero finite

theorem coarsePower_le (wide : Format.single.Wide ordinal) {halves : Nat}
    (side : Beside (Format.single.value ordinal).significand halves)
    (close : |(Format.single.shortest ordinal).toRat -
        halves * 2 ^ ((Format.single.value ordinal).exponent - 1)| ≤
      (Format.single.shortest ordinal).toRat * Double.share) :
    coarsePower (Format.single.value ordinal).exponent ≤
      (Format.single.shortest ordinal).exponent := by
  have top := (shortest_between nonzero finite).2
  have centred := (shortest_nearest nonzero finite wide).2.error
  have coarse := (coarsePower_bounds (single_exponent_ge ordinal) (single_exponent_le finite)).2
  have half := side.distance (two_zpow_pos (Format.single.value ordinal).exponent)
  rw [two_zpow_pred] at close
  rw [two_zpow_quarter] at top
  rw [Binary.toRat] at centred
  rw [Decimal.toRat] at top close
  generalize Format.single.value ordinal = value at *
  generalize Format.single.shortest ordinal = decimal at *
  have step := ten_zpow_pos decimal.exponent
  have unit := two_zpow_pos value.exponent
  have centre := mul_le_mul_of_nonneg_right centred step.le
  rw [abs_sub_mul_pos _ _ step, div_mul_cancel₀ _ step.ne'] at centre
  -- from the end of the range by way of the decimal to the magnitude
  have triangle := abs_sub_le ((halves : Rat) * (2 ^ value.exponent / 2))
    (decimal.digits * 10 ^ decimal.exponent) (value.significand * 2 ^ value.exponent)
  rw [half, abs_sub_comm ((halves : Rat) * (2 ^ value.exponent / 2))] at triangle
  rw [Double.share] at close
  have spread : (10 : Rat) ^ (coarsePower value.exponent - 1) < 10 ^ decimal.exponent := by
    linarith
  have below := (zpow_lt_zpow_iff_right₀ (by norm_num)).mp spread
  omega

theorem shortest_eq_middle (wide : Format.single.Wide ordinal) {halves : Nat}
    (side : Beside (Format.single.value ordinal).significand halves)
    (ordinary : ¬Elusive (Format.single.value ordinal).exponent halves)
    (close : |(Format.single.shortest ordinal).toRat -
        halves * 2 ^ ((Format.single.value ordinal).exponent - 1)| ≤
      (Format.single.shortest ordinal).toRat * Double.share) :
    (Format.single.shortest ordinal).toRat =
      halves * 2 ^ ((Format.single.value ordinal).exponent - 1) := by
  -- on the coarse grid the decimal has too few digits to come that close to another middle
  have coarse := coarsePower_le nonzero finite wide side close
  have low := single_exponent_ge ordinal
  have high := single_exponent_le finite
  have significand := single_significand_lt ordinal
  have top := (shortest_between nonzero finite).2
  have digits := (shortest_digits nonzero finite).1
  have unit := (coarsePower_bounds low high).1
  have gridded := on_coarse_grid coarse
  rw [Beside] at side
  rw [gridded] at close top ⊢
  generalize counted : (Format.single.shortest ordinal).digits * 10 ^
    ((Format.single.shortest ordinal).exponent -
      coarsePower (Format.single.value ordinal).exponent).toNat = count at *
  have step := ten_zpow_pos (coarsePower (Format.single.value ordinal).exponent)
  refine eq_middle low high ?_ ?_ (by omega) (by omega) ordinary ?_ close
  · rw [← counted]
    exact Nat.mul_pos (Nat.pos_of_ne_zero digits) (Nat.pow_pos (by decide))
  · have bound : (count : Rat) * 10 ^ coarsePower (Format.single.value ordinal).exponent ≤
        2 ^ 24 * 10 ^ coarsePower (Format.single.value ordinal).exponent := by
      rw [two_zpow_quarter] at top
      linarith
    exact_mod_cast le_of_mul_le_mul_right bound step
  · rw [two_zpow_quarter] at top
    rw [two_zpow_pred]
    linarith

theorem nearest_of_close (ordinary : Ordinary ordinal) {read : Rat}
    (close : Within read (Format.single.shortest ordinal).toRat Double.share)
    (kept : ∀ halves : Nat, 0 < halves → halves < 2 ^ 25 →
      (Format.single.shortest ordinal).toRat =
        halves * 2 ^ ((Format.single.value ordinal).exponent - 1) →
      read = (Format.single.shortest ordinal).toRat) :
    Nearest (Format.single.value ordinal).significand
      (read / 2 ^ (Format.single.value ordinal).exponent) := by
  have significand := Format.single.significand_ne_zero nonzero
  have small := single_significand_lt ordinal
  have unit := two_zpow_pos (Format.single.value ordinal).exponent
  have written := (shortest_nearest nonzero finite ordinary.wide).1
  by_contra lost
  obtain ⟨halves, side, crossed⟩ := written.crossed lost significand
  have scaled := mul_le_mul_of_nonneg_right crossed unit.le
  rw [abs_sub_mul_pos _ _ unit, abs_sub_mul_pos _ _ unit, div_mul_cancel₀ _ unit.ne',
    div_mul_cancel₀ _ unit.ne', div_mul_eq_mul_div, mul_div_assoc, ← two_zpow_pred] at scaled
  have reached := shortest_eq_middle nonzero finite ordinary.wide side
    (ordinary.middles halves side) (le_trans scaled close)
  rcases side with above | below
  · rw [kept halves (by omega) (by omega) reached] at lost
    exact lost written
  · rw [kept halves (by omega) (by omega) reached] at lost
    exact lost written

structure Recovers (double ordinal : Nat) : Prop where
  finite : double < Format.double.infinity
  close : Within (Double.toRat double) (Format.single.shortest ordinal).toRat Double.share
  kept : ∀ halves : Nat, 0 < halves → halves < 2 ^ 25 →
    (Format.single.shortest ordinal).toRat =
      halves * 2 ^ ((Format.single.value ordinal).exponent - 1) →
    Double.toRat double = (Format.single.shortest ordinal).toRat

theorem Recovers.convert {double : Nat} (recovers : Recovers double ordinal)
    (ordinary : Ordinary ordinal) : Format.double.convert Format.single double = ordinal := by
  have near := nearest_of_close nonzero finite ordinary recovers.close recovers.kept
  have read := recovers.close.pos (shortest_between nonzero finite).1
    (by norm_num [Double.share])
  rw [Format.convert, if_neg (not_le.mpr recovers.finite)]
  rw [Double.toRat] at near read
  refine Format.single.nearest_eq_ordinal (Binary.toRatio_numerator_ne_zero read)
    (Binary.toRatio_denominator_pos _) finite ?_ ?_
  · rw [Binary.toRat_toRatio]
    exact near
  · intro power above
    exact absurd (ordinary.wide power) (not_le.mpr above)

theorem shortest_range : 1 / 2 ^ 255 ≤ (Format.single.shortest ordinal).toRat ∧
    (Format.single.shortest ordinal).toRat < 2 ^ 255 := by
  obtain ⟨digits, -⟩ := shortest_digits nonzero finite
  obtain ⟨low, -⟩ := shortest_exponent nonzero finite
  have top := (shortest_between nonzero finite).2
  have unit := two_zpow_le (by have := single_exponent_le finite; omega :
    (Format.single.value ordinal).exponent - 2 ≤ 102)
  have step : (10 : Rat) ^ (-46 : Int) ≤ 10 ^ (Format.single.shortest ordinal).exponent :=
    zpow_le_zpow_right₀ (by norm_num) low
  have one : (1 : Rat) ≤ (Format.single.shortest ordinal).digits := by
    exact_mod_cast Nat.one_le_iff_ne_zero.mpr digits
  constructor
  · calc (1 : Rat) / 2 ^ 255 ≤ 1 * 10 ^ (-46 : Int) := by norm_num
      _ ≤ (Format.single.shortest ordinal).digits *
          10 ^ (Format.single.shortest ordinal).exponent := by gcongr
  · refine lt_of_le_of_lt top ?_
    calc (2 : Rat) ^ 26 * 2 ^ ((Format.single.value ordinal).exponent - 2)
        ≤ 2 ^ 26 * 2 ^ (102 : Int) := by gcongr
      _ < 2 ^ 255 := by norm_num

theorem recovers_nearestTo {decimal : Decimal}
    (same : decimal.toRat = (Format.single.shortest ordinal).toRat) :
    Recovers (Double.nearestTo decimal) ordinal := by
  have positive := (shortest_between nonzero finite).1
  obtain ⟨bottom, top⟩ := shortest_range nonzero finite
  have low := single_exponent_ge ordinal
  rw [← same] at positive bottom top
  have rounds := Double.nearestTo_rounds bottom top
  rw [same] at positive rounds
  refine ⟨rounds.finite, rounds.error.widen positive.le (by norm_num [Double.share]), ?_⟩
  intro halves _ bound middle
  exact rounds.exact halves _ middle (by omega) (by omega)

end Singles

end OpenSoundControl.Numeric
