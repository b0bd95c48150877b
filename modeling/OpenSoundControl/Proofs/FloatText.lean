import OpenSoundControl.Proofs.Numerals
import OpenSoundControl.Proofs.DoubleRounding

/-!
A finite single survives its own text. The digits that are written out do not change the decimal,
and the decimal becomes a double that is rounded to the single again. If the double were always the
nearest one, one magnitude would become its neighbour.
-/

namespace OpenSoundControl.Json

open Numeric

theorem leading_toNat {decimal : Decimal} (whole : 0 ≤ decimal.leading)
    (fits : (digitsOf decimal.digits).length ≤ decimal.leading.toNat + 1) :
    decimal.leading.toNat + 1 - (digitsOf decimal.digits).length = decimal.exponent.toNat ∧
      0 ≤ decimal.exponent := by
  rw [Decimal.leading] at whole fits ⊢
  omega

theorem toRat_rewritten (decimal : Decimal) : (rewritten decimal).toRat = decimal.toRat := by
  simp only [rewritten]
  split
  · rename_i condition
    obtain ⟨places, nonneg⟩ := leading_toNat condition.1 condition.2.2
    rw [Decimal.toRat, Decimal.toRat, places]
    obtain ⟨power, same⟩ := Int.eq_ofNat_of_zero_le nonneg
    rw [same, Int.toNat_natCast]
    push_cast [zpow_natCast]
    rw [pow_succ, zpow_neg_one]
    ring
  · rfl

theorem exponent_rewritten (decimal : Decimal) :
    (rewritten decimal).exponent = -1 ∨ (rewritten decimal).exponent = decimal.exponent := by
  simp only [rewritten]
  split
  · exact .inl rfl
  · exact .inr rfl

theorem digits_rewritten {decimal : Decimal} (nonzero : decimal.digits ≠ 0)
    (small : decimal.digits < 2 ^ 53) :
    (rewritten decimal).digits ≠ 0 ∧ (rewritten decimal).digits < 2 ^ 53 := by
  simp only [rewritten]
  split
  · rename_i condition
    obtain ⟨whole, short, fits⟩ := condition
    refine ⟨Nat.mul_ne_zero nonzero (Nat.pow_pos (by decide)).ne', ?_⟩
    have below := lt_pow_length_digitsOf decimal.digits
    have total : (digitsOf decimal.digits).length +
        (decimal.leading.toNat + 1 - (digitsOf decimal.digits).length + 1) ≤ 14 := by omega
    calc decimal.digits * 10 ^ (decimal.leading.toNat + 1 - (digitsOf decimal.digits).length + 1)
        < 10 ^ (digitsOf decimal.digits).length *
          10 ^ (decimal.leading.toNat + 1 - (digitsOf decimal.digits).length + 1) :=
          Nat.mul_lt_mul_of_pos_right below (Nat.pow_pos (by decide))
      _ ≤ 10 ^ 14 := by
          rw [← Nat.pow_add]
          exact Nat.pow_le_pow_right (by decide) total
      _ < 2 ^ 53 := by decide
  · exact ⟨nonzero, small⟩

def rereadOrdinal (toDouble : Decimal → Nat) (ordinal : Nat) : Nat :=
  Format.double.convert Format.single (toDouble (rewritten (Format.single.shortest ordinal)))

theorem rereadOrdinal_power : ∀ step < 253,
    rereadOrdinal Double.ofDecimal ((step + 2) * 2 ^ 23) = (step + 2) * 2 ^ 23 := by
  decide +kernel

theorem rereadOrdinal_nearestTo_power : ∀ step < 253,
    rereadOrdinal Double.nearestTo ((step + 2) * 2 ^ 23) = (step + 2) * 2 ^ 23 := by
  decide +kernel

section Singles

variable {ordinal : Nat} (nonzero : ordinal ≠ 0) (finite : ordinal < Format.single.infinity)

include nonzero finite

theorem reads_rewritten : Double.Reads (rewritten (Format.single.shortest ordinal)) := by
  obtain ⟨digits, small⟩ := shortest_digits nonzero finite
  obtain ⟨low, high⟩ := shortest_exponent nonzero finite
  obtain ⟨rewrittenNonzero, rewrittenSmall⟩ :=
    digits_rewritten digits (lt_trans small (by decide))
  rcases exponent_rewritten (Format.single.shortest ordinal) with one | same
  · exact Double.reads_ofDecimal rewrittenNonzero rewrittenSmall (by omega) (by omega)
  · exact Double.reads_ofDecimal rewrittenNonzero rewrittenSmall (by omega) (by omega)

theorem recovers_rewritten :
    Recovers (Double.ofDecimal (rewritten (Format.single.shortest ordinal))) ordinal := by
  have reads := reads_rewritten nonzero finite
  have close := reads.error
  rw [toRat_rewritten] at close
  refine ⟨reads.finite, close, fun halves positive bound middle => ?_⟩
  obtain ⟨digits, small⟩ := shortest_digits nonzero finite
  have low := single_exponent_ge ordinal
  -- a middle between two singles has so few digits that reading does not round
  obtain ⟨inHalves, inDigits⟩ := five_pow_le (Nat.pos_of_ne_zero digits) positive middle
  have most := le_of_five_pow_le inHalves (by omega)
  have least := le_of_five_pow_le inDigits small
  rw [← toRat_rewritten] at middle ⊢
  rcases exponent_rewritten (Format.single.shortest ordinal) with one | same
  · exact reads.exact (by omega) (by omega) halves _ middle (by omega) (by omega)
  · exact reads.exact (by omega) (by omega) halves _ middle (by omega) (by omega)

end Singles

theorem rereadOrdinal_eq {ordinal : Nat} (finite : ordinal < Format.single.infinity) :
    rereadOrdinal Double.ofDecimal ordinal = ordinal := by
  rcases Nat.eq_zero_or_pos ordinal with rfl | positive
  · decide +kernel
  · rcases ordinary_or_special finite with ordinary | ⟨step, small, rfl⟩ | rfl | rfl
    · exact (recovers_rewritten positive.ne' finite).convert positive.ne' finite ordinary
    · exact rereadOrdinal_power step small
    · decide +kernel
    · decide +kernel

theorem rereadOrdinal_nearestTo {ordinal : Nat} (finite : ordinal < Format.single.infinity) :
    rereadOrdinal Double.nearestTo ordinal =
      if ordinal = 0x15AE43FD then 0x15AE43FE else ordinal := by
  rcases Nat.eq_zero_or_pos ordinal with rfl | positive
  · decide +kernel
  · rcases ordinary_or_special finite with ordinary | ⟨step, small, rfl⟩ | rfl | rfl
    · have different : ordinal ≠ 0x15AE43FD := by
        rintro rfl
        exact ordinary.middles 22841339 (.inl (by decide +kernel)) (by decide +kernel)
      have recovers := recovers_nearestTo positive.ne' finite (toRat_rewritten _)
      rw [if_neg different]
      exact recovers.convert positive.ne' finite ordinary
    · rw [if_neg (by omega)]
      exact rereadOrdinal_nearestTo_power step small
    · decide +kernel
    · decide +kernel

theorem ofOrdinal_ordinal (value : Single) :
    Single.ofOrdinal value.isNegative value.ordinal = value := by
  obtain ⟨bits⟩ := value
  have bound := bits.toNat_lt
  have restored : bits.toNat % 2147483648 +
      (if 2147483648 ≤ bits.toNat then 2147483648 else 0) = bits.toNat := by
    split <;> omega
  simp [Single.ofOrdinal, Single.isNegative, Single.ordinal, restored]

theorem legible_shortest {value : Single} (finite : value.isFinite = true) :
    Legible value.shortest := by
  rw [Single.isFinite, decide_eq_true_eq] at finite
  rw [Single.shortest]
  by_cases zero : value.ordinal = 0
  · rw [zero]
    exact ⟨fun _ => rfl, by decide +kernel, by decide +kernel⟩
  · obtain ⟨digits, small⟩ := shortest_digits zero finite
    have reads := reads_rewritten zero finite
    refine ⟨fun none => absurd none digits, lt_trans small (by decide), ?_⟩
    simpa [Double.isFinite] using reads.finite

theorem ofDecimal_rewritten {value : Single} (finite : value.isFinite = true) :
    Single.ofDecimal Double.ofDecimal value.isNegative (rewritten value.shortest) = value := by
  rw [Single.isFinite, decide_eq_true_eq] at finite
  have same := rereadOrdinal_eq finite
  rw [rereadOrdinal] at same
  rw [Single.ofDecimal, Single.shortest, same, ofOrdinal_ordinal]

theorem ofDecimal_nearestTo_rewritten {value : Single} (finite : value.isFinite = true) :
    Single.ofDecimal Double.nearestTo value.isNegative (rewritten value.shortest) =
      if value.ordinal = 0x15AE43FD then Single.ofOrdinal value.isNegative 0x15AE43FE
      else value := by
  rw [Single.isFinite, decide_eq_true_eq] at finite
  have read := rereadOrdinal_nearestTo finite
  rw [rereadOrdinal] at read
  rw [Single.ofDecimal, Single.shortest, read]
  by_cases elusive : value.ordinal = 0x15AE43FD
  · rw [if_pos elusive, if_pos elusive]
  · rw [if_neg elusive, if_neg elusive, ofOrdinal_ordinal]

end OpenSoundControl.Json
