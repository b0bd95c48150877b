import Mathlib.Algebra.GroupWithZero.Nat
import Mathlib.Order.Bounds.Defs
import OpenSoundControl.Wire.Alignment

/-!
Rounding lengths up to the alignment. On a 64-bit word the mask does what the division by four does
on a number of any size, as long as the sum that it is applied to fits in the word.
-/

namespace OpenSoundControl.Wire

theorem paddedLength_isLeast (length : Nat) :
    IsLeast {size | size % alignment = 0 ∧ length ≤ size} (paddedLength length) := by
  refine ⟨⟨paddedLength_mod length, le_paddedLength length⟩, ?_⟩
  rintro size ⟨whole, enough⟩
  have close := paddedLength_lt length
  have multiple := paddedLength_mod length
  rw [alignment] at whole
  omega

theorem paddedLength_mono {short long : Nat} (le : short ≤ long) :
    paddedLength short ≤ paddedLength long := by
  simp only [paddedLength_eq]
  omega

theorem paddedLength_of_aligned {length : Nat} (whole : length % 4 = 0) :
    paddedLength length = length := by
  rw [paddedLength_eq]
  omega

theorem pad_of_aligned {bytes : Bytes} (whole : bytes.length % 4 = 0) : pad bytes = bytes := by
  rw [pad, paddedLength_of_aligned whole, Nat.sub_self]
  exact List.append_nil bytes

theorem exists_pad_eq (bytes : Bytes) : ∃ count < 4, pad bytes = bytes ++ zeros count := by
  have close := paddedLength_lt bytes.length
  exact ⟨paddedLength bytes.length - bytes.length, by omega, rfl⟩

theorem pad_pad (bytes : Bytes) : pad (pad bytes) = pad bytes := by
  apply pad_of_aligned
  rw [length_pad]
  exact paddedLength_mod bytes.length

theorem toNat_and_not_three (word : UInt64) : (word &&& ~~~3).toNat = word.toNat / 4 * 4 := by
  have bound : word.toNat < 2 ^ 64 := word.toNat_lt
  have mask : UInt64.size - 1 - (3 : UInt64).toNat = 2 ^ 64 - (2 ^ 2 - 1 + 1) := by decide
  have quarter : word.toNat / 4 * 4 = word.toNat / 2 ^ 2 * 2 ^ 2 := rfl
  rw [UInt64.toNat_and, UInt64.toNat_not, mask, quarter]
  apply Nat.eq_of_testBit_eq
  intro position
  rw [Nat.testBit_and, Nat.testBit_two_pow_sub_succ (by decide), Nat.testBit_two_pow_sub_one,
    Nat.testBit_mul_two_pow, Nat.testBit_div_two_pow]
  by_cases low : position < 2
  · have below : ¬2 ≤ position := Nat.not_le_of_lt low
    simp [low, below]
  · have above : 2 ≤ position := Nat.le_of_not_lt low
    have kept : position - 2 + 2 = position := Nat.sub_add_cancel above
    by_cases inside : position < 64
    · simp [low, above, kept, inside]
    · have small : word.toNat < 2 ^ position :=
        Nat.lt_of_lt_of_le bound (Nat.pow_le_pow_right Nat.zero_lt_two (Nat.le_of_not_lt inside))
      simp [kept, Nat.testBit_lt_two_pow small]

theorem toNat_paddedWord {word : UInt64} (fits : word.toNat + 3 < 2 ^ 64) :
    (paddedWord word).toNat = paddedLength word.toNat := by
  have sum : word + 4 - 1 = word + 3 := by
    rw [UInt64.sub_eq_add_neg, UInt64.add_assoc]
    rfl
  have unwrapped : (word + 3).toNat = word.toNat + 3 := by
    rw [UInt64.toNat_add]
    exact Nat.mod_eq_of_lt fits
  rw [paddedWord, sum]
  exact (toNat_and_not_three (word + 3)).trans (by rw [unwrapped, paddedLength_eq])

theorem paddedWord_paddedWord {word : UInt64} (fits : word.toNat + 3 < 2 ^ 64) :
    paddedWord (paddedWord word) = paddedWord word := by
  have once := toNat_paddedWord fits
  have multiple := paddedLength_mod word.toNat
  have close := paddedLength_lt word.toNat
  -- A multiple of four that fits in a word is at most `2 ^ 64 - 4`. The sum fits once more, though
  -- adding four before one is taken away may pass through zero.
  have again : (paddedWord word).toNat + 3 < 2 ^ 64 := by omega
  apply UInt64.toNat_inj.mp
  rw [toNat_paddedWord again, once, paddedLength_of_aligned multiple]

theorem paddedWord_mono {short long : UInt64} (le : short ≤ long)
    (fits : long.toNat + 3 < 2 ^ 64) : paddedWord short ≤ paddedWord long := by
  have within : short.toNat ≤ long.toNat := UInt64.le_iff_toNat_le.mp le
  rw [UInt64.le_iff_toNat_le, toNat_paddedWord fits, toNat_paddedWord (by omega)]
  exact paddedLength_mono within

/-- Up to the greatest word that the alignment can be added to, rounding by the mask gives the first
multiple of the alignment, and byte strings are padded to the length that it gives. -/
theorem paddedWord_isLeast (word : UInt64) (inRange : word.toNat ≤ 2 ^ 64 - 5) :
    (word + 4).toNat = word.toNat + 4 ∧
      IsLeast {size | size % 4 = 0 ∧ word.toNat ≤ size} (paddedWord word).toNat ∧
      paddedWord (paddedWord word) = paddedWord word ∧
      (∀ smaller ≤ word, paddedWord smaller ≤ paddedWord word) ∧
      ∀ bytes : Bytes, (∃ count < 4, pad bytes = bytes ++ zeros count) ∧
        (pad bytes).length = paddedLength bytes.length ∧
        (bytes.length = word.toNat → (pad bytes).length = (paddedWord word).toNat) ∧
        pad (pad bytes) = pad bytes := by
  have fits : word.toNat + 3 < 2 ^ 64 := by omega
  have rounded := toNat_paddedWord fits
  refine ⟨?_, ?_, paddedWord_paddedWord fits, ?_, ?_⟩
  · rw [UInt64.toNat_add]
    apply Nat.mod_eq_of_lt
    change word.toNat + 4 < 2 ^ 64
    omega
  · rw [rounded]
    exact paddedLength_isLeast word.toNat
  · intro smaller le
    exact paddedWord_mono le fits
  · intro bytes
    refine ⟨exists_pad_eq bytes, length_pad bytes, ?_, pad_pad bytes⟩
    intro same
    rw [length_pad, same, rounded]

theorem paddedWord_isLeast_edge :
    (18446744073709551611 : UInt64).toNat ≤ 2 ^ 64 - 5 ∧
      IsLeast {size | size % 4 = 0 ∧ 18446744073709551611 ≤ size} 18446744073709551612 ∧
      paddedWord 18446744073709551612 = 18446744073709551612 ∧
      (5 : UInt64).toNat ≤ 2 ^ 64 - 5 ∧ (pad [1, 2, 3, 4, 5]).length = 8 := by
  have edge : paddedWord 18446744073709551611 = 18446744073709551612 := by decide
  obtain ⟨-, least, again, -⟩ := paddedWord_isLeast 18446744073709551611 (by decide)
  rw [edge] at least again
  obtain ⟨-, -, -, -, padded⟩ := paddedWord_isLeast 5 (by decide)
  obtain ⟨-, -, length, -⟩ := padded [1, 2, 3, 4, 5]
  exact ⟨by decide, least, again, by decide, length rfl⟩

end OpenSoundControl.Wire
