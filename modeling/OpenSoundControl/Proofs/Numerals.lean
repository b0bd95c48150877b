import OpenSoundControl.Json.Scanning
import Mathlib.Algebra.GroupWithZero.Nat

/-!
Numbers as JSON words. A number is taken apart at its sign, its point and its exponent, and its
digits give back the number that they were written for.
-/

namespace OpenSoundControl.Json

open Numeric

theorem isDigit_eq (character : Char) : isDigit character = character.isDigit := by
  simp only [isDigit, Char.isDigit, Char.le_def]

theorem isDigit_of_mem_digitsOf {value : Nat} {digit : Char} (member : digit ∈ digitsOf value) :
    isDigit digit = true := by
  rw [isDigit_eq]
  exact Nat.isDigit_of_mem_toDigits (by decide) (by decide) member

abbrev digitValue (digits : List Char) : Nat :=
  Nat.ofDigitChars 10 digits 0

theorem digitValue_digitsOf (value : Nat) : digitValue (digitsOf value) = value :=
  Nat.ofDigitChars_ten_toDigits

theorem digitValue_append (front back : List Char) :
    digitValue (front ++ back) = digitValue front * 10 ^ back.length + digitValue back := by
  rw [digitValue, Nat.ofDigitChars_append, Nat.ofDigitChars_eq_ofDigitChars_zero, Nat.mul_comm]

theorem digitValue_zeroDigits (count : Nat) : digitValue (zeroDigits count) = 0 := by
  rw [digitValue, zeroDigits, Nat.ofDigitChars_replicate_zero, Nat.mul_zero]

theorem natural_eq (digits : List Char) : natural digits = digitValue digits := by
  simp only [natural, digitValue, Nat.ofDigitChars_eq_foldl, Nat.mul_comm 10]
  rfl

theorem le_ofDigitChars (digits : List Char) (start : Nat) :
    start ≤ Nat.ofDigitChars 10 digits start := by
  rw [Nat.ofDigitChars_eq_ofDigitChars_zero]
  have grows : 1 * start ≤ 10 ^ digits.length * start :=
    Nat.mul_le_mul_right start (Nat.one_le_pow _ _ (by decide))
  omega

theorem takeDigits_below {digits : List Char} {start : Nat}
    (below : Nat.ofDigitChars 10 digits start < significandLimit) :
    takeDigits start digits = (Nat.ofDigitChars 10 digits start, 0) := by
  induction digits generalizing start with
  | nil => simp [takeDigits]
  | cons digit rest ih =>
      rw [Nat.ofDigitChars_cons, Nat.mul_comm 10] at below ⊢
      have small : start * 10 + (digit.toNat - 48) < significandLimit :=
        Nat.lt_of_le_of_lt (le_ofDigitChars rest _) below
      simp only [takeDigits, small, if_true]
      exact ih below

theorem head?_append_of_nonempty {front : List Char} (nonempty : front ≠ []) (back : List Char) :
    (front ++ back).head? = front.head? := by
  obtain ⟨first, rest, rfl⟩ := List.exists_cons_of_ne_nil nonempty
  simp

theorem head_digitsOf {value : Nat} (zero : (digitsOf value).head? = some '0') : value = 0 := by
  induction value using Nat.strongRecOn with
  | ind value ih =>
      rw [digitsOf, Nat.toDigits_eq_if (by decide)] at zero
      split at zero
      · rw [List.head?_cons, Option.some.injEq] at zero
        exact Nat.digitChar_eq_zero.mp zero
      · rename_i large
        rw [head?_append_of_nonempty Nat.toDigits_ne_nil] at zero
        have smaller := ih (value / 10) (by omega) zero
        omega

structure Whole (digits : List Char) : Prop where
  nonempty : digits ≠ []
  digit : ∀ digit ∈ digits, isDigit digit = true
  leading : digits.head? = some '0' → digits.length = 1

theorem whole_digitsOf (value : Nat) : Whole (digitsOf value) where
  nonempty := Nat.toDigits_ne_nil
  digit _ member := isDigit_of_mem_digitsOf member
  leading zero := by rw [head_digitsOf zero]; rfl

theorem Whole.append {front back : List Char} (whole : Whole front)
    (digits : ∀ digit ∈ back, isDigit digit = true) (leading : front.head? ≠ some '0') :
    Whole (front ++ back) where
  nonempty := by simp [whole.nonempty]
  digit digit member := by
    rcases List.mem_append.mp member with front | back
    · exact whole.digit digit front
    · exact digits digit back
  leading zero := by
    rw [head?_append_of_nonempty whole.nonempty] at zero
    contradiction

def Stops (tail : List Char) : Prop :=
  ∀ character ∈ tail.head?, isDigit character = false

theorem takeWhile_digits {digits tail : List Char} (all : ∀ digit ∈ digits, isDigit digit = true)
    (stops : Stops tail) : (digits ++ tail).takeWhile isDigit = digits := by
  rw [List.takeWhile_append_of_pos all]
  cases tail with
  | nil => simp
  | cons character rest => simp [stops character (by simp)]

def pointed : List Char → List Char
  | [] => []
  | digits => '.' :: digits

theorem pointed_of_nonempty {digits : List Char} (nonempty : digits ≠ []) :
    pointed digits = '.' :: digits := by
  obtain ⟨first, rest, rfl⟩ := List.exists_cons_of_ne_nil nonempty
  rfl

theorem Whole.ne_minus {whole : List Char} (starts : Whole whole) (tail : List Char) :
    ¬(whole ++ tail).head? = some '-' := by
  rw [head?_append_of_nonempty starts.nonempty]
  intro minus
  obtain ⟨rest, rfl⟩ := List.head?_eq_some_iff.mp minus
  have digit := starts.digit '-' (by simp)
  simp [isDigit] at digit

theorem number?_signed (negative : Bool) {word : List Char} (noSign : ¬word.head? = some '-') :
    number? (signed negative word) =
      let whole := word.takeWhile isDigit
      let rest := word.drop whole.length
      let hasPoint := rest.head? == some '.'
      let fraction := if hasPoint then (rest.drop 1).takeWhile isDigit else []
      let tail := if hasPoint then (rest.drop 1).drop fraction.length else rest
      if whole.isEmpty || whole.head? == some '0' && whole.length != 1 then none
      else if hasPoint && fraction.isEmpty then none
      else if rest.isEmpty then integerOf negative whole
      else (exponent? tail).bind (decimalOf negative whole fraction) := by
  have plain : (word.head? == some '-') = false := by simpa using noSign
  cases negative with
  | false => simp only [number?, signed, plain, Bool.false_eq_true, if_false]
  | true =>
      have sign : (('-' :: word).head? == some '-') = true := by simp
      simp only [number?, signed, sign, if_true, List.drop_one, List.tail_cons]

theorem number?_whole (negative : Bool) {whole : List Char} (starts : Whole whole) :
    number? (signed negative whole) = integerOf negative whole := by
  have taken : (whole ++ []).takeWhile isDigit = whole :=
    takeWhile_digits starts.digit (by simp [Stops])
  have noSign := starts.ne_minus []
  rw [List.append_nil] at taken noSign
  have kept : ¬(whole.isEmpty || whole.head? == some '0' && whole.length != 1) = true := by
    simpa [starts.nonempty] using starts.leading
  rw [number?_signed negative noSign]
  simp only [taken, List.drop_length, if_neg kept]
  simp

theorem number?_pointed (negative : Bool) {whole fraction tail : List Char}
    (starts : Whole whole) (digits : ∀ digit ∈ fraction, isDigit digit = true)
    (stops : Stops tail) (noPoint : tail.head? ≠ some '.') (more : fraction ++ tail ≠ []) :
    number? (signed negative (whole ++ pointed fraction ++ tail)) =
      (exponent? tail).bind (decimalOf negative whole fraction) := by
  have stopsWhole : Stops (pointed fraction ++ tail) := by
    cases fraction with
    | nil => exact stops
    | cons digit rest => simp [Stops, pointed, isDigit]
  have kept : ¬(whole.isEmpty || whole.head? == some '0' && whole.length != 1) = true := by
    simpa [starts.nonempty] using starts.leading
  rw [List.append_assoc, number?_signed negative (starts.ne_minus _)]
  simp only [takeWhile_digits starts.digit stopsWhole, List.drop_left, if_neg kept]
  cases fraction with
  | nil =>
      have plain : (tail.head? == some '.') = false := by simpa using noPoint
      have nonempty : tail.isEmpty = false := by simpa using more
      simp [pointed, plain, nonempty]
  | cons digit rest =>
      have taken := takeWhile_digits digits stops
      rw [List.cons_append] at taken
      simp only [pointed, List.cons_append, List.head?_cons, beq_self_eq_true, if_true,
        List.drop_one, List.tail_cons, taken]
      simp

theorem word?_of_whole (negative : Bool) {whole : List Char} (starts : Whole whole)
    (tail : List Char) :
    word? (signed negative (whole ++ tail)) = number? (signed negative (whole ++ tail)) := by
  have noWord (letter : Char) (letters : List Char) (noDigit : isDigit letter = false)
      (noSign : letter ≠ '-') : signed negative (whole ++ tail) ≠ letter :: letters := by
    intro same
    cases negative with
    | true =>
        rw [signed, if_pos rfl] at same
        exact noSign (List.cons.inj same).1.symm
    | false =>
        obtain ⟨digit, rest, rfl⟩ := List.exists_cons_of_ne_nil starts.nonempty
        obtain ⟨rfl, -⟩ := List.cons.inj same
        have isOne := starts.digit digit (by simp)
        rw [noDigit] at isOne
        contradiction
  rw [word?, if_neg (noWord 'n' _ (by decide) (by decide)),
    if_neg (noWord 't' _ (by decide) (by decide)), if_neg (noWord 'f' _ (by decide) (by decide))]

theorem exponent?_written (exponent : Int) :
    exponent? ('e' :: (if exponent < 0 then '-' else '+') :: digitsOf exponent.natAbs) =
      some exponent := by
  have digits : (digitsOf exponent.natAbs).all isDigit = true := by
    rw [List.all_eq_true]
    exact fun _ member => isDigit_of_mem_digitsOf member
  have nonempty : (digitsOf exponent.natAbs).isEmpty = false := by
    simpa using (whole_digitsOf exponent.natAbs).nonempty
  have value : natural (digitsOf exponent.natAbs) = exponent.natAbs := by
    rw [natural_eq, digitValue_digitsOf]
  by_cases negative : exponent < 0
  · obtain ⟨count, rfl⟩ : ∃ count : Nat, exponent = -(count : Int) :=
      ⟨exponent.natAbs, by omega⟩
    rw [Int.natAbs_neg, Int.natAbs_natCast] at digits nonempty value ⊢
    rw [if_pos negative]
    simp [exponent?, digits, nonempty, value]
  · obtain ⟨count, rfl⟩ := Int.eq_ofNat_of_zero_le (Int.not_lt.mp negative)
    rw [Int.natAbs_natCast] at digits nonempty value ⊢
    simp [exponent?, digits, nonempty, value]

theorem stops_exponent (rest : List Char) : Stops ('e' :: rest) := by
  simp [Stops, isDigit]

theorem decimalOf_below (negative : Bool) {whole fraction : List Char} (exponent : Int)
    (below : digitValue (whole ++ fraction) < significandLimit) :
    decimalOf negative whole fraction exponent =
      let decimal : Decimal := ⟨digitValue (whole ++ fraction), exponent - fraction.length⟩
      if Double.isFinite (Double.ofDecimal decimal) then some (.decimal negative decimal)
      else none := by
  rw [digitValue, Nat.ofDigitChars_append] at below
  have taken := takeDigits_below (Nat.lt_of_le_of_lt (le_ofDigitChars fraction _) below)
  simp [decimalOf, taken, takeDigits_below below, Nat.ofDigitChars_append]

/-- The decimal that is read from the text of another: trailing zeros in front of the point, and
the one behind it, have become digits. -/
def rewritten (decimal : Decimal) : Decimal :=
  let length := (digitsOf decimal.digits).length
  if 0 ≤ decimal.leading ∧ decimal.leading ≤ 12 ∧ length ≤ decimal.leading.toNat + 1 then
    ⟨decimal.digits * 10 ^ (decimal.leading.toNat + 1 - length + 1), -1⟩
  else decimal

/-- A decimal that JSON text can hold. A zero has no exponent, and the digits fit into the
significand of a reader. -/
structure Legible (decimal : Decimal) : Prop where
  zero : decimal.digits = 0 → decimal.exponent = 0
  small : decimal.digits < significandLimit
  finite : Double.isFinite (Double.ofDecimal (rewritten decimal)) = true

theorem word?_pointed (negative : Bool) {whole fraction tail : List Char} {exponent : Int}
    {decimal : Decimal} (starts : Whole whole) (digits : ∀ digit ∈ fraction, isDigit digit = true)
    (stops : Stops tail) (noPoint : tail.head? ≠ some '.') (more : fraction ++ tail ≠ [])
    (power : exponent? tail = some exponent)
    (value : digitValue (whole ++ fraction) = decimal.digits)
    (place : exponent - fraction.length = decimal.exponent)
    (small : decimal.digits < significandLimit)
    (finite : Double.isFinite (Double.ofDecimal decimal) = true) :
    word? (signed negative (whole ++ pointed fraction ++ tail)) =
      some (.decimal negative decimal) := by
  rw [← value] at small
  rw [List.append_assoc, word?_of_whole negative starts, ← List.append_assoc,
    number?_pointed negative starts digits stops noPoint more, power, Option.bind_some,
    decimalOf_below negative exponent small, value, place]
  exact if_pos finite

theorem length_digitsOf_pos (value : Nat) : 0 < (digitsOf value).length :=
  Nat.length_toDigits_pos

theorem lt_pow_length_digitsOf (value : Nat) : value < 10 ^ (digitsOf value).length :=
  (Nat.length_toDigits_le_iff (by decide) (length_digitsOf_pos value)).mp (Nat.le_refl _)

theorem isDigit_of_mem_zeroDigits {count : Nat} {digit : Char}
    (member : digit ∈ zeroDigits count) : isDigit digit = true := by
  rw [List.eq_of_mem_replicate member]
  decide

section Layouts

variable (negative : Bool) {decimal : Decimal}

theorem word?_behind_zeros (legible : Legible decimal) (below : decimal.leading < 0) :
    word? (signed negative (['0'] ++ pointed
      (zeroDigits ((-decimal.leading).toNat - 1) ++ digitsOf decimal.digits) ++ [])) =
      some (.decimal negative (rewritten decimal)) := by
  have same : rewritten decimal = decimal := by
    rw [rewritten, if_neg (by omega)]
  have finite := legible.finite
  rw [same] at finite ⊢
  have digit : ∀ digit ∈ zeroDigits ((-decimal.leading).toNat - 1) ++ digitsOf decimal.digits,
      isDigit digit = true := by
    intro digit member
    rcases List.mem_append.mp member with zero | written
    · exact isDigit_of_mem_zeroDigits zero
    · exact isDigit_of_mem_digitsOf written
  have starts : Whole ['0'] := ⟨by simp, by simp [isDigit], fun _ => rfl⟩
  refine word?_pointed negative starts digit (by simp [Stops]) (by simp) ?_ rfl ?_ ?_
    legible.small finite
  · simp [(whole_digitsOf decimal.digits).nonempty]
  · have front : ['0'] = zeroDigits 1 := rfl
    rw [front, digitValue_append, digitValue_append, digitValue_zeroDigits, digitValue_zeroDigits,
      digitValue_digitsOf]
    omega
  · have positive := length_digitsOf_pos decimal.digits
    rw [Decimal.leading] at below ⊢
    simp only [zeroDigits, List.length_append, List.length_replicate]
    omega

theorem word?_before_point (legible : Legible decimal) (above : 0 ≤ decimal.leading)
    (short : decimal.leading ≤ 12)
    (fits : (digitsOf decimal.digits).length ≤ decimal.leading.toNat + 1) :
    word? (signed negative (digitsOf decimal.digits ++
      zeroDigits (decimal.leading.toNat + 1 - (digitsOf decimal.digits).length) ++
      pointed ['0'] ++ [])) = some (.decimal negative (rewritten decimal)) := by
  have finite := legible.finite
  have same : rewritten decimal = ⟨decimal.digits * 10 ^
      (decimal.leading.toNat + 1 - (digitsOf decimal.digits).length + 1), -1⟩ := by
    rw [rewritten, if_pos ⟨above, short, fits⟩]
  rw [same] at finite ⊢
  have starts : Whole (digitsOf decimal.digits ++
      zeroDigits (decimal.leading.toNat + 1 - (digitsOf decimal.digits).length)) := by
    by_cases zero : decimal.digits = 0
    · have one : decimal.leading = 0 := by
        rw [Decimal.leading, legible.zero zero, zero]
        rfl
      rw [zero, one]
      exact whole_digitsOf 0
    · exact (whole_digitsOf _).append (fun _ => isDigit_of_mem_zeroDigits)
        fun leads => zero (head_digitsOf leads)
  refine word?_pointed negative starts (by simp [isDigit]) (by simp [Stops]) (by simp) (by simp)
    rfl ?_ (by simp) ?_ finite
  · have last : ['0'] = zeroDigits 1 := rfl
    simp only [digitValue_append, digitValue_digitsOf, last, digitValue_zeroDigits, Nat.add_zero]
    simp [zeroDigits, Nat.pow_succ, Nat.mul_assoc]
  · generalize spare : decimal.leading.toNat + 1 - (digitsOf decimal.digits).length = zeros
    have bound : (digitsOf decimal.digits).length + (zeros + 1) ≤ 14 := by omega
    calc decimal.digits * 10 ^ (zeros + 1)
        < 10 ^ (digitsOf decimal.digits).length * 10 ^ (zeros + 1) :=
          Nat.mul_lt_mul_of_pos_right (lt_pow_length_digitsOf _) (Nat.pow_pos (by decide))
      _ = 10 ^ ((digitsOf decimal.digits).length + (zeros + 1)) := (Nat.pow_add ..).symm
      _ ≤ 10 ^ 14 := Nat.pow_le_pow_right (by decide) bound
      _ < significandLimit := by decide

theorem word?_around_point (legible : Legible decimal) (above : 0 ≤ decimal.leading)
    (long : decimal.leading.toNat + 1 < (digitsOf decimal.digits).length) :
    word? (signed negative ((digitsOf decimal.digits).take (decimal.leading.toNat + 1) ++
      pointed ((digitsOf decimal.digits).drop (decimal.leading.toNat + 1)) ++ [])) =
      some (.decimal negative (rewritten decimal)) := by
  have same : rewritten decimal = decimal := by
    rw [rewritten, if_neg (by omega)]
  have finite := legible.finite
  rw [same] at finite ⊢
  have starts : Whole ((digitsOf decimal.digits).take (decimal.leading.toNat + 1)) := by
    refine ⟨?_, fun digit member => isDigit_of_mem_digitsOf (List.mem_of_mem_take member), ?_⟩
    · simp [(whole_digitsOf decimal.digits).nonempty]
    · intro leads
      rw [List.head?_take, if_neg (by omega)] at leads
      have one := (whole_digitsOf decimal.digits).leading leads
      omega
  refine word?_pointed negative starts
    (fun digit member => isDigit_of_mem_digitsOf (List.mem_of_mem_drop member)) (by simp [Stops])
    (by simp) ?_ rfl ?_ ?_ legible.small finite
  · simpa using long
  · rw [List.take_append_drop, digitValue_digitsOf]
  · rw [List.length_drop]
    rw [Decimal.leading] at long above ⊢
    omega

theorem word?_scientific (legible : Legible decimal)
    (far : decimal.leading < 0 ∨ 12 < decimal.leading)
    {first : Char} {rest : List Char} (split : digitsOf decimal.digits = first :: rest) :
    word? (signed negative ([first] ++ pointed rest ++ ('e' ::
      (if decimal.leading < 0 then '-' else '+') :: digitsOf decimal.leading.natAbs))) =
      some (.decimal negative (rewritten decimal)) := by
  have same : rewritten decimal = decimal := by
    rw [rewritten, if_neg (by omega)]
  have finite := legible.finite
  rw [same] at finite ⊢
  have digit : ∀ digit ∈ first :: rest, isDigit digit = true := by
    rw [← split]
    exact fun _ => isDigit_of_mem_digitsOf
  have starts : Whole [first] := ⟨by simp, by simpa using digit first (by simp), fun _ => rfl⟩
  refine word?_pointed negative starts (fun digit' member => digit digit' (by simp [member]))
    (stops_exponent _) (by simp) (by simp) (exponent?_written _) ?_ ?_ legible.small finite
  · rw [List.singleton_append, ← split, digitValue_digitsOf]
  · rw [Decimal.leading, split, List.length_cons]
    omega

theorem word?_write (legible : Legible decimal) :
    word? (signed negative (decimalLayout.write decimal)) =
      some (.decimal negative (rewritten decimal)) := by
  have nonempty := (whole_digitsOf decimal.digits).nonempty
  rw [Layout.write]
  by_cases behind : decimalLayout.least ≤ decimal.leading ∧ decimal.leading < 0
  · rw [if_pos behind]
    have read := word?_behind_zeros negative legible behind.2
    rw [pointed_of_nonempty (by simp [nonempty])] at read
    simpa using read
  rw [if_neg behind]
  by_cases before : 0 ≤ decimal.leading ∧ decimal.leading ≤ decimalLayout.greatest
  · rw [if_pos before]
    by_cases fits : (digitsOf decimal.digits).length ≤ decimal.leading.toNat + 1
    · rw [if_pos fits]
      have read := word?_before_point negative legible before.1 before.2 fits
      rw [pointed_of_nonempty (by simp)] at read
      simpa using read
    · rw [if_neg fits]
      have read := word?_around_point negative legible before.1 (by omega)
      rw [pointed_of_nonempty (by simpa using fits)] at read
      simpa using read
  rw [if_neg before]
  have far : decimal.leading < 0 ∨ 12 < decimal.leading := by
    change ¬(0 ≤ decimal.leading ∧ decimal.leading ≤ 12) at before
    omega
  obtain ⟨first, rest, split⟩ := List.exists_cons_of_ne_nil nonempty
  have read := word?_scientific negative legible far split
  cases rest with
  | nil => simpa [split, pointed] using read
  | cons second rest => simpa [split, pointed] using read

end Layouts

end OpenSoundControl.Json
