import Mathlib.Data.List.Infix
import OpenSoundControl.Proofs.Parts

/-!
The comparison of parts as a statement about slashes. A part after the first is empty where a slash
stands behind another or at the end of the text.
-/

namespace OpenSoundControl.Address

theorem parts_eq_splitOn (text : List Char) : parts text = text.splitOn separator := by
  induction text with
  | nil => rfl
  | cons character text ih =>
      obtain ⟨first, later, split, -⟩ := parts_eq_cons text
      rw [split] at ih
      rw [parts_cons, split, addCharacter, List.splitOn, List.splitOnP_cons_eq_if_modifyHead,
        ← List.splitOn, ← ih]
      simp only [beq_iff_eq, List.modifyHead_cons]

/-- Whether each slash has another character behind it. -/
def Separated (text : List Char) : Prop :=
  ¬[separator, separator] <:+: text ∧ ¬[separator] <:+ text

theorem separated_cons_of_ne {character : Char} (text : List Char)
    (other : character ≠ separator) : Separated (character :: text) ↔ Separated text := by
  have doubled : [separator, separator] <:+: character :: text ↔
      [separator, separator] <:+: text := by
    simp [List.infix_cons_iff, Ne.symm other]
  have last : [separator] <:+ character :: text ↔ [separator] <:+ text := by
    simp [List.suffix_cons_iff, Ne.symm other]
  rw [Separated, doubled, last, ← Separated]

theorem separated_cons_separator (text : List Char) : Separated (separator :: text) ↔
    text ≠ [] ∧ text.head? ≠ some separator ∧ Separated text := by
  have doubled : [separator, separator] <:+: separator :: text ↔
      text.head? = some separator ∨ [separator, separator] <:+: text := by
    rw [List.infix_cons_iff, List.cons_prefix_cons, List.singleton_prefix_iff_head?_eq_some]
    simp
  have last : [separator] <:+ separator :: text ↔ text = [] ∨ [separator] <:+ text := by
    rw [List.suffix_cons_iff, List.cons.injEq]
    simp
  rw [Separated, doubled, last, Separated]
  tauto

theorem first_part_eq_nil_iff {text first : List Char} {later : List (List Char)}
    (split : parts text = first :: later) :
    first = [] ↔ text = [] ∨ text.head? = some separator := by
  cases text with
  | nil =>
      obtain ⟨rfl, -⟩ := List.cons.inj split
      simp
  | cons character text =>
      obtain ⟨second, rest, inner, -⟩ := parts_eq_cons text
      rw [parts_cons, inner, addCharacter] at split
      by_cases slash : character = separator
      · rw [if_pos slash] at split
        obtain ⟨rfl, -⟩ := List.cons.inj split
        simp [slash]
      · rw [if_neg slash] at split
        obtain ⟨rfl, -⟩ := List.cons.inj split
        simp [slash]

theorem later_parts_iff_separated (text : List Char) :
    (∀ part ∈ (parts text).tail, part ≠ []) ↔ Separated text := by
  induction text with
  | nil => simp [parts, Separated]
  | cons character text ih =>
      obtain ⟨first, later, split, -⟩ := parts_eq_cons text
      have empty := first_part_eq_nil_iff split
      rw [parts_cons, split, addCharacter]
      rw [split, List.tail_cons] at ih
      by_cases slash : character = separator
      · -- The part that the slash ends is the first one, and the one behind it is a later one now.
        rw [if_pos slash, slash, separated_cons_separator, List.tail_cons, List.forall_mem_cons, ih,
          Ne, empty, not_or, and_assoc]
      · rw [if_neg slash, separated_cons_of_ne text slash, List.tail_cons]
        exact ih

theorem comparable_iff_separated (address pattern : String) :
    comparable address pattern = true ↔
      address.toList.count separator = pattern.toList.count separator ∧
        Separated address.toList ∧ Separated pattern.toList := by
  rw [comparable_iff, length_parts, length_parts, later_parts_iff_separated,
    later_parts_iff_separated, Nat.add_right_cancel_iff]

theorem test_self (address : String) : test address address = .ok (comparable address address) := by
  have decided : decided? address address = some (comparable address address) := by
    unfold decided?
    cases comparable address address <;> simp
  rw [test, decided]

/-- Two texts are comparable if they have as many slashes and none of these stands before another
or at the end. A text that matches itself needs no more than that no later part of it is empty. -/
theorem comparable_iff_slashes (address pattern : String) :
    (comparable address pattern = true ↔
      address.toList.count '/' = pattern.toList.count '/' ∧
        (¬['/', '/'] <:+: address.toList ∧ ¬['/'] <:+ address.toList) ∧
        ¬['/', '/'] <:+: pattern.toList ∧ ¬['/'] <:+ pattern.toList) ∧
      comparable address pattern = comparable pattern address ∧
      (test address address = .ok true ↔
        ∀ part ∈ (address.toList.splitOn '/').tail, part ≠ []) := by
  refine ⟨?_, ?_, ?_⟩
  · exact comparable_iff_separated address pattern
  · rw [Bool.eq_iff_iff, comparable_iff_separated, comparable_iff_separated]
    constructor
    · rintro ⟨count, left, right⟩
      exact ⟨count.symm, right, left⟩
    · rintro ⟨count, right, left⟩
      exact ⟨count.symm, left, right⟩
  · have split := parts_eq_splitOn address.toList
    rw [separator] at split
    rw [test_self, Except.ok.injEq, comparable_iff_separated, ← split, later_parts_iff_separated]
    constructor
    · rintro ⟨-, separated, -⟩
      exact separated
    · intro separated
      exact ⟨rfl, separated, separated⟩

end OpenSoundControl.Address
