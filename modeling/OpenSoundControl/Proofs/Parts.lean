import OpenSoundControl.Address.Pattern
import Mathlib.Algebra.GroupWithZero.Nat

/-!
The parts of a text are what its slashes separate: joined again they give the text, and there is
one more of them than there are slashes.
-/

namespace OpenSoundControl.Address

def joined (first : List Char) (later : List (List Char)) : List Char :=
  first ++ later.flatMap fun part => [separator] ++ part

theorem parts_cons (character : Char) (text : List Char) :
    parts (character :: text) = addCharacter character (parts text) := rfl

theorem parts_eq_cons (text : List Char) : ∃ first later, parts text = first :: later ∧
    text = joined first later ∧ later.length = text.count separator := by
  induction text with
  | nil => exact ⟨[], [], rfl, rfl, rfl⟩
  | cons character text ih =>
      obtain ⟨first, later, split, whole, length⟩ := ih
      rw [parts_cons, split, addCharacter]
      by_cases slash : character = separator
      · refine ⟨[], first :: later, if_pos slash, ?_, ?_⟩
        · rw [whole, slash]
          rfl
        · rw [slash, List.count_cons_self, List.length_cons, length]
      · refine ⟨character :: first, later, if_neg slash, ?_, ?_⟩
        · rw [whole]
          rfl
        · rw [List.count_cons_of_ne slash, length]

theorem length_parts (text : List Char) : (parts text).length = text.count separator + 1 := by
  obtain ⟨first, later, split, -, length⟩ := parts_eq_cons text
  rw [split, List.length_cons, length]

theorem parts_append (front text : List Char) (first : List Char) (later : List (List Char))
    (plain : separator ∉ front) (split : parts text = first :: later) :
    parts (front ++ text) = (front ++ first) :: later := by
  induction front with
  | nil => exact split
  | cons character front ih =>
      obtain ⟨other, plain⟩ := not_or.mp (mt List.mem_cons.mpr plain)
      rw [List.cons_append, parts_cons, ih plain, addCharacter, if_neg (Ne.symm other),
        List.cons_append]

theorem parts_joined (first : List Char) (later : List (List Char))
    (plain : ∀ part ∈ first :: later, separator ∉ part) :
    parts (joined first later) = first :: later := by
  induction later generalizing first with
  | nil =>
      have alone := parts_append first [] [] [] (plain first List.mem_cons_self) rfl
      rw [List.append_nil] at alone
      rw [joined, List.flatMap_nil, List.append_nil, alone]
  | cons second later ih =>
      have rest := ih second fun part inside => plain part (List.mem_cons_of_mem _ inside)
      have behind : parts (separator :: joined second later) = [] :: second :: later := by
        rw [parts_cons, rest, addCharacter, if_pos rfl]
      have split := parts_append first _ _ _ (plain first List.mem_cons_self) behind
      rw [List.append_nil] at split
      exact split

theorem count_joined (first : List Char) (later : List (List Char)) :
    (joined first later).count separator =
      later.length + ((first :: later).map (List.count separator)).sum := by
  induction later generalizing first with
  | nil => simp [joined]
  | cons second later ih =>
      have split : joined first (second :: later) = first ++ separator :: joined second later := rfl
      rw [split, List.count_append, List.count_cons_self, ih]
      simp only [List.length_cons, List.map_cons, List.sum_cons]
      omega

theorem parts_joined_of_length (first : List Char) (later : List (List Char))
    (length : (parts (joined first later)).length = (first :: later).length) :
    parts (joined first later) = first :: later := by
  rw [length_parts, count_joined, List.length_cons] at length
  have none : ((first :: later).map (List.count separator)).sum = 0 := by omega
  refine parts_joined first later ?_
  intro part inside
  rw [← List.count_eq_zero]
  exact List.sum_eq_zero_iff_forall_eq_nat.mp none _ (List.mem_map_of_mem inside)

theorem all_zip_iff (left right : List (List Char)) (length : left.length = right.length) :
    ((left.zip right).all fun pair => !pair.1.isEmpty && !pair.2.isEmpty) = true ↔
      (∀ part ∈ left, part ≠ []) ∧ ∀ part ∈ right, part ≠ [] := by
  induction left generalizing right with
  | nil =>
      obtain rfl := List.length_eq_zero_iff.mp length.symm
      simp
  | cons first left ih =>
      cases right with
      | nil => contradiction
      | cons second right =>
          rw [List.zip_cons_cons, List.all_cons, Bool.and_eq_true, ih right (Nat.succ.inj length)]
          simp only [Bool.and_eq_true, Bool.not_eq_true', List.isEmpty_eq_false_iff,
            List.forall_mem_cons]
          constructor
          · rintro ⟨⟨first, second⟩, left, right⟩
            exact ⟨⟨first, left⟩, second, right⟩
          · rintro ⟨⟨first, left⟩, second, right⟩
            exact ⟨⟨first, second⟩, left, right⟩

theorem comparable_iff (address pattern : String) : comparable address pattern = true ↔
    (parts address.toList).length = (parts pattern.toList).length ∧
      (∀ part ∈ (parts address.toList).tail, part ≠ []) ∧
      ∀ part ∈ (parts pattern.toList).tail, part ≠ [] := by
  obtain ⟨_, left, leftSplit, -⟩ := parts_eq_cons address.toList
  obtain ⟨_, right, rightSplit, -⟩ := parts_eq_cons pattern.toList
  simp only [comparable, leftSplit, rightSplit, Bool.and_eq_true, beq_iff_eq, List.length_cons,
    List.zip_cons_cons, List.drop_succ_cons, List.drop_zero, List.tail_cons]
  constructor
  · rintro ⟨length, some⟩
    exact ⟨length, (all_zip_iff left right (Nat.succ.inj length)).mp some⟩
  · rintro ⟨length, some⟩
    exact ⟨length, (all_zip_iff left right (Nat.succ.inj length)).mpr some⟩

theorem parts_injective {left right : List Char} (same : parts left = parts right) :
    left = right := by
  obtain ⟨first, later, split, joined, -⟩ := parts_eq_cons left
  obtain ⟨second, other, splitRight, joinedRight, -⟩ := parts_eq_cons right
  rw [split, splitRight] at same
  obtain ⟨rfl, rfl⟩ := List.cons.inj same
  rw [joined, joinedRight]

/-! What the comparison of parts leaves for an expression to decide. -/

theorem decided?_eq_none_iff (address pattern : String) : decided? address pattern = none ↔
    comparable address pattern = true ∧ address ≠ pattern ∧ hasWildcards pattern = true := by
  unfold decided?
  cases comparable address pattern <;> by_cases same : address = pattern <;>
    cases hasWildcards pattern <;> simp [same]

theorem decided?_eq_true_iff (address pattern : String) : decided? address pattern = some true ↔
    comparable address pattern = true ∧ address = pattern := by
  unfold decided?
  cases comparable address pattern <;> by_cases same : address = pattern <;>
    cases hasWildcards pattern <;> simp [same]

theorem test_eq_true_iff {address pattern : String} {compiled : Pattern}
    (compiles : Pattern.compile pattern = .ok compiled) (different : address ≠ pattern) :
    test address pattern = .ok true ↔
      comparable address pattern = true ∧ hasWildcards pattern = true ∧
        compiled.search address = true := by
  unfold test
  cases decided : decided? address pattern with
  | some answer =>
      constructor
      · intro accepted
        obtain rfl := Except.ok.inj accepted
        exact absurd ((decided?_eq_true_iff ..).mp decided).2 different
      · rintro ⟨alike, wild, -⟩
        rw [(decided?_eq_none_iff ..).mpr ⟨alike, different, wild⟩] at decided
        cases decided
  | none =>
      obtain ⟨alike, -, wild⟩ := (decided?_eq_none_iff ..).mp decided
      rw [compiles]
      constructor
      · intro accepted
        exact ⟨alike, wild, Except.ok.inj accepted⟩
      · rintro ⟨-, -, found⟩
        exact congrArg Except.ok found

end OpenSoundControl.Address
