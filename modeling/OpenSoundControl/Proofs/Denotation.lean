import OpenSoundControl.Proofs.Chains

/-!
Languages of expressions. An expression denotes a language when it spans what lies between two
positions exactly if that text belongs to the language. Chains denote what their members make of
the languages of their own.
-/

namespace OpenSoundControl

def between (text : List Char) (first last : Nat) : List Char :=
  (text.take last).drop first

theorem length_between (text : List Char) (first : Nat) {last : Nat} (bound : last ≤ text.length) :
    (between text first last).length = last - first := by
  rw [between, List.length_drop, List.length_take_of_le bound]

theorem between_append (text : List Char) {first middle last : Nat} (lower : first ≤ middle)
    (upper : middle ≤ last) :
    between text first middle ++ between text middle last = between text first last := by
  have front : between text first middle = (between text first last).take (middle - first) := by
    rw [between, between, List.take_drop, List.take_take, Nat.add_sub_cancel' lower,
      Nat.min_eq_left upper]
  have back : between text middle last = (between text first last).drop (middle - first) := by
    rw [between, between, List.drop_drop, Nat.add_sub_cancel' lower]
  rw [front, back, List.take_append_drop]

theorem between_eq_append {text front back : List Char} {first last : Nat}
    (ordered : first ≤ last) (bound : last ≤ text.length)
    (split : between text first last = front ++ back) :
    first + front.length ≤ last ∧ between text first (first + front.length) = front ∧
      between text (first + front.length) last = back := by
  have length := length_between text first bound
  rw [split, List.length_append] at length
  have upper : first + front.length ≤ last := by omega
  have same := between_append text (Nat.le_add_right first front.length) upper
  rw [split] at same
  obtain ⟨left, right⟩ := List.append_inj same (by
    rw [length_between text first (Nat.le_trans upper bound), Nat.add_sub_cancel_left])
  exact ⟨upper, left, right⟩

theorem between_singleton {text : List Char} {first last : Nat} (ordered : first ≤ last)
    (bound : last ≤ text.length) (character : Char) :
    between text first last = [character] ↔
      last = first + 1 ∧ text[first]? = some character := by
  constructor
  · intro single
    have length := length_between text first bound
    rw [single, List.length_singleton] at length
    have next : last = first + 1 := by omega
    refine ⟨next, ?_⟩
    have head : (between text first last)[0]? = text[first]? := by
      rw [between, List.getElem?_drop, List.getElem?_take_of_lt (by omega), Nat.add_zero]
    rw [← head, single]
    rfl
  · rintro ⟨rfl, found⟩
    obtain ⟨below, rfl⟩ := List.getElem?_eq_some_iff.mp found
    have size : (text.take first).length = first := List.length_take_of_le (by omega)
    rw [between, List.take_add_one, found, List.drop_append_of_le_length (Nat.le_of_eq size.symm),
      List.drop_of_length_le (Nat.le_of_eq size)]
    rfl

namespace Expression

def Denotes (expression : Expression) (language : List Char → Prop) : Prop :=
  ∀ text first last, Spans text expression first last ↔
    first ≤ last ∧ last ≤ text.length ∧ language (between text first last)

theorem Denotes.of_iff {expression : Expression} {language other : List Char → Prop}
    (denotes : expression.Denotes language) (same : ∀ text, language text ↔ other text) :
    expression.Denotes other := by
  intro text first last
  rw [denotes text first last, same]

theorem denotes_empty : Denotes .empty (· = []) := by
  intro text first last
  rw [spans_empty_iff]
  constructor
  · rintro ⟨rfl, bound⟩
    refine ⟨Nat.le_refl _, bound, List.length_eq_zero_iff.mp ?_⟩
    rw [length_between text first bound, Nat.sub_self]
  · rintro ⟨ordered, bound, nothing⟩
    have length := length_between text first bound
    rw [nothing, List.length_nil] at length
    exact ⟨by omega, bound⟩

theorem denotes_character {expression : Expression} {accepts : Char → Prop}
    (spans : ∀ text first last, Spans text expression first last ↔
      ∃ character, text[first]? = some character ∧ accepts character ∧ last = first + 1) :
    Denotes expression fun text => ∃ character, text = [character] ∧ accepts character := by
  intro text first last
  rw [spans]
  constructor
  · rintro ⟨character, found, accepted, rfl⟩
    have below := (List.getElem?_eq_some_iff.mp found).choose
    exact ⟨Nat.le_succ _, below, character,
      (between_singleton (Nat.le_succ _) below character).mpr ⟨rfl, found⟩, accepted⟩
  · rintro ⟨ordered, bound, character, single, accepted⟩
    obtain ⟨next, found⟩ := (between_singleton ordered bound character).mp single
    exact ⟨character, found, accepted, next⟩

theorem denotes_literal (own : Char) :
    Denotes (.literal own) fun text => ∃ character, text = [character] ∧ character = own := by
  refine denotes_character fun text first last => ⟨?_, ?_⟩
  · intro spans
    cases spans with
    | literal found => exact ⟨own, found, rfl, rfl⟩
  · rintro ⟨character, found, rfl, rfl⟩
    exact .literal found

theorem denotes_any :
    Denotes .any fun text => ∃ character, text = [character] ∧ isAny character = true := by
  refine denotes_character fun text first last => ⟨?_, ?_⟩
  · intro spans
    cases spans with
    | any found allowed => exact ⟨_, found, allowed, rfl⟩
  · rintro ⟨character, found, allowed, rfl⟩
    exact .any found allowed

theorem denotes_oneOf (set : CharacterSet) :
    Denotes (.oneOf set) fun text =>
      ∃ character, text = [character] ∧ set.contains character = true := by
  refine denotes_character fun text first last => ⟨?_, ?_⟩
  · intro spans
    cases spans with
    | oneOf found inside => exact ⟨_, found, inside, rfl⟩
  · rintro ⟨character, found, inside, rfl⟩
    exact .oneOf found inside

theorem denotes_anyRun :
    Denotes .anyRun fun text => ∀ character ∈ text, isAny character = true := by
  intro text first last
  rw [spans_anyRun_iff]
  refine and_congr_right fun ordered => and_congr_right fun bound => ?_
  have length := length_between text first bound
  have here (index : Nat) (below : index < last - first) :
      (between text first last)[index]? = text[first + index]? := by
    rw [between, List.getElem?_drop, List.getElem?_take_of_lt (by omega)]
  constructor
  · intro all character inside
    obtain ⟨index, found⟩ := List.mem_iff_getElem?.mp inside
    have below := (List.getElem?_eq_some_iff.mp found).choose
    rw [length] at below
    rw [here index below] at found
    obtain ⟨_, same, allowed⟩ := all (first + index) (Nat.le_add_right _ _) (by omega)
    rw [found] at same
    rw [Option.some.inj same]
    exact allowed
  · intro all index lower upper
    have found : (between text first last)[index - first]? = text[index]? := by
      rw [here _ (by omega), Nat.add_sub_cancel' lower]
    have some : text[index]? = some text[index] := List.getElem?_eq_getElem (by omega)
    rw [some] at found
    exact ⟨_, some, all _ (List.mem_of_getElem? found)⟩

theorem Denotes.group {body : Expression} {language : List Char → Prop}
    (denotes : body.Denotes language) : (group body).Denotes language := by
  intro text first last
  rw [spans_group_iff]
  exact denotes text first last

theorem Denotes.choice {left right : Expression} {leftLanguage rightLanguage : List Char → Prop}
    (leftDenotes : left.Denotes leftLanguage) (rightDenotes : right.Denotes rightLanguage) :
    (choice left right).Denotes fun text => leftLanguage text ∨ rightLanguage text := by
  intro text first last
  rw [spans_choice_iff, leftDenotes, rightDenotes, ← and_or_left, ← and_or_left]

theorem Denotes.append {front back : List Expression}
    {frontLanguage backLanguage : List Char → Prop}
    (frontDenotes : (ofSequence front).Denotes frontLanguage)
    (backDenotes : (ofSequence back).Denotes backLanguage) :
    (ofSequence (front ++ back)).Denotes fun text =>
      ∃ left right, text = left ++ right ∧ frontLanguage left ∧ backLanguage right := by
  intro text first last
  rw [spans_ofSequence_append]
  constructor
  · rintro ⟨middle, left, right⟩
    obtain ⟨lower, -, leftInside⟩ := (frontDenotes ..).mp left
    obtain ⟨upper, bound, rightInside⟩ := (backDenotes ..).mp right
    exact ⟨Nat.le_trans lower upper, bound, _, _, (between_append text lower upper).symm,
      leftInside, rightInside⟩
  · rintro ⟨ordered, bound, left, right, split, leftInside, rightInside⟩
    obtain ⟨upper, leftSame, rightSame⟩ := between_eq_append ordered bound split
    refine ⟨first + left.length, (frontDenotes ..).mpr ?_, (backDenotes ..).mpr ?_⟩
    · rw [leftSame]
      exact ⟨Nat.le_add_right _ _, Nat.le_trans upper bound, leftInside⟩
    · rw [rightSame]
      exact ⟨upper, bound, rightInside⟩

theorem occursIn_anchored {members : List Expression} {language : List Char → Prop}
    (denotes : (ofSequence members).Denotes language) (text : List Char) :
    (ofSequence ([.start] ++ members ++ [.finish])).occursIn text = true ↔ language text := by
  have whole : between text 0 text.length = text := by
    rw [between, List.take_length, List.drop_zero]
  have inside := denotes text 0 text.length
  rw [whole] at inside
  rw [occursIn_iff]
  simp only [List.cons_append, List.nil_append, spans_append_finish, spans_start_cons, inside]
  simp

end Expression

end OpenSoundControl
