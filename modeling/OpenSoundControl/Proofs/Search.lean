import OpenSoundControl.Expression.Search

/-!
The search finds an expression in a text exactly when the expression spans some of it. The marks
that an expression carries backwards lie on the positions from which it spans to a marked one.
-/

namespace OpenSoundControl.Expression

def Marked (marks : Marks) (position : Nat) : Prop :=
  marks[position]? = some true

theorem Spans.first_le_last {text : List Char} {expression : Expression} {first last : Nat}
    (spans : Spans text expression first last) : first ≤ last := by
  induction spans <;> omega

theorem Spans.last_le {text : List Char} {expression : Expression} {first last : Nat}
    (spans : Spans text expression first last) : last ≤ text.length := by
  induction spans with
  | literal found | any found _ | oneOf found _ =>
      exact (List.getElem?_eq_some_iff.mp found).choose
  | empty bound | anyNone bound => exact bound
  | start => exact Nat.zero_le _
  | finish => exact Nat.le_refl _
  | anyMore _ _ _ ih | group _ ih | sequence _ _ _ ih | first _ ih | rest _ ih => exact ih

theorem marked_sourcesOfCharacter (accepts : Char → Bool) (text : List Char) (marks : Marks)
    (position : Nat) :
    Marked (sourcesOfCharacter accepts text marks) position ↔
      ∃ character, text[position]? = some character ∧ accepts character = true ∧
        Marked marks (position + 1) := by
  unfold Marked sourcesOfCharacter
  rw [List.getElem?_append, List.length_zipWith]
  split
  · rename_i inside
    rw [List.getElem?_zipWith, List.getElem?_drop, Nat.add_comm 1 position]
    cases text[position]? <;> cases marks[position + 1]? <;> simp
  · rename_i outside
    constructor
    · intro marked
      rw [List.getElem?_singleton] at marked
      split at marked <;> simp at marked
    · rintro ⟨character, found, -, marked⟩
      have below := (List.getElem?_eq_some_iff.mp found).choose
      have within := (List.getElem?_eq_some_iff.mp marked).choose
      rw [List.length_drop] at outside
      omega

def Reaches (accepts : Char → Bool) (text : List Char) (marks : Marks) (position : Nat) : Prop :=
  ∃ last, position ≤ last ∧ Marked marks last ∧ ∀ index, position ≤ index → index < last →
    ∃ character, text[index]? = some character ∧ accepts character = true

theorem reaches_cons_zero (accepts : Char → Bool) (character : Char) (text : List Char)
    (mark : Bool) (marks : Marks) :
    Reaches accepts (character :: text) (mark :: marks) 0 ↔
      mark = true ∨ accepts character = true ∧ Reaches accepts text marks 0 := by
  constructor
  · rintro ⟨last, -, marked, all⟩
    cases last with
    | zero => exact .inl (Option.some.inj marked)
    | succ last =>
        obtain ⟨_, found, accepted⟩ := all 0 (Nat.le_refl _) (by omega)
        obtain rfl := Option.some.inj found
        refine .inr ⟨accepted, last, Nat.zero_le _, marked, ?_⟩
        intro index lower upper
        exact all (index + 1) (Nat.zero_le _) (by omega)
  · rintro (here | ⟨accepted, last, -, marked, all⟩)
    · exact ⟨0, Nat.le_refl _, congrArg some here, by omega⟩
    · refine ⟨last + 1, Nat.zero_le _, marked, ?_⟩
      intro index lower upper
      cases index with
      | zero => exact ⟨character, rfl, accepted⟩
      | succ index => exact all index (Nat.zero_le _) (by omega)

theorem reaches_cons_succ (accepts : Char → Bool) (character : Char) (text : List Char)
    (mark : Bool) (marks : Marks) (position : Nat) :
    Reaches accepts (character :: text) (mark :: marks) (position + 1) ↔
      Reaches accepts text marks position := by
  constructor
  · rintro ⟨last, ordered, marked, all⟩
    cases last with
    | zero => omega
    | succ last =>
        refine ⟨last, by omega, marked, ?_⟩
        intro index lower upper
        exact all (index + 1) (by omega) (by omega)
  · rintro ⟨last, ordered, marked, all⟩
    refine ⟨last + 1, by omega, marked, ?_⟩
    intro index lower upper
    cases index with
    | zero => omega
    | succ index => exact all index (by omega) (by omega)

theorem marked_sourcesOfRun (accepts : Char → Bool) (text : List Char) (marks : Marks)
    (size : marks.length = text.length + 1) (position : Nat) :
    Marked (sourcesOfRun accepts text marks) position ↔ Reaches accepts text marks position := by
  induction text generalizing marks position with
  | nil =>
      constructor
      · intro marked
        exact ⟨position, Nat.le_refl _, marked, by omega⟩
      · rintro ⟨last, ordered, marked, all⟩
        by_cases here : position = last
        · rw [here]
          exact marked
        · obtain ⟨character, found, -⟩ := all position (Nat.le_refl _) (by omega)
          simp at found
  | cons character text ih =>
      cases marks with
      | nil => simp at size
      | cons mark marks =>
          have later := ih marks (by simpa using size)
          have unfolds : sourcesOfRun accepts (character :: text) (mark :: marks) =
              (mark || accepts character && (sourcesOfRun accepts text marks).headD false) ::
                sourcesOfRun accepts text marks := rfl
          rw [unfolds]
          cases position with
          | zero =>
              rw [reaches_cons_zero, ← later 0]
              unfold Marked
              cases sourcesOfRun accepts text marks <;> simp
          | succ position =>
              rw [reaches_cons_succ, ← later position]
              exact Iff.rfl

theorem spans_anyRun_iff (text : List Char) (first last : Nat) :
    Spans text .anyRun first last ↔ first ≤ last ∧ last ≤ text.length ∧
      ∀ index, first ≤ index → index < last →
        ∃ character, text[index]? = some character ∧ isAny character = true := by
  constructor
  · intro spans
    refine ⟨spans.first_le_last, spans.last_le, ?_⟩
    generalize run : Expression.anyRun = expression at spans
    induction spans with
    | anyNone bound => omega
    | @anyMore character position last found allowed _ ih =>
        intro index lower upper
        by_cases here : index = position
        · rw [here]
          exact ⟨character, found, allowed⟩
        · exact ih run index (by omega) upper
    | _ => contradiction
  · rintro ⟨ordered, bound, all⟩
    obtain ⟨count, rfl⟩ := Nat.exists_eq_add_of_le ordered
    induction count generalizing first with
    | zero => exact .anyNone bound
    | succ count ih =>
        obtain ⟨character, found, allowed⟩ := all first (Nat.le_refl _) (by omega)
        refine .anyMore found allowed ?_
        have same : first + (count + 1) = first + 1 + count := by omega
        rw [same]
        exact ih (first + 1) (by omega) (by omega)
          fun index lower upper => all index (by omega) (by omega)

theorem length_sourcesOfCharacter (accepts : Char → Bool) (text : List Char) (marks : Marks)
    (size : marks.length = text.length + 1) :
    (sourcesOfCharacter accepts text marks).length = text.length + 1 := by
  simp only [sourcesOfCharacter, List.length_append, List.length_zipWith, List.length_drop,
    List.length_singleton]
  omega

theorem length_sourcesOfRun (accepts : Char → Bool) (text : List Char) (marks : Marks)
    (size : marks.length = text.length + 1) :
    (sourcesOfRun accepts text marks).length = text.length + 1 := by
  induction text generalizing marks with
  | nil => exact size
  | cons character text ih =>
      cases marks with
      | nil => simp at size
      | cons mark marks => exact congrArg Nat.succ (ih marks (by simpa using size))

theorem length_sources (text : List Char) (expression : Expression) (marks : Marks)
    (size : marks.length = text.length + 1) :
    (sources text expression marks).length = text.length + 1 := by
  induction expression generalizing marks with
  | empty => exact size
  | literal _ => exact length_sourcesOfCharacter _ _ _ size
  | any => exact length_sourcesOfCharacter _ _ _ size
  | anyRun => exact length_sourcesOfRun _ _ _ size
  | start =>
      simp only [sources, List.length_append, List.length_take, List.length_map]
      omega
  | finish =>
      simp only [sources, List.length_append, List.length_drop, List.length_map]
      omega
  | oneOf set => exact length_sourcesOfCharacter _ _ _ size
  | group body ih => exact ih marks size
  | sequence first rest ihFirst ihRest => exact ihFirst _ (ihRest marks size)
  | choice first rest ihFirst ihRest =>
      rw [sources, List.length_zipWith, ihFirst marks size, ihRest marks size, Nat.min_self]

theorem not_marked_blank (text : List Char) (position : Nat) :
    ¬Marked (text.map fun _ => false) position := by
  unfold Marked
  rw [List.getElem?_map]
  intro marked
  cases found : text[position]? with
  | none =>
      rw [found] at marked
      contradiction
  | some character =>
      rw [found] at marked
      exact Bool.false_ne_true (Option.some.inj marked)

theorem marked_start (text : List Char) (marks : Marks) (size : marks.length = text.length + 1)
    (position : Nat) :
    Marked (sources text .start marks) position ↔ position = 0 ∧ Marked marks 0 := by
  cases marks with
  | nil => simp at size
  | cons mark marks =>
      cases position with
      | zero => exact ⟨fun marked => ⟨rfl, marked⟩, fun marked => marked.2⟩
      | succ position =>
          constructor
          · intro marked
            exact absurd marked (not_marked_blank text position)
          · rintro ⟨impossible, -⟩
            contradiction

theorem marked_finish (text : List Char) (marks : Marks) (size : marks.length = text.length + 1)
    (position : Nat) :
    Marked (sources text .finish marks) position ↔
      position = text.length ∧ Marked marks text.length := by
  have blank := not_marked_blank text position
  unfold Marked at blank ⊢
  rw [sources, List.getElem?_append, List.length_map, List.getElem?_drop]
  split
  · constructor
    · intro marked
      exact absurd marked blank
    · rintro ⟨rfl, -⟩
      omega
  · rename_i behind
    constructor
    · intro marked
      have below := (List.getElem?_eq_some_iff.mp marked).choose
      have here : position = text.length := by omega
      subst here
      simpa using marked
    · rintro ⟨rfl, marked⟩
      simpa using marked

theorem marked_choice (text : List Char) (first rest : Expression) (marks : Marks)
    (size : marks.length = text.length + 1) (position : Nat) :
    Marked (sources text (.choice first rest) marks) position ↔
      Marked (sources text first marks) position ∨ Marked (sources text rest marks) position := by
  have firstSize := length_sources text first marks size
  have restSize := length_sources text rest marks size
  unfold Marked
  rw [sources, List.getElem?_zipWith]
  by_cases below : position < text.length + 1
  · rw [List.getElem?_eq_getElem (by omega), List.getElem?_eq_getElem (by omega)]
    simp
  · rw [List.getElem?_eq_none (by omega), List.getElem?_eq_none (by omega)]
    simp

theorem marked_sources (text : List Char) (expression : Expression) (marks : Marks)
    (size : marks.length = text.length + 1) (position : Nat) :
    Marked (sources text expression marks) position ↔
      ∃ last, Spans text expression position last ∧ Marked marks last := by
  induction expression generalizing marks position with
  | empty =>
      constructor
      · intro marked
        have below : position < marks.length := (List.getElem?_eq_some_iff.mp marked).choose
        exact ⟨position, .empty (by omega), marked⟩
      · rintro ⟨last, ⟨⟩, marked⟩
        exact marked
  | literal expected =>
      rw [sources, marked_sourcesOfCharacter]
      constructor
      · rintro ⟨character, found, accepted, marked⟩
        obtain rfl := beq_iff_eq.mp accepted
        exact ⟨_, .literal found, marked⟩
      · rintro ⟨last, spans, marked⟩
        cases spans with
        | literal found => exact ⟨expected, found, beq_self_eq_true _, marked⟩
  | any =>
      rw [sources, marked_sourcesOfCharacter]
      constructor
      · rintro ⟨character, found, accepted, marked⟩
        exact ⟨_, .any found accepted, marked⟩
      · rintro ⟨last, spans, marked⟩
        cases spans with
        | any found accepted => exact ⟨_, found, accepted, marked⟩
  | anyRun =>
      rw [sources, marked_sourcesOfRun _ _ _ size]
      constructor
      · rintro ⟨last, ordered, marked, all⟩
        have below := (List.getElem?_eq_some_iff.mp marked).choose
        exact ⟨last, (spans_anyRun_iff ..).mpr ⟨ordered, by omega, all⟩, marked⟩
      · rintro ⟨last, spans, marked⟩
        obtain ⟨ordered, -, all⟩ := (spans_anyRun_iff ..).mp spans
        exact ⟨last, ordered, marked, all⟩
  | start =>
      rw [marked_start text marks size]
      constructor
      · rintro ⟨rfl, marked⟩
        exact ⟨0, .start, marked⟩
      · rintro ⟨last, ⟨⟩, marked⟩
        exact ⟨rfl, marked⟩
  | finish =>
      rw [marked_finish text marks size]
      constructor
      · rintro ⟨rfl, marked⟩
        exact ⟨text.length, .finish, marked⟩
      · rintro ⟨last, ⟨⟩, marked⟩
        exact ⟨rfl, marked⟩
  | oneOf set =>
      rw [sources, marked_sourcesOfCharacter]
      constructor
      · rintro ⟨character, found, accepted, marked⟩
        exact ⟨_, .oneOf found accepted, marked⟩
      · rintro ⟨last, spans, marked⟩
        cases spans with
        | oneOf found accepted => exact ⟨_, found, accepted, marked⟩
  | group body ih =>
      rw [sources, ih marks size position]
      constructor
      · rintro ⟨last, spans, marked⟩
        exact ⟨last, .group spans, marked⟩
      · rintro ⟨last, spans, marked⟩
        cases spans with
        | group spans => exact ⟨last, spans, marked⟩
  | sequence first rest ihFirst ihRest =>
      rw [sources, ihFirst _ (length_sources text rest marks size)]
      constructor
      · rintro ⟨middle, left, marked⟩
        obtain ⟨last, right, marked⟩ := (ihRest marks size middle).mp marked
        exact ⟨last, .sequence left right, marked⟩
      · rintro ⟨last, spans, marked⟩
        cases spans with
        | sequence left right => exact ⟨_, left, (ihRest marks size _).mpr ⟨last, right, marked⟩⟩
  | choice first rest ihFirst ihRest =>
      rw [marked_choice text first rest marks size, ihFirst marks size, ihRest marks size]
      constructor
      · rintro (⟨last, spans, marked⟩ | ⟨last, spans, marked⟩)
        · exact ⟨last, .first spans, marked⟩
        · exact ⟨last, .rest spans, marked⟩
      · rintro ⟨last, spans, marked⟩
        cases spans with
        | first spans => exact .inl ⟨last, spans, marked⟩
        | rest spans => exact .inr ⟨last, spans, marked⟩

theorem occursIn_iff (expression : Expression) (text : List Char) :
    expression.occursIn text = true ↔ ∃ first last, Spans text expression first last := by
  have size : (List.replicate (text.length + 1) true).length = text.length + 1 :=
    List.length_replicate
  have marked (position : Nat) : Marked (List.replicate (text.length + 1) true) position ↔
      position ≤ text.length := by
    unfold Marked
    rw [List.getElem?_replicate]
    split <;> simp <;> omega
  constructor
  · intro found
    obtain ⟨mark, member, isTrue⟩ := List.any_eq_true.mp found
    obtain ⟨position, below, same⟩ := List.mem_iff_getElem.mp member
    have here :
        Marked (sources text expression (List.replicate (text.length + 1) true)) position := by
      rw [Marked, List.getElem?_eq_getElem below, same]
      exact congrArg some isTrue
    obtain ⟨last, spans, -⟩ := (marked_sources text expression _ size position).mp here
    exact ⟨position, last, spans⟩
  · rintro ⟨first, last, spans⟩
    have here := (marked_sources text expression _ size first).mpr
      ⟨last, spans, (marked last).mpr spans.last_le⟩
    exact List.any_eq_true.mpr ⟨true, List.mem_of_getElem? here, rfl⟩

end OpenSoundControl.Expression
