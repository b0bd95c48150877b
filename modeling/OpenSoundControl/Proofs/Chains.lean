import OpenSoundControl.Proofs.Search
import Mathlib.Data.List.Forall2

/-!
Chains of expressions. A sequence spans what its members span one after the other, a choice what
one of its members spans, and either is one level higher than its highest member.
-/

namespace OpenSoundControl.Expression

theorem spans_empty_iff (text : List Char) (first last : Nat) :
    Spans text .empty first last ↔ first = last ∧ last ≤ text.length := by
  constructor
  · rintro ⟨bound⟩
    exact ⟨rfl, bound⟩
  · rintro ⟨rfl, bound⟩
    exact .empty bound

theorem spans_sequence_iff (text : List Char) (left right : Expression) (first last : Nat) :
    Spans text (.sequence left right) first last ↔
      ∃ middle, Spans text left first middle ∧ Spans text right middle last := by
  constructor
  · intro spans
    cases spans with
    | sequence left right => exact ⟨_, left, right⟩
  · rintro ⟨middle, left, right⟩
    exact .sequence left right

theorem spans_choice_iff (text : List Char) (left right : Expression) (first last : Nat) :
    Spans text (.choice left right) first last ↔
      Spans text left first last ∨ Spans text right first last := by
  constructor
  · intro spans
    cases spans with
    | first spans => exact .inl spans
    | rest spans => exact .inr spans
  · rintro (spans | spans)
    · exact .first spans
    · exact .rest spans

theorem spans_group_iff (text : List Char) (body : Expression) (first last : Nat) :
    Spans text (.group body) first last ↔ Spans text body first last := by
  constructor
  · intro spans
    cases spans with
    | group spans => exact spans
  · exact .group

theorem spans_ofSequence_cons (text : List Char) (member : Expression)
    (members : List Expression) (first last : Nat) :
    Spans text (ofSequence (member :: members)) first last ↔
      ∃ middle, Spans text member first middle ∧ Spans text (ofSequence members) middle last := by
  cases members with
  | nil =>
      simp only [ofSequence, spans_empty_iff]
      constructor
      · intro spans
        exact ⟨last, spans, rfl, spans.last_le⟩
      · rintro ⟨middle, spans, rfl, -⟩
        exact spans
  | cons => exact spans_sequence_iff ..

theorem spans_ofSequence_append (text : List Char) (front back : List Expression)
    (first last : Nat) :
    Spans text (ofSequence (front ++ back)) first last ↔
      ∃ middle, Spans text (ofSequence front) first middle ∧
        Spans text (ofSequence back) middle last := by
  induction front generalizing first with
  | nil =>
      simp only [List.nil_append, ofSequence, spans_empty_iff]
      constructor
      · intro spans
        exact ⟨first, ⟨rfl, Nat.le_trans spans.first_le_last spans.last_le⟩, spans⟩
      · rintro ⟨middle, ⟨rfl, -⟩, spans⟩
        exact spans
  | cons member front ih =>
      rw [List.cons_append, spans_ofSequence_cons]
      constructor
      · rintro ⟨middle, left, right⟩
        obtain ⟨further, middleSpans, rest⟩ := (ih middle).mp right
        exact ⟨further, (spans_ofSequence_cons ..).mpr ⟨middle, left, middleSpans⟩, rest⟩
      · rintro ⟨further, left, right⟩
        obtain ⟨middle, head, tail⟩ := (spans_ofSequence_cons ..).mp left
        exact ⟨middle, head, (ih middle).mpr ⟨further, tail, right⟩⟩

theorem spans_start_cons (text : List Char) (members : List Expression) (first last : Nat) :
    Spans text (ofSequence (.start :: members)) first last ↔
      first = 0 ∧ Spans text (ofSequence members) 0 last := by
  rw [spans_ofSequence_cons]
  constructor
  · rintro ⟨middle, ⟨⟩, rest⟩
    exact ⟨rfl, rest⟩
  · rintro ⟨rfl, rest⟩
    exact ⟨0, .start, rest⟩

theorem spans_append_finish (text : List Char) (members : List Expression) (first last : Nat) :
    Spans text (ofSequence (members ++ [.finish])) first last ↔
      last = text.length ∧ Spans text (ofSequence members) first text.length := by
  rw [spans_ofSequence_append]
  constructor
  · rintro ⟨middle, front, ⟨⟩⟩
    exact ⟨rfl, front⟩
  · rintro ⟨rfl, front⟩
    exact ⟨text.length, front, .finish⟩

theorem spans_ofChoice_cons (text : List Char) (branch : Expression) (branches : List Expression)
    (first last : Nat) :
    Spans text (ofChoice (branch :: branches)) first last ↔
      Spans text branch first last ∨
        branches ≠ [] ∧ Spans text (ofChoice branches) first last := by
  cases branches with
  | nil => simp [ofChoice]
  | cons => simp [ofChoice, spans_choice_iff]

theorem spans_ofChoice_iff (text : List Char) (branches : List Expression)
    (some : branches ≠ []) (first last : Nat) :
    Spans text (ofChoice branches) first last ↔
      ∃ branch ∈ branches, Spans text branch first last := by
  induction branches with
  | nil => contradiction
  | cons branch branches ih =>
      rw [spans_ofChoice_cons, List.exists_mem_cons_iff]
      by_cases single : branches = []
      · subst single
        simp
      · simp [single, ih single]

/-! The height of a chain. A member that is no chain itself has the same height in one as alone. -/

theorem heightIn_sequence (chain : Chain) (first rest : Expression) :
    heightIn chain (.sequence first rest) =
      (if chain = .sequence then 0 else 1) +
        max (heightIn .none first) (heightIn .sequence rest) := rfl

theorem heightIn_choice (chain : Chain) (first rest : Expression) :
    heightIn chain (.choice first rest) =
      (if chain = .choice then 0 else 1) +
        max (heightIn .none first) (heightIn .choice rest) := rfl

def Single (expression : Expression) : Prop :=
  ∀ chain, heightIn chain expression = expression.height

theorem single_of_unchained {expression : Expression}
    (noSequence : ∀ first rest, expression ≠ .sequence first rest)
    (noChoice : ∀ first rest, expression ≠ .choice first rest) : expression.Single := by
  intro chain
  cases expression with
  | sequence first rest => exact absurd rfl (noSequence first rest)
  | choice first rest => exact absurd rfl (noChoice first rest)
  | _ => cases chain <;> rfl

def highest (members : List Expression) : Nat :=
  (members.map height).foldr max 0

theorem highest_cons (member : Expression) (members : List Expression) :
    highest (member :: members) = max member.height (highest members) := rfl

theorem highest_append (front back : List Expression) :
    highest (front ++ back) = max (highest front) (highest back) := by
  induction front with
  | nil => exact (Nat.zero_max _).symm
  | cons member front ih =>
      rw [List.cons_append, highest_cons, highest_cons, ih, Nat.max_assoc]

def chainHeight (members : List Expression) : Nat :=
  if members.length ≤ 1 then 0 else 1

theorem heightIn_ofSequence (members : List Expression)
    (single : ∀ member ∈ members, member.Single) :
    heightIn .sequence (ofSequence members) = highest members := by
  induction members with
  | nil => rfl
  | cons member members ih =>
      have later := ih fun member inside => single member (List.mem_cons_of_mem _ inside)
      cases members with
      | nil =>
          rw [ofSequence, single member List.mem_cons_self]
          exact (Nat.max_zero _).symm
      | cons second members =>
          rw [ofSequence, heightIn_sequence, if_pos rfl, Nat.zero_add, later]
          · rfl
          · exact List.cons_ne_nil _ _

theorem height_ofSequence (members : List Expression)
    (single : ∀ member ∈ members, member.Single) :
    height (ofSequence members) = chainHeight members + highest members := by
  cases members with
  | nil => rfl
  | cons member members =>
      cases members with
      | nil => simp [ofSequence, chainHeight, highest]
      | cons second members =>
          have later := heightIn_ofSequence (second :: members)
            fun member inside => single member (List.mem_cons_of_mem _ inside)
          simp only [ofSequence, height, heightIn_sequence] at later ⊢
          rw [later]
          simp [chainHeight, highest, height]

theorem heightIn_choice_ofSequence (members : List Expression)
    (single : ∀ member ∈ members, member.Single) :
    heightIn .choice (ofSequence members) = height (ofSequence members) := by
  cases members with
  | nil => rfl
  | cons member members =>
      cases members with
      | nil => exact single member List.mem_cons_self .choice
      | cons second members => rfl

theorem heightIn_ofChoice (branches : List Expression)
    (plain : ∀ branch ∈ branches, heightIn .choice branch = branch.height) :
    heightIn .choice (ofChoice branches) = highest branches := by
  induction branches with
  | nil => rfl
  | cons branch branches ih =>
      have later := ih fun branch inside => plain branch (List.mem_cons_of_mem _ inside)
      cases branches with
      | nil =>
          rw [ofChoice, plain branch List.mem_cons_self]
          exact (Nat.max_zero _).symm
      | cons second branches =>
          rw [ofChoice, heightIn_choice, if_pos rfl, Nat.zero_add, later]
          · rfl
          · exact List.cons_ne_nil _ _

theorem height_ofChoice (branches : List Expression)
    (plain : ∀ branch ∈ branches, heightIn .choice branch = branch.height) :
    height (ofChoice branches) = chainHeight branches + highest branches := by
  cases branches with
  | nil => rfl
  | cons branch branches =>
      cases branches with
      | nil => simp [ofChoice, chainHeight, highest]
      | cons second branches =>
          have later := heightIn_ofChoice (second :: branches)
            fun branch inside => plain branch (List.mem_cons_of_mem _ inside)
          simp only [ofChoice, height, heightIn_choice] at later ⊢
          rw [later]
          simp [chainHeight, highest, height]

/-! A longer chain is no lower. -/

theorem heightIn_le_none (chain : Chain) (expression : Expression) :
    heightIn chain expression ≤ heightIn .none expression := by
  cases expression with
  | sequence first rest =>
      simp only [heightIn_sequence]
      split <;> simp
  | choice first rest =>
      simp only [heightIn_choice]
      split <;> simp
  | _ => cases chain <;> exact Nat.le_refl _

theorem heightIn_le_sequence (chain : Chain) (expression : Expression) :
    heightIn chain expression ≤
      (if chain = .sequence then 0 else 1) + heightIn .sequence expression := by
  cases expression with
  | sequence first rest => simp [heightIn_sequence]
  | choice first rest =>
      cases chain <;> simp [heightIn_choice]
      omega
  | _ => cases chain <;> exact Nat.le_add_left _ _

theorem heightIn_le_cons (chain : Chain) (member : Expression) (members : List Expression) :
    heightIn chain (ofSequence members) ≤ heightIn chain (ofSequence (member :: members)) := by
  cases members with
  | nil => exact Nat.zero_le _
  | cons second members =>
      have below := heightIn_le_sequence chain (ofSequence (second :: members))
      have longer : ofSequence (member :: second :: members) =
          .sequence member (ofSequence (second :: members)) := rfl
      rw [longer, heightIn_sequence]
      omega

theorem heightIn_le_append (chain : Chain) (members : List Expression) (member : Expression) :
    heightIn chain (ofSequence members) ≤ heightIn chain (ofSequence (members ++ [member])) := by
  induction members generalizing chain with
  | nil => exact Nat.zero_le _
  | cons first members ih =>
      cases members with
      | nil =>
          have below := heightIn_le_none chain first
          simp only [List.cons_append, List.nil_append, ofSequence, heightIn_sequence]
          omega
      | cons second members =>
          have later := ih .sequence
          simp only [List.cons_append, ofSequence, heightIn_sequence] at later ⊢
          omega

theorem heightIn_le_choice {branches others : List Expression}
    (higher : List.Forall₂ (fun branch other => ∀ chain, heightIn chain branch ≤
      heightIn chain other) branches others) (chain : Chain) :
    heightIn chain (ofChoice branches) ≤ heightIn chain (ofChoice others) := by
  induction higher generalizing chain with
  | nil => exact Nat.le_refl _
  | cons first rest ih =>
      cases rest with
      | nil => exact first chain
      | cons second rest =>
          have head := first .none
          have tail := ih .choice
          simp only [ofChoice, heightIn_choice] at tail ⊢
          omega

end OpenSoundControl.Expression
