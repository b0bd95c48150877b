import OpenSoundControl.Error
import Mathlib.Data.List.Forall2

/-!
When a computation that may fail succeeds: every step of it has succeeded, with the value that the
next step was given. And where it fails: at the first step that does.
-/

namespace OpenSoundControl

variable {ε α β : Type}

theorem map_eq_ok_iff {outcome : Except ε α} {change : α → β} {result : β} :
    outcome.map change = .ok result ↔ ∃ value, outcome = .ok value ∧ change value = result := by
  cases outcome <;> simp [Except.map]

theorem map_eq_error_iff {outcome : Except ε α} {change : α → β} {error : ε} :
    outcome.map change = .error error ↔ outcome = .error error := by
  cases outcome <;> simp [Except.map]

theorem mapError_eq_ok_iff {outcome : Except ε α} {change : ε → ε} {value : α} :
    outcome.mapError change = .ok value ↔ outcome = .ok value := by
  cases outcome <;> simp [Except.mapError]

theorem mapError_eq_error_iff {outcome : Except ε α} {change : ε → ε} {error : ε} :
    outcome.mapError change = .error error ↔
      ∃ inner, outcome = .error inner ∧ change inner = error := by
  cases outcome <;> simp [Except.mapError]

theorem bind_eq_ok_iff {outcome : Except ε α} {next : α → Except ε β} {result : β} :
    outcome.bind next = .ok result ↔ ∃ value, outcome = .ok value ∧ next value = .ok result := by
  cases outcome <;> simp [Except.bind]

theorem foldlM_cons_eq_ok_iff {step : α → β → Except ε α} {state last : α} {entry : β}
    {rest : List β} :
    (entry :: rest).foldlM step state = .ok last ↔
      ∃ next, step state entry = .ok next ∧ rest.foldlM step next = .ok last := by
  rw [List.foldlM_cons]
  exact bind_eq_ok_iff

theorem foldlM_append_eq_ok_iff {step : α → β → Except ε α} {state last : α}
    {front back : List β} :
    (front ++ back).foldlM step state = .ok last ↔
      ∃ middle, front.foldlM step state = .ok middle ∧ back.foldlM step middle = .ok last := by
  rw [List.foldlM_append]
  exact bind_eq_ok_iff

theorem mapM_eq_ok_iff {change : α → Except ε β} {entries : List α} {results : List β} :
    entries.mapM change = .ok results ↔
      List.Forall₂ (fun entry result => change entry = .ok result) entries results := by
  induction entries generalizing results with
  | nil =>
      rw [List.forall₂_nil_left_iff, List.mapM_nil]
      exact ⟨fun same => (Except.ok.inj same).symm, fun same => by rw [same]; rfl⟩
  | cons entry rest ih =>
      rw [List.forall₂_cons_left_iff, List.mapM_cons]
      constructor
      · intro mapped
        obtain ⟨first, isFirst, mapped⟩ := bind_eq_ok_iff.mp mapped
        obtain ⟨later, isLater, same⟩ := bind_eq_ok_iff.mp mapped
        exact ⟨first, later, isFirst, ih.mp isLater, (Except.ok.inj same).symm⟩
      · rintro ⟨first, later, isFirst, isLater, rfl⟩
        exact bind_eq_ok_iff.mpr ⟨first, isFirst, bind_eq_ok_iff.mpr ⟨later, ih.mpr isLater, rfl⟩⟩

def failure? : Except ε α → Option ε
  | .error error => some error
  | .ok _ => none

theorem failure?_eq_some_iff {outcome : Except ε α} {error : ε} :
    failure? outcome = some error ↔ outcome = .error error := by
  cases outcome <;> simp [failure?]

theorem failure?_eq_none_iff {outcome : Except ε α} :
    failure? outcome = none ↔ ∃ value, outcome = .ok value := by
  cases outcome <;> simp [failure?]

theorem failure?_bind {outcome : Except ε α} {next : α → Except ε β} {later : Option ε}
    (same : ∀ value, outcome = .ok value → failure? (next value) = later) :
    failure? (outcome.bind next) = (failure? outcome).or later := by
  cases outcome with
  | error error => rfl
  | ok value => exact same value rfl

theorem failure?_mapM (change : α → Except ε β) (entries : List α) :
    failure? (entries.mapM change) = entries.findSome? fun entry => failure? (change entry) := by
  induction entries with
  | nil => rfl
  | cons entry rest ih =>
      have split : (entry :: rest).findSome? (fun entry => failure? (change entry)) =
          (failure? (change entry)).or (rest.findSome? fun entry => failure? (change entry)) := by
        rw [List.findSome?_cons]
        cases failure? (change entry) <;> rfl
      rw [List.mapM_cons, split]
      refine failure?_bind fun first _ => ?_
      rw [← ih, ← Option.or_none (o := failure? (rest.mapM change))]
      exact failure?_bind fun _ _ => rfl

/-- The bytes are refused at this offset, for whatever cause. -/
def FailsAt (outcome : Except Error α) (offset : Nat) : Prop :=
  ∃ cause, outcome = .error (.parse offset cause)

namespace FailsAt

variable {outcome : Except Error α} {offset : Nat}

theorem map (fails : FailsAt outcome offset) (change : α → β) :
    FailsAt (outcome.map change) offset := by
  obtain ⟨cause, rfl⟩ := fails
  exact ⟨cause, rfl⟩

theorem bind (fails : FailsAt outcome offset) (next : α → Except Error β) :
    FailsAt (outcome.bind next) offset := by
  obtain ⟨cause, rfl⟩ := fails
  exact ⟨cause, rfl⟩

theorem shift (fails : FailsAt outcome offset) (base : Nat) :
    FailsAt (outcome.mapError (Error.shift base)) (base + offset) := by
  obtain ⟨cause, rfl⟩ := fails
  exact ⟨cause, rfl⟩

end FailsAt

end OpenSoundControl
