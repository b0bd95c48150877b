import OpenSoundControl.Proofs.Alignment
import OpenSoundControl.Proofs.Fields
import OpenSoundControl.Wire.Buffer

/-!
What writers do to a buffer. None of them changes what is there, and one that fails has appended
nothing. A field is padded by its own length and not by its position, so on a buffer that ends
within a word all fields start and end within words, until the buffer is aligned.
-/

namespace OpenSoundControl.Wire

def settle (buffer : Bytes) : Except Error Bytes → Except Error Unit × Bytes
  | .ok bytes => (.ok (), buffer ++ bytes)
  | .error error => (.error error, buffer)

theorem prefix_settle (buffer : Bytes) (field : Except Error Bytes) :
    buffer <+: (settle buffer field).2 := by
  cases field with
  | ok bytes => exact List.prefix_append ..
  | error error => exact List.prefix_rfl

theorem settle_of_failed {buffer : Bytes} {field : Except Error Bytes}
    (failed : (settle buffer field).1 ≠ .ok ()) : (settle buffer field).2 = buffer := by
  cases field with
  | ok bytes => exact absurd rfl failed
  | error error => rfl

theorem length_settle {buffer : Bytes} {value : Argument}
    (written : (settle buffer value.payload).1 = .ok ()) :
    (settle buffer value.payload).2.length = buffer.length + value.encodedSize := by
  cases encoded : value.payload with
  | ok bytes =>
      rw [settle, List.length_append, (Argument.PayloadField.of_payload encoded).length_eq]
  | error error =>
      rw [encoded] at written
      contradiction

namespace Writer

def Writes (writer : Writer Unit) (field : Except Error Bytes) : Prop :=
  ∀ buffer, writer.run.run buffer = settle buffer field

theorem append_writes (bytes : Bytes) : (append bytes).Writes (.ok bytes) := by
  intro buffer
  rfl

theorem Writes.followed {first second : Writer Unit} {front back : Bytes}
    (begins : first.Writes (.ok front)) (ends : second.Writes (.ok back)) :
    Writes (do first; second) (.ok (front ++ back)) := by
  intro buffer
  rw [ExceptT.run_bind, StateT.run_bind, begins buffer]
  change second.run.run (buffer ++ front) = _
  rw [ends (buffer ++ front), settle, settle, List.append_assoc]

theorem string_writes (text : String) : (string text).Writes (stringField text) := by
  unfold string stringField
  dsimp only
  cases (Utf8.encode text).findIdx? (· = 0) with
  | some position =>
      intro buffer
      rfl
  | none => exact (append_writes _).followed (append_writes _)

theorem blob_writes (data : Bytes) : (blob data).Writes (blobField data) := by
  unfold blob blobField
  by_cases large : greatestBlob < data.length
  · rw [if_pos large, if_pos large]
    intro buffer
    rfl
  · rw [if_neg large, if_neg large]
    exact (append_writes _).followed ((append_writes _).followed (append_writes _))

theorem argument_writes (value : Argument) : (argument value).Writes value.payload := by
  cases value with
  | int32 value => exact append_writes _
  | float32 value => exact append_writes _
  | bool value =>
      intro buffer
      rw [Argument.payload, settle, List.append_nil]
      rfl
  | string value => exact string_writes value
  | blob value => exact blob_writes value

theorem align_run (buffer : Bytes) : align.run.run buffer =
    (.ok (), buffer ++ zeros (paddedLength buffer.length - buffer.length)) := rfl

end Writer

theorem encodedSize_mod (value : Argument) : value.encodedSize % alignment = 0 := by
  cases value with
  | int32 value => rw [Argument.encodedSize, alignment]
  | float32 value => rw [Argument.encodedSize, alignment]
  | bool value => rfl
  | string value => exact paddedLength_mod _
  | blob value =>
      have whole := paddedLength_mod value.length
      rw [Argument.encodedSize, blobSize, alignment]
      omega

namespace Edit

def value? : Edit → Option Argument
  | .string text => some (.string text)
  | .blob data => some (.blob data)
  | .argument value => some value
  | .align => none
  | .raw _ => none

/-- The size that is announced for a field. -/
def announced? : Edit → Option Nat
  | .string text => some (stringSize text)
  | .blob data => some (blobSize data.length)
  | .argument value => some value.encodedSize
  | .align => none
  | .raw _ => none

theorem announced_eq (edit : Edit) : edit.announced? = edit.value?.map Argument.encodedSize := by
  cases edit <;> rfl

theorem apply_of_value {edit : Edit} {value : Argument} (writes : edit.value? = some value)
    (buffer : Bytes) : edit.apply buffer = settle buffer value.payload := by
  cases edit with
  | string text =>
      obtain rfl := Option.some.inj writes
      exact Writer.string_writes text buffer
  | blob data =>
      obtain rfl := Option.some.inj writes
      exact Writer.blob_writes data buffer
  | argument value =>
      obtain rfl := Option.some.inj writes
      exact Writer.argument_writes value buffer
  | align => contradiction
  | raw bytes => contradiction

/-- What an edit may do to the buffer that it finds. -/
structure Effect (edit : Edit) (before : Bytes) (outcome : Except Error Unit × Bytes) : Prop where
  kept : before <+: outcome.2
  atomic : outcome.1 ≠ .ok () → outcome.2 = before
  settled : ∀ value, edit.value? = some value → outcome = settle before value.payload
  grown : ∀ size, edit.announced? = some size → size % alignment = 0 ∧
    (outcome.1 = .ok () → outcome.2.length = before.length + size)
  aligned : edit = .align → outcome.1 = .ok () ∧
    IsLeast {size | size % alignment = 0 ∧ before.length ≤ size} outcome.2.length ∧
    ∃ count, outcome.2 = before ++ zeros count

theorem effect_of_value {edit : Edit} {value : Argument} (writes : edit.value? = some value)
    (before : Bytes) : edit.Effect before (edit.apply before) := by
  have unaligned : edit ≠ .align := by
    rintro rfl
    contradiction
  rw [apply_of_value writes]
  refine ⟨prefix_settle .., settle_of_failed, ?_, ?_, fun same => absurd same unaligned⟩
  · intro again same
    obtain rfl := Option.some.inj (writes.symm.trans same)
    rfl
  · intro size announces
    rw [announced_eq, writes] at announces
    obtain rfl := Option.some.inj announces
    exact ⟨encodedSize_mod value, length_settle⟩

theorem effect_align (before : Bytes) : Edit.align.Effect before (Edit.align.apply before) := by
  have padded : (before ++ zeros (paddedLength before.length - before.length)).length =
      paddedLength before.length := length_pad before
  refine ⟨List.prefix_append .., fun failed => absurd rfl failed, nofun, nofun, fun _ => ?_⟩
  refine ⟨rfl, ?_, _, rfl⟩
  rw [apply, writer, Writer.align_run, padded]
  exact paddedLength_isLeast before.length

theorem effect (edit : Edit) (before : Bytes) : edit.Effect before (edit.apply before) := by
  cases edit with
  | string text => exact effect_of_value rfl before
  | blob data => exact effect_of_value rfl before
  | argument value => exact effect_of_value rfl before
  | align => exact effect_align before
  | raw bytes =>
      exact ⟨List.prefix_append .., fun failed => absurd rfl failed, nofun, nofun, nofun⟩

theorem Effect.length_mod {edit : Edit} {before : Bytes} {outcome : Except Error Unit × Bytes}
    (effect : edit.Effect before outcome) (field : edit.announced?.isSome) :
    outcome.2.length % alignment = before.length % alignment := by
  obtain ⟨size, announces⟩ := Option.isSome_iff_exists.mp field
  obtain ⟨whole, grows⟩ := effect.grown size announces
  by_cases written : outcome.1 = .ok ()
  · rw [grows written, Nat.add_mod, whole, Nat.add_zero, Nat.mod_mod]
  · rw [effect.atomic written]

end Edit

theorem trace_append (buffer : Bytes) (front back : List Edit) :
    trace buffer (front ++ back) = trace buffer front ++ trace (run buffer front) back := by
  induction front generalizing buffer with
  | nil => rfl
  | cons edit rest ih => exact congrArg (List.cons _) (ih _)

theorem prefix_run (buffer : Bytes) (edits : List Edit) : buffer <+: run buffer edits := by
  induction edits generalizing buffer with
  | nil => exact List.prefix_rfl
  | cons edit rest ih => exact (edit.effect buffer).kept.trans (ih (edit.apply buffer).2)

theorem length_run_mod (buffer : Bytes) {edits : List Edit}
    (fields : ∀ edit ∈ edits, edit.announced?.isSome) :
    (run buffer edits).length % alignment = buffer.length % alignment := by
  induction edits generalizing buffer with
  | nil => rfl
  | cons edit rest ih =>
      obtain ⟨field, later⟩ := List.forall_mem_cons.mp fields
      calc
        (run (edit.apply buffer).2 rest).length % alignment =
            (edit.apply buffer).2.length % alignment := ih _ later
        _ = buffer.length % alignment := (edit.effect buffer).length_mod field

/-- Each edit of a history has its effect on the buffer that the edits before it have left, and what
it leaves stands in front of all that comes later; fields in a row keep the place within a word. -/
theorem edits_append_only (buffer : Bytes) (edits : List Edit) :
    buffer <+: run buffer edits ∧
      (∀ done edit later, edits = done ++ edit :: later →
        ∃ outcome, trace buffer edits = trace buffer done ++ outcome :: trace outcome.2 later ∧
          edit.Effect (run buffer done) outcome ∧ outcome.2 <+: run buffer edits) ∧
      ((∀ edit ∈ edits, edit.announced?.isSome) →
        (run buffer edits).length % alignment = buffer.length % alignment) := by
  refine ⟨prefix_run buffer edits, ?_, length_run_mod buffer⟩
  rintro done edit later rfl
  refine ⟨edit.apply (run buffer done), trace_append .., edit.effect _, ?_⟩
  have whole : run buffer (done ++ edit :: later) =
      run (edit.apply (run buffer done)).2 later := List.foldl_append
  rw [whole]
  exact prefix_run ..

def misaligned : Bytes := [7]

def mixed : List Edit :=
  [.string "a\x00b", .blob [1], .argument (.bool true), .string "abcd"]

theorem edits_append_only_misaligned :
    run misaligned (mixed ++ .align :: [.argument (.string "\x00")]) =
        [7, 0, 0, 0, 1, 1, 0, 0, 0, 97, 98, 99, 100, 0, 0, 0, 0, 0, 0, 0] ∧
      (∃ outcome, Edit.align.Effect (run misaligned mixed) outcome ∧
        outcome.2 <+: run misaligned (mixed ++ .align :: [.argument (.string "\x00")])) ∧
      (∃ outcome, (Edit.string "a\x00b").Effect misaligned outcome ∧ outcome.1 ≠ .ok () ∧
        outcome.2 <+: run misaligned mixed) ∧
      (run misaligned mixed).length % alignment = 1 := by
  have whole : run misaligned (mixed ++ .align :: [.argument (.string "\x00")]) =
      [7, 0, 0, 0, 1, 1, 0, 0, 0, 97, 98, 99, 100, 0, 0, 0, 0, 0, 0, 0] := by decide
  have fields : ∀ edit ∈ mixed, edit.announced?.isSome := by decide
  obtain ⟨-, steps, -⟩ :=
    edits_append_only misaligned (mixed ++ .align :: [.argument (.string "\x00")])
  obtain ⟨outcome, -, effect, stays⟩ := steps mixed .align [.argument (.string "\x00")] rfl
  obtain ⟨-, first, place⟩ := edits_append_only misaligned mixed
  obtain ⟨refusal, -, refused, left⟩ := first [] (.string "a\x00b") mixed.tail rfl
  have failed : refusal.1 ≠ .ok () := by
    rw [refused.settled _ rfl]
    decide
  exact ⟨whole, ⟨outcome, effect, stays⟩, ⟨refusal, refused, failed, left⟩, place fields⟩

end OpenSoundControl.Wire
