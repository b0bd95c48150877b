import OpenSoundControl.Proofs.Printing
import OpenSoundControl.Proofs.Repairs

/-!
The diagnostic form as text and as bytes. Repairing the bytes as a whole gives the text, in which
each blob is repaired on its own: the space between two arguments keeps them apart, also where a
blob ends or begins within a character.
-/

namespace OpenSoundControl

open Utf8

namespace Argument

theorem repair_textBytes (argument : Argument) : repair argument.textBytes = argument.text := by
  cases argument with
  | blob data => rfl
  | _ => exact repair_encode _

theorem encoded_textBytes_iff (argument : Argument) :
    (∃ text, argument.textBytes = encode text) ↔
      ∀ data, argument = .blob data → ∃ text, data = encode text := by
  constructor
  · rintro encoded data rfl
    exact encoded
  · intro valid
    cases argument with
    | blob data => exact valid data rfl
    | _ => exact ⟨_, rfl⟩

end Argument

namespace Message

theorem repair_spaced (front : Bytes) (arguments : List Argument) :
    repair (front ++ arguments.flatMap spaced) =
      arguments.foldl (fun text argument => text ++ " " ++ argument.text) (repair front) := by
  induction arguments generalizing front with
  | nil => rw [List.flatMap_nil, List.append_nil, List.foldl_nil]
  | cons argument rest ih =>
      rw [List.flatMap_cons, ← List.append_assoc, ih, List.foldl_cons, spaced, ← List.append_assoc]
      congr 1
      have apart := repair_append_character front argument.textBytes ' '
      rw [argument.repair_textBytes] at apart
      exact apart

theorem encoded_spaced_iff (front : Bytes) (arguments : List Argument) :
    (∃ text, front ++ arguments.flatMap spaced = encode text) ↔
      (∃ text, front = encode text) ∧
        ∀ argument ∈ arguments, ∃ text, argument.textBytes = encode text := by
  induction arguments generalizing front with
  | nil => simp
  | cons argument rest ih =>
      have apart := encoded_append_character_iff front argument.textBytes ' '
      have space : String.utf8EncodeChar ' ' = encode " " := rfl
      rw [space] at apart
      rw [List.flatMap_cons, ← List.append_assoc, ih, spaced, ← List.append_assoc, apart,
        List.forall_mem_cons, and_assoc]

def heading (message : Message) : String :=
  message.address ++ " ," ++ message.typeTags

theorem textBytes_eq (message : Message) :
    message.textBytes = encode message.heading ++ message.arguments.flatMap spaced := by
  rw [heading, encode_append, encode_append, List.append_assoc, List.append_assoc, textBytes]

theorem repair_textBytes (message : Message) : repair message.textBytes = message.text := by
  rw [textBytes_eq, repair_spaced, repair_encode]
  rfl

theorem encoded_textBytes_iff (message : Message) :
    (∃ text, message.textBytes = encode text) ↔
      ∀ data, .blob data ∈ message.arguments → ∃ text, data = encode text := by
  rw [textBytes_eq, encoded_spaced_iff]
  constructor
  · rintro ⟨-, encoded⟩ data member
    exact encoded _ member
  · intro valid
    refine ⟨⟨message.heading, rfl⟩, ?_⟩
    intro argument member
    rw [argument.encoded_textBytes_iff]
    rintro data rfl
    exact valid data member

/-- The text of a message is the repaired form of the bytes that printing it writes, and has just
these bytes if every blob is a text in UTF-8; so it is for an argument. -/
theorem print_repairs (message : Message) :
    (∀ text, Repairs (message.print Sink.unlimited).2.stored text ↔ text = message.text) ∧
      ((message.print Sink.unlimited).2.stored = encode message.text ↔
        ∀ data, .blob data ∈ message.arguments → ∃ text, data = encode text) ∧
      ∀ argument : Argument,
        (∀ text, Repairs (argument.writeTo Sink.unlimited).2.stored text ↔
          text = argument.text) ∧
        ((argument.writeTo Sink.unlimited).2.stored = encode argument.text ↔
          ∀ data, argument = .blob data → ∃ text, data = encode text) := by
  rw [print_unlimited]
  refine ⟨?_, ?_, ?_⟩
  · intro text
    rw [repairs_iff, message.repair_textBytes]
  · rw [eq_encode_repair_iff message.repair_textBytes, encoded_textBytes_iff]
  · intro argument
    rw [argument.writeTo_unlimited]
    constructor
    · intro text
      rw [repairs_iff, argument.repair_textBytes]
    · rw [eq_encode_repair_iff argument.repair_textBytes, argument.encoded_textBytes_iff]

example : (Message.mk "/a" [.blob [0xE2, 0x82], .blob [0xAC, 0x41]] none).text =
    "/a ,bb \uFFFD \uFFFDA" := by
  decide

end Message

end OpenSoundControl
