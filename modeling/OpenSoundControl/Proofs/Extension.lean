import OpenSoundControl.Proofs.FirstFault

/-!
Packets that go on. A fault in front of the end of the bytes stays where it is when more bytes
follow; only a fault at the end may be mended by them. So the bytes of a packet that arrive first
are read, or the fault is that they end.
-/

namespace OpenSoundControl

namespace Codec

variable {codec : Codec} {packet : Bytes}

def Progress.append (front : codec.Progress packet) (suffix : Bytes) :
    codec.Progress (packet ++ suffix) where
  name := front.name
  text := front.text
  mark := front.mark
  arguments := front.arguments
  later := front.later
  address := front.address
  tags := front.tags
  payloads := front.payloads
  rest := front.rest ++ suffix
  split := by
    have whole := congrArg (· ++ suffix) front.split
    simpa only [List.append_assoc] using whole
  addressHolds := front.addressHolds
  tagsHold := front.tagsHold
  content := front.content
  marked := front.marked
  fields := front.fields

theorem Next.append {position : Nat} {tag : Tag} {rest : Bytes}
    (next : codec.Next packet position tag rest) (suffix : Bytes) :
    codec.Next (packet ++ suffix) position tag (rest ++ suffix) := by
  cases next with
  | address => exact .address
  | tags split addressHolds more =>
      rw [split, List.append_assoc]
      exact .tags rfl addressHolds (List.append_ne_nil_of_left_ne_nil more suffix)
  | payload front more => exact .payload (front.append suffix) more

theorem FirstFault.append {offset : Nat} {cause : ParseCause}
    (fault : codec.FirstFault packet offset cause) (inside : offset < packet.length)
    (suffix : Bytes) : ∃ cause, codec.FirstFault (packet ++ suffix) offset cause := by
  cases fault with
  | cut _ _ => exact absurd inside (Nat.lt_irrefl _)
  | refused next isRefused => exact ⟨_, .refused (next.append suffix) (isRefused.append suffix)⟩
  | emptyAddress split holds =>
      rw [split, List.append_assoc]
      exact ⟨_, .emptyAddress rfl holds⟩
  | bundle split holds =>
      rw [split, List.append_assoc]
      exact ⟨_, .bundle rfl holds⟩
  | noTags _ _ => exact absurd inside (Nat.lt_irrefl _)
  | noComma strict split addressHolds tagsHold noComma =>
      rw [split, List.append_assoc, List.append_assoc]
      exact ⟨_, .noComma strict rfl addressHolds tagsHold noComma⟩
  | unknownTag front more unknown => exact ⟨_, .unknownTag (front.append suffix) more unknown⟩
  | trailing front strict done more =>
      exact ⟨_, .trailing (front.append suffix) strict done
        (List.append_ne_nil_of_left_ne_nil more suffix)⟩

/-- More bytes do not move a fault in front of them, and they complete no packet that has one. -/
theorem decode_append_suffix (codec : Codec) (packet suffix : Bytes)
    (sender origin : Option String) :
    ((packet ++ suffix).length ≤ codec.limit → ∀ offset < packet.length,
        FailsAt (codec.decode packet sender) offset →
          FailsAt (codec.decode (packet ++ suffix) origin) offset) ∧
      (∀ message, codec.decode (packet ++ suffix) origin = .ok message →
        (∃ result, codec.decode packet sender = .ok result) ∨
          FailsAt (codec.decode packet sender) packet.length) := by
  have shorter (fits : (packet ++ suffix).length ≤ codec.limit) : packet.length ≤ codec.limit := by
    rw [List.length_append] at fits
    omega
  constructor
  · intro fits offset inside failed
    obtain ⟨cause, failed⟩ := failed
    obtain ⟨place, reason, same, fault⟩ := firstFault_of_error (shorter fits) failed
    obtain ⟨rfl, rfl⟩ := Error.parse.inj same
    obtain ⟨other, later⟩ := fault.append inside suffix
    exact ⟨other, later.decode_eq fits origin⟩
  · intro message decoded
    obtain ⟨fits, -⟩ := (decode_eq_ok_iff ..).mp decoded
    rcases codec.decode_cases packet (shorter fits) sender with readable |
      ⟨offset, cause, fault⟩
    · exact .inl readable
    · -- A fault in front of the end would be one of the longer packet too.
      rcases Nat.lt_or_eq_of_le fault.offset_le with inside | rfl
      · obtain ⟨other, later⟩ := fault.append inside suffix
        rw [later.decode_eq fits] at decoded
        contradiction
      · exact .inr ⟨cause, fault.decode_eq (shorter fits) sender⟩

theorem decode_append_suffix_sample :
    FailsAt (Codec.default.decode [47, 97, 0, 0, 44, 84, 113, 0] none) 6 ∧
      FailsAt (Codec.default.decode ([47, 97, 0, 0, 44, 84, 113, 0] ++ [0, 0]) none) 6 ∧
      Codec.default.decode ([47, 97, 0, 0, 44, 105] ++ [0, 0, 0, 0, 0, 7]) none =
        .ok ⟨"/a", [.int32 7], none⟩ ∧
      FailsAt (Codec.default.decode [47, 97, 0, 0, 44, 105] none) 6 := by
  have fails : FailsAt (Codec.default.decode [47, 97, 0, 0, 44, 84, 113, 0] none) 6 :=
    ⟨.unknownTag 113, by decide⟩
  have decoded : Codec.default.decode ([47, 97, 0, 0, 44, 105] ++ [0, 0, 0, 0, 0, 7]) none =
      .ok ⟨"/a", [.int32 7], none⟩ := by decide
  have stays := (decode_append_suffix Codec.default [47, 97, 0, 0, 44, 84, 113, 0] [0, 0] none
    none).1 (by decide) 6 (by decide) fails
  have ends := (decode_append_suffix _ _ _ none none).2 _ decoded
  refine ⟨fails, stays, decoded, ends.resolve_left ?_⟩
  rintro ⟨result, read⟩
  have unread : Codec.default.decode [47, 97, 0, 0, 44, 105] none =
      .error (.parse 6 .unterminatedString) := by decide
  rw [unread] at read
  contradiction

end Codec

end OpenSoundControl
