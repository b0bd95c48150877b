import OpenSoundControl.Proofs.Alignment
import OpenSoundControl.Proofs.Canonical

/-!
What one codec has read, written by another. Nothing but the limit stands against it, the comma and
its padding make the packet longer by one word at most, and the packet stays the same when it is
read and written again.
-/

namespace OpenSoundControl

/-- A message that a packet can hold: what the decoder promises to the encoder. -/
structure Message.Representable (message : Message) : Prop where
  named : message.address ≠ ""
  clean : '\x00' ∉ message.address.toList
  held : ∃ fields, List.Forall₂ Argument.HeldBy message.arguments fields

namespace Codec

theorem representable_of_decode {codec : Codec} {packet : Bytes} {sender : Option String}
    {message : Message} (decoded : codec.decode packet sender = .ok message) :
    message.Representable := by
  obtain ⟨-, -, named, -, grammar⟩ := (decode_eq_ok_iff ..).mp decoded
  cases grammar with
  | bare _ noArguments holds =>
      refine ⟨named, holds.1, [], ?_⟩
      rw [noArguments]
      exact .nil
  | tagged holds _ fields _ =>
      obtain ⟨padded, held, -⟩ := (Argument.payloadFields_iff_padded _ _).mp fields
      exact ⟨named, holds.1, padded, held⟩

theorem nul_not_mem_tagText (codec : Codec) (message : Message) :
    '\x00' ∉ (codec.tagText message).toList := by
  rw [← Utf8.nul_mem_encode_iff, encode_tagText]
  intro member
  rcases List.mem_append.mp member with comma | tag
  · split at comma <;> simp [commaByte] at comma
  · obtain ⟨argument, -, same⟩ := List.mem_map.mp tag
    cases known : argument.tag <;> simp [known, Tag.byte] at same

theorem encodeFields_ok (codec : Codec) {message : Message} (fit : message.Representable) :
    ∃ packet, codec.encodeFields message = .ok packet := by
  obtain ⟨-, clean, fields, held⟩ := fit
  have address := (Wire.stringField_eq_ok_iff message.address _).mpr ⟨clean, rfl⟩
  have tags := (Wire.stringField_eq_ok_iff (codec.tagText message) _).mpr
    ⟨nul_not_mem_tagText codec message, rfl⟩
  have payloads := Argument.mapM_payload_written held
  exact ⟨_, bind_eq_ok_iff.mpr ⟨_, address, bind_eq_ok_iff.mpr ⟨_, tags,
    bind_eq_ok_iff.mpr ⟨_, payloads, rfl⟩⟩⟩⟩

theorem encode_representable (codec : Codec) {message : Message} (fit : message.Representable) :
    (codec.limit < codec.encodedSize message ∧
        codec.encode message =
          .error (.packetTooLarge (codec.encodedSize message) codec.limit)) ∨
      (codec.encodedSize message ≤ codec.limit ∧
        ∃ packet, codec.encode message = .ok packet) := by
  rw [encode, if_neg fit.named]
  by_cases above : codec.limit < codec.encodedSize message
  · exact .inl ⟨above, if_pos above⟩
  · rw [if_neg above]
    exact .inr ⟨Nat.le_of_not_lt above, codec.encodeFields_ok fit⟩

theorem length_of_encode {codec : Codec} {message : Message} {packet : Bytes}
    (encoded : codec.encode message = .ok packet) : packet.length = codec.encodedSize message := by
  obtain ⟨-, address, tags, payloads, rfl, addressHolds, tagsHold, fields⟩ :=
    exists_fields_of_encode encoded
  rw [List.length_append, List.length_append, addressHolds.length_eq, tagsHold.length_eq,
    Argument.length_payloads fields, encodedSize]
  simp only [Wire.stringSize, length_encode_tagText]

theorem paddedLength_succ_le (length : Nat) :
    Wire.paddedLength (length + 1) ≤ Wire.paddedLength length + 4 := by
  simp only [Wire.paddedLength_eq]
  omega

theorem tagLength_le (codec : Codec) (message : Message) :
    codec.tagLength message ≤ message.arguments.length + 1 := by
  rw [tagLength, Message.size]
  split <;> omega

theorem TagField.le_length {codec : Codec} {arguments : List Argument} {tags : Bytes}
    (tagged : codec.TagField arguments tags) :
    Wire.paddedLength (arguments.length + 1) ≤ tags.length := by
  obtain ⟨text, holds, content⟩ := tagged
  rw [holds.length_eq, Wire.stringSize]
  apply Wire.paddedLength_mono
  rcases content with content | ⟨-, content⟩
  all_goals
    rw [content]
    simp

theorem encodedSize_le_of_decode {codec : Codec} (target : Codec) {packet : Bytes}
    {sender : Option String} {message : Message}
    (decoded : codec.decode packet sender = .ok message) :
    target.encodedSize message ≤ packet.length + 4 := by
  have tagsFit : Wire.paddedLength (target.tagLength message + 1) ≤
      Wire.paddedLength (message.arguments.length + 1) + 4 :=
    calc
      Wire.paddedLength (target.tagLength message + 1)
          ≤ Wire.paddedLength (message.arguments.length + 1 + 1) :=
        Wire.paddedLength_mono (Nat.succ_le_succ (tagLength_le target message))
      _ ≤ Wire.paddedLength (message.arguments.length + 1) + 4 := paddedLength_succ_le _
  obtain ⟨-, -, -, -, grammar⟩ := (decode_eq_ok_iff ..).mp decoded
  rw [encodedSize]
  cases grammar with
  | bare _ noArguments holds =>
      have oneWord : Wire.paddedLength (target.tagLength message + 1) ≤ Wire.paddedLength 2 := by
        have few := tagLength_le target message
        rw [noArguments] at few
        exact Wire.paddedLength_mono (Nat.succ_le_succ few)
      rw [holds.length_eq, noArguments]
      exact Nat.add_le_add_left oneWord _
  | tagged holds tagged fields _ =>
      have size := Argument.length_payloads fields
      have tagsSize := tagged.le_length
      simp only [List.length_append, holds.length_eq]
      omega

theorem decode_encode_leniently {encoder decoder : Codec} {message : Message} {packet : Bytes}
    (encoded : encoder.encode message = .ok packet) (lenient : decoder.strict = false)
    (noBundle : message.address ≠ bundleAddress) (fits : packet.length ≤ decoder.limit)
    (sender : Option String) :
    decoder.decode packet sender = .ok { message with sender := sender } := by
  obtain ⟨named, address, tags, payloads, rfl, addressHolds, tagsHold, fields⟩ :=
    exists_fields_of_encode encoded
  have tagged : decoder.TagField message.arguments tags :=
    tagField_of_tagText tagsHold (by simp [lenient])
  have grammar : decoder.Packet { message with sender := sender }
      (address ++ tags ++ payloads.flatten ++ []) :=
    .tagged addressHolds tagged fields fun _ => rfl
  rw [List.append_nil] at grammar
  exact (decode_eq_ok_iff ..).mpr ⟨fits, rfl, named, noBundle, grammar⟩

/-- Whatever a codec has read, any other writes within its limit, in one more word at most; and the
packet that it writes gives the message and then itself again. -/
theorem encode_decoded (source target : Codec) (packet : Bytes) (sender : Option String)
    (message : Message) (decoded : source.decode packet sender = .ok message) :
    target.encodedSize message ≤ packet.length + 4 ∧
      (target.limit < target.encodedSize message →
        target.encode message =
          .error (.packetTooLarge (target.encodedSize message) target.limit)) ∧
      (target.encodedSize message ≤ target.limit →
        ∃ result, target.encode message = .ok result ∧
          result.length = target.encodedSize message ∧
          ∀ (reader : Codec) (origin : Option String), reader.strict = false →
            result.length ≤ reader.limit →
            reader.decode result origin = .ok { message with sender := origin } ∧
              target.encode { message with sender := origin } = .ok result) := by
  have fit := representable_of_decode decoded
  obtain ⟨-, -, -, noBundle, -⟩ := (decode_eq_ok_iff ..).mp decoded
  refine ⟨encodedSize_le_of_decode target decoded, ?_⟩
  rcases target.encode_representable fit with ⟨above, refused⟩ | ⟨within, result, encoded⟩
  · exact ⟨fun _ => refused, fun within => absurd above (Nat.not_lt.mpr within)⟩
  · refine ⟨fun above => absurd within (Nat.not_le.mpr above), fun _ => ?_⟩
    refine ⟨result, encoded, length_of_encode encoded, ?_⟩
    intro reader origin lenient fits
    exact ⟨decode_encode_leniently encoded lenient noBundle fits origin, encoded⟩

theorem encode_decoded_sample :
    Codec.default.decode [47, 97, 0, 7, 84, 84, 84, 0, 9] none =
        .ok ⟨"/a", [.bool true, .bool true, .bool true], none⟩ ∧
      Codec.encode ⟨true, true, 12⟩ ⟨"/a", [.bool true, .bool true, .bool true], none⟩ =
        .ok [47, 97, 0, 0, 44, 84, 84, 84, 0, 0, 0, 0] ∧
      Codec.encode ⟨true, true, 11⟩ ⟨"/a", [.bool true, .bool true, .bool true], none⟩ =
        .error (.packetTooLarge 12 11) ∧
      Codec.default.decode [47, 97, 0, 0, 44, 84, 84, 84, 0, 0, 0, 0] (some "127.0.0.1:9000") =
        .ok ⟨"/a", [.bool true, .bool true, .bool true], some "127.0.0.1:9000"⟩ := by
  have decoded : Codec.default.decode [47, 97, 0, 7, 84, 84, 84, 0, 9] none =
      .ok ⟨"/a", [.bool true, .bool true, .bool true], none⟩ := by decide
  have written : Codec.encode ⟨true, true, 12⟩
      ⟨"/a", [.bool true, .bool true, .bool true], none⟩ =
      .ok [47, 97, 0, 0, 44, 84, 84, 84, 0, 0, 0, 0] := by decide
  obtain ⟨-, -, writes⟩ := encode_decoded _ ⟨true, true, 12⟩ _ none _ decoded
  obtain ⟨-, refused, -⟩ := encode_decoded _ ⟨true, true, 11⟩ _ none _ decoded
  obtain ⟨result, encoded, -, reads⟩ := writes (by decide)
  rw [written] at encoded
  obtain rfl := Except.ok.inj encoded
  exact ⟨decoded, written, refused (by decide), (reads Codec.default _ rfl (by decide)).1⟩

end Codec

end OpenSoundControl
