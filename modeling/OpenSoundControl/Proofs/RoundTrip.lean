import OpenSoundControl.Proofs.Packet

/-!
A packet that one codec writes, read by another. Only the address of bundles, the limit and a comma
that a strict reader misses keep the message from coming back.
-/

namespace OpenSoundControl

theorem mapM_payload_fields (arguments : List Argument) (payloads : List Bytes)
    (written : arguments.mapM Argument.payload = .ok payloads) :
    List.Forall₂ Argument.PayloadField arguments payloads :=
  (mapM_eq_ok_iff.mp written).imp fun _ _ => .of_payload

namespace Codec

theorem encode_tagText (codec : Codec) (message : Message) :
    Utf8.encode (codec.tagText message) =
      (if codec.comma then [commaByte] else []) ++ message.arguments.map (·.tag.byte) := by
  have front : Utf8.encode (if codec.comma then "," else "") =
      if codec.comma then [commaByte] else [] := by
    split <;> rfl
  rw [tagText, Utf8.encode_append, front, Message.encode_typeTags]

theorem exists_written_of_encode {codec : Codec} {message : Message} {packet : Bytes}
    (encoded : codec.encode message = .ok packet) :
    message.address ≠ "" ∧ ∃ address tags payloads, packet = address ++ tags ++ payloads.flatten ∧
      Wire.stringField message.address = .ok address ∧
      Wire.stringField (codec.tagText message) = .ok tags ∧
      message.arguments.mapM Argument.payload = .ok payloads := by
  unfold encode at encoded
  split at encoded
  · contradiction
  · rename_i named
    split at encoded
    · contradiction
    · obtain ⟨address, isAddress, encoded⟩ := bind_eq_ok_iff.mp encoded
      obtain ⟨tags, isTags, encoded⟩ := bind_eq_ok_iff.mp encoded
      obtain ⟨payloads, isPayloads, same⟩ := bind_eq_ok_iff.mp encoded
      exact ⟨named, address, tags, payloads, (Except.ok.inj same).symm, isAddress, isTags,
        isPayloads⟩

theorem exists_fields_of_encode {codec : Codec} {message : Message} {packet : Bytes}
    (encoded : codec.encode message = .ok packet) :
    message.address ≠ "" ∧ ∃ address tags payloads, packet = address ++ tags ++ payloads.flatten ∧
      Wire.StringField message.address address ∧
      Wire.StringField (codec.tagText message) tags ∧
      List.Forall₂ Argument.PayloadField message.arguments payloads := by
  obtain ⟨named, address, tags, payloads, split, isAddress, isTags, isPayloads⟩ :=
    exists_written_of_encode encoded
  exact ⟨named, address, tags, payloads, split, .of_stringField isAddress, .of_stringField isTags,
    mapM_payload_fields _ _ isPayloads⟩

theorem tagField_of_tagText {encoder decoder : Codec} {message : Message} {tags : Bytes}
    (holds : Wire.StringField (encoder.tagText message) tags)
    (comma : decoder.strict = true → encoder.comma = true) :
    decoder.TagField message.arguments tags := by
  refine ⟨encoder.tagText message, holds, ?_⟩
  rw [encode_tagText]
  by_cases emitted : encoder.comma = true
  · exact .inl (by simp [emitted])
  · refine .inr ⟨?_, by simp [emitted]⟩
    exact Bool.eq_false_iff.mpr fun strict => emitted (comma strict)

theorem comma_of_tagField {encoder decoder : Codec} {message : Message}
    {arguments : List Argument} {tags other rest behind : Bytes}
    (holds : Wire.StringField (encoder.tagText message) tags)
    (tagged : decoder.TagField arguments other) (same : tags ++ rest = other ++ behind)
    (strict : decoder.strict = true) : encoder.comma = true := by
  obtain ⟨text, otherHolds, content⟩ := tagged
  obtain ⟨rfl, -⟩ := holds.unique otherHolds same
  rcases content with content | ⟨lenient, -⟩
  · by_contra silent
    rw [encode_tagText, if_neg silent, List.nil_append] at content
    have noComma := head_tags_ne_comma message.arguments
    rw [content] at noComma
    exact noComma rfl
  · rw [strict] at lenient
    contradiction

/-- The codec that writes and the codec that reads need not agree on anything but the comma. -/
theorem decode_encoded (message : Message) (encoder decoder : Codec) (packet : Bytes)
    (encoded : encoder.encode message = .ok packet) (sender : Option String) :
    ((∃ result, decoder.decode packet sender = .ok result) ↔
        message.address ≠ bundleAddress ∧ packet.length ≤ decoder.limit ∧
          (decoder.strict = true → encoder.comma = true)) ∧
      (∀ result, decoder.decode packet sender = .ok result →
        result = { message with sender := sender }) ∧
      (decoder.strict = false → message.address ≠ bundleAddress →
        ∀ suffix, (packet ++ suffix).length ≤ decoder.limit →
          decoder.decode (packet ++ suffix) sender = .ok { message with sender := sender }) := by
  obtain ⟨named, address, tags, payloads, rfl, addressHolds, tagsHold, fields⟩ :=
    exists_fields_of_encode encoded
  have reads (suffix : Bytes) (noBundle : message.address ≠ bundleAddress)
      (fits : (address ++ tags ++ payloads.flatten ++ suffix).length ≤ decoder.limit)
      (comma : decoder.strict = true → encoder.comma = true)
      (complete : decoder.strict = true → suffix = []) :
      decoder.decode (address ++ tags ++ payloads.flatten ++ suffix) sender =
        .ok { message with sender := sender } := by
    refine (decode_eq_ok_iff ..).mpr ⟨fits, rfl, named, noBundle, ?_⟩
    exact .tagged addressHolds (tagField_of_tagText tagsHold comma) fields complete
  have allowed (result : Message)
      (decoded : decoder.decode (address ++ tags ++ payloads.flatten) sender = .ok result) :
      message.address ≠ bundleAddress ∧
        (address ++ tags ++ payloads.flatten).length ≤ decoder.limit ∧
        (decoder.strict = true → encoder.comma = true) := by
    obtain ⟨fits, -, -, noBundle, grammar⟩ := (decode_eq_ok_iff ..).mp decoded
    rw [List.append_assoc] at grammar
    generalize split : address ++ (tags ++ payloads.flatten) = packet at grammar
    cases grammar with
    | bare lenient noArguments otherHolds =>
        rw [← List.append_nil packet] at split
        obtain ⟨same, -⟩ := addressHolds.unique otherHolds split
        refine ⟨same ▸ noBundle, fits, ?_⟩
        simp [lenient]
    | tagged otherHolds tagged otherFields complete =>
        rw [List.append_assoc, List.append_assoc] at split
        obtain ⟨same, -, split⟩ := addressHolds.unique otherHolds split
        exact ⟨same ▸ noBundle, fits, comma_of_tagField tagsHold tagged split⟩
  refine ⟨⟨?_, ?_⟩, ?_, ?_⟩
  · rintro ⟨result, decoded⟩
    exact allowed result decoded
  · rintro ⟨noBundle, fits, comma⟩
    have decoded := reads [] noBundle (by rwa [List.append_nil]) comma fun _ => rfl
    rw [List.append_nil] at decoded
    exact ⟨_, decoded⟩
  · intro result decoded
    obtain ⟨noBundle, fits, comma⟩ := allowed result decoded
    have expected := reads [] noBundle (by rwa [List.append_nil]) comma fun _ => rfl
    rw [List.append_nil, decoded] at expected
    exact Except.ok.inj expected
  · intro lenient noBundle suffix fits
    exact reads suffix noBundle fits (by simp [lenient]) (by simp [lenient])

theorem decode_encoded_sample :
    Codec.default.encode ⟨"/a", [.float32 ⟨0x7FC00001⟩, .blob [1, 2, 3], .bool true], none⟩ =
        .ok [47, 97, 0, 0, 44, 102, 98, 84, 0, 0, 0, 0, 127, 192, 0, 1, 0, 0, 0, 3, 1, 2, 3, 0] ∧
      Codec.decode ⟨true, true, 24⟩
          [47, 97, 0, 0, 44, 102, 98, 84, 0, 0, 0, 0, 127, 192, 0, 1, 0, 0, 0, 3, 1, 2, 3, 0]
          (some "127.0.0.1:9000") =
        .ok ⟨"/a", [.float32 ⟨0x7FC00001⟩, .blob [1, 2, 3], .bool true], some "127.0.0.1:9000"⟩ ∧
      Codec.default.decode
          ([47, 97, 0, 0, 44, 102, 98, 84, 0, 0, 0, 0, 127, 192, 0, 1, 0, 0, 0, 3, 1, 2, 3, 0] ++
            [255]) none =
        .ok ⟨"/a", [.float32 ⟨0x7FC00001⟩, .blob [1, 2, 3], .bool true], none⟩ := by
  have encoded : Codec.default.encode
      ⟨"/a", [.float32 ⟨0x7FC00001⟩, .blob [1, 2, 3], .bool true], none⟩ =
      .ok [47, 97, 0, 0, 44, 102, 98, 84, 0, 0, 0, 0, 127, 192, 0, 1, 0, 0, 0, 3, 1, 2, 3, 0] := rfl
  obtain ⟨readable, same, -⟩ :=
    decode_encoded _ Codec.default ⟨true, true, 24⟩ _ encoded (some "127.0.0.1:9000")
  obtain ⟨-, -, extended⟩ := decode_encoded _ Codec.default Codec.default _ encoded none
  obtain ⟨result, decoded⟩ := readable.mpr ⟨by decide, by decide, fun _ => rfl⟩
  refine ⟨encoded, ?_, extended rfl (by decide) [255] (by decide)⟩
  rw [decoded, same result decoded]

end Codec

end OpenSoundControl
