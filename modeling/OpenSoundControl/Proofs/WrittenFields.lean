import OpenSoundControl.Proofs.Transcoding

/-!
What an encoder writes, field by field. The fields stand one behind the other and each of them is
whole words, so all of them start at a word, and what fills up their last words is zero.
-/

namespace OpenSoundControl

namespace Wire

theorem exists_padded_of_stringField {text : String} {bytes : Bytes}
    (written : stringField text = .ok bytes) :
    ∃ field : PaddedField, field.HoldsText text ∧ field.bytes = bytes ∧
      ∀ byte ∈ field.padding, byte = 0 := by
  obtain ⟨field, holds, rfl⟩ := (stringField_iff_padded _ _).mp (.of_stringField written)
  rw [holds.written] at written
  exact ⟨field, holds, rfl, field.cleared_eq_bytes_iff.mp (Except.ok.inj written)⟩

end Wire

namespace Argument

theorem exists_padded_of_mapM_payload {arguments : List Argument} {payloads : List Bytes}
    (written : arguments.mapM payload = .ok payloads) :
    ∃ fields, List.Forall₂ HeldBy arguments fields ∧
      fields.map Wire.PaddedField.bytes = payloads ∧
      ∀ field ∈ fields, ∀ byte ∈ field.padding, byte = 0 := by
  obtain ⟨fields, held, rfl⟩ :=
    (payloadFields_iff_padded _ _).mp (mapM_payload_fields _ _ written)
  rw [mapM_payload_written held] at written
  have cleared := List.map_inj_left.mp (Except.ok.inj written)
  refine ⟨fields, held, rfl, ?_⟩
  intro field member
  exact field.cleared_eq_bytes_iff.mp (cleared field member)

theorem HeldBy.payloadField {argument : Argument} {field : Wire.PaddedField}
    (held : argument.HeldBy field) : argument.PayloadField field.bytes :=
  (payloadField_iff_padded _ _).mpr ⟨field, held, rfl⟩

theorem aligned_of_held {arguments : List Argument} {fields : List Wire.PaddedField}
    (held : List.Forall₂ HeldBy arguments fields) :
    ∀ field ∈ fields, field.bytes.length % Wire.alignment = 0 := by
  induction held with
  | nil => nofun
  | cons first _ ih => exact List.forall_mem_cons.mpr ⟨first.payloadField.aligned, ih⟩

end Argument

theorem Wire.length_flatten_aligned {fields : List Wire.PaddedField}
    (aligned : ∀ field ∈ fields, field.bytes.length % Wire.alignment = 0) :
    (fields.map Wire.PaddedField.bytes).flatten.length % Wire.alignment = 0 := by
  induction fields with
  | nil => rfl
  | cons field rest ih =>
      obtain ⟨first, later⟩ := List.forall_mem_cons.mp aligned
      have whole := ih later
      rw [List.map_cons, List.flatten_cons, List.length_append]
      rw [Wire.alignment] at *
      omega

namespace Codec

/-- The fields of an encoded packet fill it exactly as its size was computed beforehand. Whatever
number of them stands in front of another, that one starts at a word. -/
theorem encode_fields (codec : Codec) (message : Message) (packet : Bytes)
    (encoded : codec.encode message = .ok packet) :
    packet.length = codec.encodedSize message ∧
      ∃ (address tags : Wire.PaddedField) (payloads : List Wire.PaddedField),
        packet = ((address :: tags :: payloads).map Wire.PaddedField.bytes).flatten ∧
          address.HoldsText message.address ∧ tags.HoldsText (codec.tagText message) ∧
          List.Forall₂ (fun argument field =>
            argument.HeldBy field ∧ field.bytes.length = argument.encodedSize)
            message.arguments payloads ∧
          (∀ count, (((address :: tags :: payloads).take count).map
            Wire.PaddedField.bytes).flatten.length % Wire.alignment = 0) ∧
          ∀ field ∈ address :: tags :: payloads, ∀ byte ∈ field.padding, byte = 0 := by
  refine ⟨length_of_encode encoded, ?_⟩
  obtain ⟨-, addressBytes, tagBytes, payloadBytes, rfl, isAddress, isTags, isPayloads⟩ :=
    exists_written_of_encode encoded
  obtain ⟨address, addressHolds, rfl, addressZero⟩ := Wire.exists_padded_of_stringField isAddress
  obtain ⟨tags, tagsHold, rfl, tagsZero⟩ := Wire.exists_padded_of_stringField isTags
  obtain ⟨payloads, held, rfl, payloadsZero⟩ := Argument.exists_padded_of_mapM_payload isPayloads
  have aligned : ∀ field ∈ address :: tags :: payloads,
      field.bytes.length % Wire.alignment = 0 :=
    List.forall_mem_cons.mpr ⟨addressHolds.aligned.2,
      List.forall_mem_cons.mpr ⟨tagsHold.aligned.2, Argument.aligned_of_held held⟩⟩
  refine ⟨address, tags, payloads, ?_, addressHolds, tagsHold, ?_, ?_, ?_⟩
  · simp
  · exact held.imp fun argument field holds => ⟨holds, holds.payloadField.length_eq⟩
  · intro count
    exact Wire.length_flatten_aligned fun field member =>
      aligned field (List.mem_of_mem_take member)
  · exact List.forall_mem_cons.mpr ⟨addressZero, List.forall_mem_cons.mpr ⟨tagsZero, payloadsZero⟩⟩

theorem encode_fields_sample :
    let codec : Codec := ⟨false, true, 32⟩
    let message : Message := ⟨"/é", [.string "→", .bool true, .blob [7]], none⟩
    let packet : Bytes :=
      [47, 195, 169, 0, 115, 84, 98, 0, 226, 134, 146, 0, 0, 0, 0, 1, 7, 0, 0, 0]
    codec.encode message = .ok packet ∧ packet.length = codec.encodedSize message ∧
      ∃ (address tags : Wire.PaddedField) (payloads : List Wire.PaddedField),
        packet = ((address :: tags :: payloads).map Wire.PaddedField.bytes).flatten ∧
          address.HoldsText "/é" ∧ tags.HoldsText "sTb" := by
  have encoded : Codec.encode ⟨false, true, 32⟩ ⟨"/é", [.string "→", .bool true, .blob [7]], none⟩ =
      .ok [47, 195, 169, 0, 115, 84, 98, 0, 226, 134, 146, 0, 0, 0, 0, 1, 7, 0, 0, 0] := by decide
  obtain ⟨size, address, tags, payloads, split, addressHolds, tagsHold, -⟩ :=
    encode_fields _ _ _ encoded
  exact ⟨encoded, size, address, tags, payloads, split, addressHolds, tagsHold⟩

end Codec

end OpenSoundControl
