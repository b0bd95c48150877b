import OpenSoundControl.Proofs.Padding
import OpenSoundControl.Proofs.RoundTrip

/-!
The canonical packet of a message: its fields with zeros for padding. A strict codec takes exactly
the packets that differ from it in their padding alone, and every encoder with a comma writes it.
-/

namespace OpenSoundControl

/-- The fields of a packet that holds the message, the tags with their comma. -/
structure Message.Layout (message : Message) where
  address : Wire.PaddedField
  tags : Wire.PaddedField
  payloads : List Wire.PaddedField
  addressHolds : address.HoldsText message.address
  tagsHold : tags.HoldsText ("," ++ message.typeTags)
  payloadsHold : List.Forall₂ Argument.HeldBy message.arguments payloads

namespace Message.Layout

variable {message : Message}

def fields (layout : message.Layout) : List Wire.PaddedField :=
  layout.address :: layout.tags :: layout.payloads

def packet (layout : message.Layout) : Bytes :=
  (layout.fields.map Wire.PaddedField.bytes).flatten

def canonical (layout : message.Layout) : Bytes :=
  (layout.fields.map Wire.PaddedField.cleared).flatten

theorem packet_eq (layout : message.Layout) : layout.packet =
    layout.address.bytes ++ layout.tags.bytes ++
      (layout.payloads.map Wire.PaddedField.bytes).flatten := by
  simp [packet, fields]

theorem canonical_eq (layout : message.Layout) : layout.canonical =
    layout.address.cleared ++ layout.tags.cleared ++
      (layout.payloads.map Wire.PaddedField.cleared).flatten := by
  simp [canonical, fields]

end Message.Layout

theorem Argument.length_payloads {arguments : List Argument} {payloads : List Bytes}
    (all : List.Forall₂ PayloadField arguments payloads) :
    payloads.flatten.length = totalSize arguments := by
  induction all with
  | nil => rfl
  | cons first _ ih =>
      rw [List.flatten_cons, List.length_append, ih, first.length_eq]
      rfl

namespace Codec

theorem length_encode_tagText (codec : Codec) (message : Message) :
    (Utf8.encode (codec.tagText message)).length = codec.tagLength message := by
  rw [encode_tagText, List.length_append, List.length_map, tagLength, Message.size, Nat.add_comm]
  split <;> rfl

theorem tagText_comma {encoder : Codec} (comma : encoder.comma = true) (message : Message) :
    encoder.tagText message = "," ++ message.typeTags := by
  rw [tagText, if_pos comma]

theorem packet_iff_layout {codec : Codec} (strict : codec.strict = true) (message : Message)
    (packet : Bytes) :
    codec.Packet message packet ↔ ∃ layout : message.Layout, layout.packet = packet := by
  constructor
  · intro grammar
    cases grammar with
    | bare lenient => simp [strict] at lenient
    | tagged addressHolds tagged fields complete =>
        obtain ⟨text, tagsHold, content⟩ := tagged
        have withComma : text = "," ++ message.typeTags := by
          apply Utf8.encode_injective
          rw [Utf8.encode_append, Message.encode_typeTags]
          exact content.resolve_right fun lenient => by simp [strict] at lenient
        subst text
        obtain ⟨address, addressHeld, rfl⟩ := (Wire.stringField_iff_padded _ _).mp addressHolds
        obtain ⟨tags, tagsHeld, rfl⟩ := (Wire.stringField_iff_padded _ _).mp tagsHold
        obtain ⟨payloads, held, rfl⟩ := (Argument.payloadFields_iff_padded _ _).mp fields
        refine ⟨⟨address, tags, payloads, addressHeld, tagsHeld, held⟩, ?_⟩
        rw [Message.Layout.packet_eq, complete strict, List.append_nil]
  · rintro ⟨layout, rfl⟩
    have addressHolds := (Wire.stringField_iff_padded _ _).mpr ⟨_, layout.addressHolds, rfl⟩
    have tagsHold := (Wire.stringField_iff_padded _ _).mpr ⟨_, layout.tagsHold, rfl⟩
    have fields := (Argument.payloadFields_iff_padded _ _).mpr ⟨_, layout.payloadsHold, rfl⟩
    have tagged : codec.TagField message.arguments layout.tags.bytes := by
      refine ⟨_, tagsHold, .inl ?_⟩
      rw [Utf8.encode_append, Message.encode_typeTags]
      rfl
    have grammar := Packet.tagged addressHolds tagged fields fun _ => rfl
    rwa [List.append_nil, ← Message.Layout.packet_eq] at grammar

theorem encodeFields_layout {encoder : Codec} (comma : encoder.comma = true) {message : Message}
    (layout : message.Layout) : encoder.encodeFields message = .ok layout.canonical := by
  have addressWritten := layout.addressHolds.written
  have tagsWritten := layout.tagsHold.written
  rw [← tagText_comma comma] at tagsWritten
  have payloadsWritten := Argument.mapM_payload_written layout.payloadsHold
  rw [Message.Layout.canonical_eq]
  exact bind_eq_ok_iff.mpr ⟨_, addressWritten, bind_eq_ok_iff.mpr ⟨_, tagsWritten,
    bind_eq_ok_iff.mpr ⟨_, payloadsWritten, rfl⟩⟩⟩

theorem encodedSize_layout {encoder : Codec} (comma : encoder.comma = true) {message : Message}
    (layout : message.Layout) : encoder.encodedSize message = layout.packet.length := by
  have addressHolds := (Wire.stringField_iff_padded _ _).mpr ⟨_, layout.addressHolds, rfl⟩
  have tagsHold := (Wire.stringField_iff_padded _ _).mpr ⟨_, layout.tagsHold, rfl⟩
  have fields := (Argument.payloadFields_iff_padded _ _).mpr ⟨_, layout.payloadsHold, rfl⟩
  rw [Message.Layout.packet_eq, List.length_append, List.length_append, addressHolds.length_eq,
    tagsHold.length_eq, Argument.length_payloads fields, Wire.stringSize, Wire.stringSize,
    ← tagText_comma comma, length_encode_tagText]
  rfl

theorem encode_layout {encoder : Codec} (comma : encoder.comma = true) {message : Message}
    (named : message.address ≠ "") (layout : message.Layout)
    (fits : layout.packet.length ≤ encoder.limit) :
    encoder.encode message = .ok layout.canonical := by
  rw [encode, if_neg named, encodedSize_layout comma layout, if_neg (Nat.not_lt.mpr fits),
    encodeFields_layout comma layout]

/-- What a strict codec has read is written as the packet it came from, but for the padding. A
limit that the packet itself keeps to is no limit here. -/
theorem encode_strictly_decoded (decoder encoder : Codec) (packet : Bytes)
    (sender : Option String) (message : Message) (strict : decoder.strict = true)
    (decoded : decoder.decode packet sender = .ok message) (comma : encoder.comma = true)
    (fits : packet.length ≤ encoder.limit) :
    ∃ layout : message.Layout, layout.packet = packet ∧
      encoder.encode message = .ok layout.canonical ∧
      layout.canonical.length = packet.length ∧
      (encoder.encode message = .ok packet ↔
        ∀ field ∈ layout.fields, ∀ byte ∈ field.padding, byte = 0) := by
  obtain ⟨-, -, named, -, grammar⟩ := (decode_eq_ok_iff ..).mp decoded
  obtain ⟨layout, rfl⟩ := (packet_iff_layout strict message packet).mp grammar
  have encoded := encode_layout comma named layout fits
  refine ⟨layout, rfl, encoded, Wire.PaddedField.length_flatten_cleared _, ?_⟩
  rw [encoded, Except.ok.injEq]
  exact Wire.PaddedField.flatten_cleared_eq_iff layout.fields

theorem encode_strictly_decoded_sample :
    let packet : Bytes := [47, 97, 0, 7, 44, 115, 98, 0, 120, 0, 9, 9, 0, 0, 0, 1, 5, 8, 8, 8]
    let message : Message := ⟨"/a", [.string "x", .blob [5]], none⟩
    Codec.decode ⟨false, true, 20⟩ packet none = .ok message ∧
      packet.length ≤ Codec.default.limit ∧
      ∃ layout : message.Layout, layout.packet = packet ∧
        Codec.default.encode message = .ok layout.canonical ∧
        layout.canonical.length = packet.length ∧
        (Codec.default.encode message = .ok packet ↔
          ∀ field ∈ layout.fields, ∀ byte ∈ field.padding, byte = 0) := by
  have decoded : Codec.decode ⟨false, true, 20⟩
      [47, 97, 0, 7, 44, 115, 98, 0, 120, 0, 9, 9, 0, 0, 0, 1, 5, 8, 8, 8] none =
      .ok ⟨"/a", [.string "x", .blob [5]], none⟩ := by decide
  exact ⟨decoded, by decide,
    encode_strictly_decoded _ Codec.default _ none _ rfl decoded rfl (by decide)⟩

end Codec

end OpenSoundControl
