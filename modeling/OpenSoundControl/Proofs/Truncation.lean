import OpenSoundControl.Proofs.FieldFaults
import OpenSoundControl.Proofs.Packet

/-!
Packets that are cut short. Every reader refuses a field that misses bytes, and puts the fault where
the bytes end; so a packet cut anywhere inside its fields is refused at the cut. The one cut that
leaves a packet is the one behind the address, where a lenient codec reads no arguments.
-/

namespace OpenSoundControl

namespace Wire

theorem StringField.cut {text : String} {field : Bytes} (holds : StringField text field)
    {size : Nat} (short : size < field.length) :
    ∃ cause, Tag.string.Cut (field.take size) cause := by
  have length : (field.take size).length = size := List.length_take_of_le (by omega)
  have whole := holds.length_eq
  obtain ⟨clean, padding, rfl, -, -⟩ := holds
  rw [← Utf8.nul_mem_encode_iff] at clean
  by_cases inside : size ≤ (Utf8.encode text).length
  · -- The cut comes before the terminator.
    rw [List.take_append_of_le_length inside]
    exact ⟨_, .unterminated fun member => clean (List.mem_of_mem_take member)⟩
  · have front : (Utf8.encode text ++ 0 :: padding).take size =
        Utf8.encode text ++ 0 :: padding.take (size - (Utf8.encode text).length - 1) := by
      rw [List.take_append, List.take_of_length_le (by omega), List.take_cons (by omega)]
    rw [front] at length ⊢
    rw [whole, ← length] at short
    exact ⟨_, .padding clean short⟩

theorem readString_cut {text : String} {field : Bytes} (holds : StringField text field) {size : Nat}
    (short : size < field.length) : FailsAt (readString (field.take size)) size := by
  obtain ⟨cause, cut⟩ := holds.cut short
  have failed := map_eq_error_iff.mp cut.read
  rw [List.length_take_of_le (Nat.le_of_lt short)] at failed
  exact ⟨cause, failed⟩

theorem BlobField.cut {data field : Bytes} (holds : BlobField data field) {size : Nat}
    (short : size < field.length) : ∃ cause, Tag.blob.Cut (field.take size) cause := by
  have length : (field.take size).length = size := List.length_take_of_le (by omega)
  have whole := holds.length_eq
  obtain ⟨small, padding, rfl, -, -⟩ := holds
  by_cases inside : size < 4
  · exact ⟨_, .blobLength (length.trans_lt inside)⟩
  · have front : (bigEndian (UInt32.ofNat data.length) ++ data ++ padding).take size =
        bigEndian (UInt32.ofNat data.length) ++ (data ++ padding).take (size - 4) := by
      rw [List.append_assoc, List.take_append, length_bigEndian,
        List.take_of_length_le (by rw [length_bigEndian]; omega)]
    rw [front, List.length_append, length_bigEndian] at length
    rw [blobSize] at whole
    rw [front]
    exact ⟨_, .blobData small (by omega)⟩

end Wire

theorem Argument.PayloadField.cut {argument : Argument} {field : Bytes}
    (holds : argument.PayloadField field) {size : Nat} (short : size < field.length) :
    ∃ cause, argument.tag.Cut (field.take size) cause := by
  have length : (field.take size).length = size := List.length_take_of_le (by omega)
  cases holds with
  | int32 value => exact ⟨_, .int32 (length.trans_lt short)⟩
  | float32 value => exact ⟨_, .float32 (length.trans_lt short)⟩
  | bool value => simp at short
  | string inside => exact inside.cut short
  | blob inside => exact inside.cut short

namespace Codec

theorem Cursor.step_cut {argument : Argument} {field : Bytes} (holds : argument.PayloadField field)
    {size : Nat} (short : size < field.length) (cursor : Cursor)
    (cut : cursor.rest = field.take size) :
    FailsAt (cursor.step argument.tag.byte) (cursor.position + size) := by
  obtain ⟨cause, isCut⟩ := holds.cut short
  refine ⟨cause, ?_⟩
  simp only [Cursor.step, Tag.ofByte?_byte, cut, isCut.read, Error.shift_parse]
  rw [List.length_take_of_le (Nat.le_of_lt short)]

theorem foldlM_step_cut {arguments : List Argument} {payloads : List Bytes}
    (fields : List.Forall₂ Argument.PayloadField arguments payloads) {size : Nat}
    (short : size < payloads.flatten.length) (cursor : Cursor)
    (cut : cursor.rest = payloads.flatten.take size) :
    FailsAt ((arguments.map (·.tag.byte)).foldlM Cursor.step cursor) (cursor.position + size) := by
  induction fields generalizing size cursor with
  | nil => simp at short
  | @cons argument field arguments payloads holds _ ih =>
      rw [List.flatten_cons] at short cut
      rw [List.length_append] at short
      rw [List.map_cons, List.foldlM_cons]
      by_cases inside : size < field.length
      · rw [List.take_append_of_le_length (Nat.le_of_lt inside)] at cut
        exact (Cursor.step_cut holds inside cursor cut).bind _
      · rw [List.take_append, List.take_of_length_le (by omega)] at cut
        have stepped := (cursor.step_eq_ok_iff _ argument.tag.byte).mpr
          ⟨argument, field, _, rfl, cut, holds, rfl⟩
        have shorter : size - field.length < payloads.flatten.length := by omega
        have later := ih shorter ⟨cursor.tagPosition + 1,
          cursor.position + field.length, payloads.flatten.take (size - field.length),
          argument :: cursor.found⟩ rfl
        have position : cursor.position + field.length + (size - field.length) =
            cursor.position + size := by omega
        rw [position] at later
        rw [stepped]
        exact later

theorem decodeArguments_cut {codec : Codec} {arguments : List Argument} {tags : Bytes}
    {payloads : List Bytes} (tagged : codec.TagField arguments tags)
    (fields : List.Forall₂ Argument.PayloadField arguments payloads) {size : Nat}
    (short : size < (tags ++ payloads.flatten).length) (position : Nat) :
    FailsAt (codec.decodeArguments position ((tags ++ payloads.flatten).take size))
      (position + size) := by
  by_cases inside : size < tags.length
  · obtain ⟨text, holds, -⟩ := tagged
    rw [List.take_append_of_le_length (Nat.le_of_lt inside)]
    exact ((Wire.readString_cut holds inside).shift position).bind _
  · rw [List.length_append] at short
    have position_eq : position + tags.length + (size - tags.length) = position + size := by omega
    obtain ⟨first, behind⟩ :=
      decodeArguments_tagField tagged position (payloads.flatten.take (size - tags.length))
    have shorter : size - tags.length < payloads.flatten.length := by omega
    have failed := foldlM_step_cut fields shorter
      ⟨first, position + tags.length, payloads.flatten.take (size - tags.length), []⟩ rfl
    rw [position_eq] at failed
    rw [List.take_append, List.take_of_length_le (by omega), behind]
    exact failed.bind _

theorem decode_cut_address {codec : Codec} {address : String} {field : Bytes}
    (holds : Wire.StringField address field) {size : Nat} (short : size < field.length)
    (fits : size ≤ codec.limit) (sender : Option String) :
    FailsAt (codec.decode (field.take size) sender) size := by
  have length : (field.take size).length = size := List.length_take_of_le (by omega)
  unfold decode
  rw [length, if_neg (Nat.not_lt.mpr fits)]
  exact ((Wire.readString_cut holds short).bind _).bind _

theorem decode_cut_behind_address {codec : Codec} {address : String} {field tags : Bytes}
    {arguments : List Argument} {payloads : List Bytes} (holds : Wire.StringField address field)
    (nonempty : address ≠ "") (noBundle : address ≠ bundleAddress)
    (tagged : codec.TagField arguments tags)
    (fields : List.Forall₂ Argument.PayloadField arguments payloads) {size : Nat}
    (beyond : field.length < size) (short : size < (field ++ (tags ++ payloads.flatten)).length)
    (fits : size ≤ codec.limit) (sender : Option String) :
    FailsAt (codec.decode ((field ++ (tags ++ payloads.flatten)).take size) sender) size := by
  have front : (field ++ (tags ++ payloads.flatten)).take size =
      field ++ (tags ++ payloads.flatten).take (size - field.length) := by
    rw [List.take_append, List.take_of_length_le (Nat.le_of_lt beyond)]
  have length : (field ++ (tags ++ payloads.flatten).take (size - field.length)).length = size := by
    rw [← front]
    exact List.length_take_of_le (Nat.le_of_lt short)
  have more : (tags ++ payloads.flatten).take (size - field.length) ≠ [] := by
    intro empty
    rw [empty, List.append_nil] at length
    omega
  rw [List.length_append] at short
  have shorter : size - field.length < (tags ++ payloads.flatten).length := by omega
  have failed := decodeArguments_cut tagged fields shorter field.length
  rw [Nat.add_sub_of_le (Nat.le_of_lt beyond)] at failed
  rw [front, decode_tagged holds nonempty noBundle (length.trans_le fits) more]
  exact failed.map _

/-- A packet with tags that is cut before the end of its last payload is refused at the cut, unless
a lenient codec is left with the address alone. -/
theorem decode_cut_short (codec : Codec) (packet : Bytes) (sender : Option String)
    (message : Message) (decoded : codec.decode packet sender = .ok message)
    (tagsPresent : Wire.stringSize message.address < packet.length) :
    ∃ address tags payloads rest, packet = address ++ tags ++ payloads.flatten ++ rest ∧
      Wire.StringField message.address address ∧ codec.TagField message.arguments tags ∧
      List.Forall₂ Argument.PayloadField message.arguments payloads ∧
      ∀ size < (address ++ tags ++ payloads.flatten).length,
        (size = address.length → codec.strict = false →
            codec.decode (packet.take size) sender = .ok (message.withArguments [])) ∧
          ((size = address.length → codec.strict = true) →
            FailsAt (codec.decode (packet.take size) sender) size) := by
  obtain ⟨fits, rfl, nonempty, noBundle, grammar⟩ := (decode_eq_ok_iff ..).mp decoded
  cases grammar with
  | bare _ _ holds =>
      rw [holds.length_eq] at tagsPresent
      exact absurd tagsPresent (Nat.lt_irrefl _)
  | @tagged address tags rest payloads holds tagged fields _ =>
      refine ⟨address, tags, payloads, rest, rfl, holds, tagged, fields, ?_⟩
      intro size short
      have within : size ≤ codec.limit := by
        rw [List.length_append] at fits
        omega
      rw [List.take_append_of_le_length (Nat.le_of_lt short), List.append_assoc]
      rw [List.append_assoc] at short
      rcases Nat.lt_trichotomy size address.length with inside | rfl | beyond
      · rw [List.take_append_of_le_length (Nat.le_of_lt inside)]
        exact ⟨by omega, fun _ => decode_cut_address holds inside within message.sender⟩
      · rw [List.take_left, decode_bare holds nonempty noBundle within]
        constructor
        · intro _ lenient
          rw [lenient]
          rfl
        · intro strict
          rw [strict rfl]
          exact ⟨.missingTags, rfl⟩
      · refine ⟨by omega, fun _ => ?_⟩
        exact decode_cut_behind_address holds nonempty noBundle tagged fields beyond short within _

theorem decode_cut_short_sample :
    let packet : Bytes := [47, 97, 0, 0, 44, 84, 105, 0, 0, 0, 0, 7, 255]
    let message : Message := ⟨"/a", [.bool true, .int32 7], none⟩
    Codec.default.decode packet none = .ok message ∧
      Wire.stringSize message.address < packet.length ∧
      ∃ address tags payloads rest, packet = address ++ tags ++ payloads.flatten ++ rest ∧
        Wire.StringField message.address address ∧
        Codec.default.TagField message.arguments tags ∧
        List.Forall₂ Argument.PayloadField message.arguments payloads ∧
        ∀ size < (address ++ tags ++ payloads.flatten).length,
          (size = address.length → Codec.default.strict = false →
              Codec.default.decode (packet.take size) none = .ok (message.withArguments [])) ∧
            ((size = address.length → Codec.default.strict = true) →
              FailsAt (Codec.default.decode (packet.take size) none) size) := by
  have decoded : Codec.default.decode [47, 97, 0, 0, 44, 84, 105, 0, 0, 0, 0, 7, 255] none =
      .ok ⟨"/a", [.bool true, .int32 7], none⟩ := by decide
  exact ⟨decoded, by decide, decode_cut_short _ _ none _ decoded (by decide)⟩

end Codec

end OpenSoundControl
