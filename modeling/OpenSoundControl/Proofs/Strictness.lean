import OpenSoundControl.Proofs.Packet

/-!
What a strict codec refuses among the packets that a lenient one reads: a packet that ends behind
the address, tags without their comma, and bytes behind the last payload. Each is refused at a place
of its own, and nothing else is refused.
-/

namespace OpenSoundControl

theorem Wire.StringField.append_ne_nil {text : String} {field : Bytes}
    (holds : Wire.StringField text field) (rest : Bytes) : field ++ rest ≠ [] := by
  obtain ⟨-, padding, rfl, -⟩ := holds
  simp

namespace Codec

def strictly (codec : Codec) : Codec :=
  { codec with strict := true }

def leniently (codec : Codec) : Codec :=
  { codec with strict := false }

/-- A liberty that the packet of a message takes, with the place and the cause of its refusal. A
packet without the comma is refused before its end is looked at. -/
inductive Liberty (message : Message) : Bytes → Nat → ParseCause → Prop
  | noTags {address} : Wire.StringField message.address address →
      Liberty message address address.length .missingTags
  | noComma {address tags rest : Bytes} {text : String} :
      Wire.StringField message.address address → Wire.StringField text tags →
      (Utf8.encode text).head? ≠ some commaByte →
      Liberty message (address ++ tags ++ rest) address.length .missingComma
  | trailing {address tags rest : Bytes} {payloads : List Bytes} :
      Wire.StringField message.address address →
      Wire.StringField ("," ++ message.typeTags) tags →
      List.Forall₂ Argument.PayloadField message.arguments payloads → rest ≠ [] →
      Liberty message (address ++ tags ++ payloads.flatten ++ rest)
        (address ++ tags ++ payloads.flatten).length (.trailingBytes rest.length)

theorem encode_comma_typeTags (message : Message) :
    Utf8.encode ("," ++ message.typeTags) = commaByte :: message.arguments.map (·.tag.byte) := by
  rw [Utf8.encode_append, Message.encode_typeTags]
  rfl

theorem tagField_comma {codec : Codec} {message : Message} {tags : Bytes}
    (holds : Wire.StringField ("," ++ message.typeTags) tags) :
    codec.TagField message.arguments tags :=
  ⟨_, holds, .inl (encode_comma_typeTags message)⟩

theorem TagField.comma_or_none {codec : Codec} {message : Message} {tags : Bytes}
    (tagged : codec.TagField message.arguments tags) :
    Wire.StringField ("," ++ message.typeTags) tags ∨
      ∃ text, Wire.StringField text tags ∧ (Utf8.encode text).head? ≠ some commaByte := by
  obtain ⟨text, holds, content⟩ := tagged
  rcases content with content | ⟨-, content⟩
  · rw [← encode_comma_typeTags] at content
    left
    rwa [← Utf8.encode_injective content]
  · right
    refine ⟨text, holds, ?_⟩
    rw [content]
    exact head_tags_ne_comma message.arguments

theorem decodeArguments_noComma {codec : Codec} (strict : codec.strict = true) {text : String}
    {tags : Bytes} (holds : Wire.StringField text tags)
    (noComma : (Utf8.encode text).head? ≠ some commaByte) (position : Nat) (rest : Bytes) :
    codec.decodeArguments position (tags ++ rest) = .error (.parse position .missingComma) := by
  have isText := (Wire.readString_eq_ok_iff (tags ++ rest) text _).mpr ⟨tags, rest, rfl, holds, rfl⟩
  have refused : codec.splitTags position (Utf8.encode text) =
      .error (.parse position .missingComma) := by
    simp [splitTags, noComma, strict]
  simp only [decodeArguments, isText, refused, Except.mapError, bind, Except.bind]

theorem decodeArguments_trailing {codec : Codec} (strict : codec.strict = true)
    {arguments : List Argument} {tags rest : Bytes} {payloads : List Bytes}
    (tagged : codec.TagField arguments tags)
    (fields : List.Forall₂ Argument.PayloadField arguments payloads) (more : rest ≠ [])
    (position : Nat) :
    codec.decodeArguments position (tags ++ (payloads.flatten ++ rest)) =
      .error (.parse (position + tags.length + payloads.flatten.length)
        (.trailingBytes rest.length)) := by
  obtain ⟨first, behind⟩ := decodeArguments_tagField tagged position (payloads.flatten ++ rest)
  have run := (foldlM_step_eq_ok_iff ⟨first, position + tags.length, payloads.flatten ++ rest, []⟩
    _ (arguments.map (·.tag.byte))).mpr ⟨arguments, payloads, rest, rfl, rfl, fields, rfl⟩
  rw [behind, run]
  simp [Except.bind, strict, more]

theorem Liberty.refused {message : Message} {packet : Bytes} {position : Nat} {cause : ParseCause}
    (liberty : Liberty message packet position cause) {codec : Codec}
    (strict : codec.strict = true) (named : message.address ≠ "")
    (noBundle : message.address ≠ bundleAddress) (fits : packet.length ≤ codec.limit)
    (sender : Option String) :
    codec.decode packet sender = .error (.parse position cause) := by
  cases liberty with
  | noTags holds => rw [decode_bare holds named noBundle fits, if_pos strict]
  | @noComma address tags rest text holds textHolds noComma =>
      rw [List.append_assoc] at fits ⊢
      rw [decode_tagged holds named noBundle fits (textHolds.append_ne_nil rest),
        decodeArguments_noComma strict textHolds noComma]
      rfl
  | @trailing address tags rest payloads holds tagsHold fields more =>
      rw [List.append_assoc, List.append_assoc] at fits ⊢
      rw [decode_tagged holds named noBundle fits (tagsHold.append_ne_nil _),
        decodeArguments_trailing strict (tagField_comma tagsHold) fields more]
      simp [Except.map, Nat.add_assoc]

theorem Packet.strictly_or_liberty {codec : Codec} {message : Message} {packet : Bytes}
    (grammar : codec.Packet message packet) :
    codec.strictly.Packet message packet ∨
      ∃ position cause, Liberty message packet position cause := by
  cases grammar with
  | bare _ _ holds => exact .inr ⟨_, _, .noTags holds⟩
  | @tagged address tags rest payloads holds tagged fields _ =>
      rcases tagged.comma_or_none with tagsHold | ⟨text, textHolds, noComma⟩
      · by_cases complete : rest = []
        · exact .inl (.tagged holds (tagField_comma tagsHold) fields fun _ => complete)
        · exact .inr ⟨_, _, .trailing holds tagsHold fields complete⟩
      · rw [List.append_assoc]
        exact .inr ⟨_, _, .noComma holds textHolds noComma⟩

theorem Packet.leniently {codec : Codec} {message : Message} {packet : Bytes}
    (grammar : codec.Packet message packet) : codec.leniently.Packet message packet := by
  cases grammar with
  | bare _ noArguments holds => exact .bare rfl noArguments holds
  | tagged holds tagged fields _ =>
      obtain ⟨text, textHolds, content⟩ := tagged
      refine .tagged holds ⟨text, textHolds, ?_⟩ fields (by simp [Codec.leniently])
      exact content.imp_right fun without => ⟨rfl, without.2⟩

/-- A strict codec reads what a lenient one reads, except for the packets that take a liberty, and
refuses these where they take it. -/
theorem decode_strictly_iff (codec : Codec) (packet : Bytes) (sender : Option String)
    (message : Message) :
    (codec.strictly.decode packet sender = .ok message ↔
        codec.leniently.decode packet sender = .ok message ∧
          ∀ position cause, ¬Liberty message packet position cause) ∧
      (codec.leniently.decode packet sender = .ok message →
        ∀ position cause, Liberty message packet position cause →
          codec.strictly.decode packet sender = .error (.parse position cause)) := by
  have refuses (decoded : codec.leniently.decode packet sender = .ok message) (position : Nat)
      (cause : ParseCause) (liberty : Liberty message packet position cause) :
      codec.strictly.decode packet sender = .error (.parse position cause) := by
    obtain ⟨fits, -, named, noBundle, -⟩ := (decode_eq_ok_iff ..).mp decoded
    have strict : codec.strictly.strict = true := rfl
    exact liberty.refused strict named noBundle fits sender
  refine ⟨⟨?_, ?_⟩, refuses⟩
  · intro decoded
    obtain ⟨fits, origin, named, noBundle, grammar⟩ := (decode_eq_ok_iff ..).mp decoded
    have lenient : codec.leniently.decode packet sender = .ok message :=
      (decode_eq_ok_iff ..).mpr ⟨fits, origin, named, noBundle, grammar.leniently⟩
    refine ⟨lenient, ?_⟩
    intro position cause liberty
    rw [refuses lenient position cause liberty] at decoded
    contradiction
  · rintro ⟨decoded, noLiberty⟩
    obtain ⟨fits, origin, named, noBundle, grammar⟩ := (decode_eq_ok_iff ..).mp decoded
    rcases grammar.strictly_or_liberty with strict | ⟨position, cause, liberty⟩
    · exact (decode_eq_ok_iff ..).mpr ⟨fits, origin, named, noBundle, strict⟩
    · exact absurd liberty (noLiberty position cause)

theorem decode_strictly_iff_sample :
    Codec.default.leniently.decode [47, 97, 0, 0, 105, 0, 0, 0, 0, 0, 0, 7, 255] none =
        .ok ⟨"/a", [.int32 7], none⟩ ∧
      Codec.default.strictly.decode [47, 97, 0, 0, 105, 0, 0, 0, 0, 0, 0, 7, 255] none =
        .error (.parse 4 .missingComma) := by
  have lenient : Codec.default.leniently.decode
      [47, 97, 0, 0, 105, 0, 0, 0, 0, 0, 0, 7, 255] none = .ok ⟨"/a", [.int32 7], none⟩ := by decide
  have address : Wire.StringField "/a" [47, 97, 0, 0] := ⟨by decide, [0], by decide⟩
  have tags : Wire.StringField "i" [105, 0, 0, 0] := ⟨by decide, [0, 0], by decide⟩
  have liberty : Liberty ⟨"/a", [.int32 7], none⟩
      ([47, 97, 0, 0] ++ [105, 0, 0, 0] ++ [0, 0, 0, 7, 255]) 4 .missingComma :=
    .noComma address tags (by decide)
  exact ⟨lenient, (decode_strictly_iff _ _ _ _).2 lenient _ _ liberty⟩

end Codec

end OpenSoundControl
