import OpenSoundControl.Proofs.Fields
import OpenSoundControl.Proofs.MalformedText

/-!
Bytes that no payload starts. Either they end before the payload does, or something in it is
refused, which no further bytes can mend. Every reader tells the two apart: the fault is the end of
the bytes in the first case, and the place of what is refused in the second.
-/

namespace OpenSoundControl

/-- The bytes end inside the payload of the tag. -/
inductive Tag.Cut : Tag → Bytes → ParseCause → Prop
  | int32 {bytes : Bytes} : bytes.length < 4 →
      Cut .int32 bytes (.truncatedWord .int32 bytes.length)
  | float32 {bytes : Bytes} : bytes.length < 4 →
      Cut .float32 bytes (.truncatedWord .float32 bytes.length)
  | unterminated {bytes : Bytes} : 0 ∉ bytes → Cut .string bytes .unterminatedString
  | padding {content rest : Bytes} : 0 ∉ content →
      (content ++ 0 :: rest).length < Wire.paddedLength (content.length + 1) →
      Cut .string (content ++ 0 :: rest)
        (.truncatedPadding (Wire.paddedLength (content.length + 1)) (content ++ 0 :: rest).length)
  | blobLength {bytes : Bytes} : bytes.length < 4 →
      Cut .blob bytes (.truncatedWord .blobLength bytes.length)
  | blobData {length : Nat} {rest : Bytes} : length ≤ greatestBlob →
      rest.length < Wire.paddedLength length →
      Cut .blob (bigEndian (UInt32.ofNat length) ++ rest)
        (.truncatedBlob length (Wire.paddedLength length) rest.length)

/-- The payload of the tag holds what is not allowed, so many bytes behind its start. -/
inductive Tag.Refused : Tag → Bytes → Nat → ParseCause → Prop
  | malformed {content rest : Bytes} {fault : Utf8.Fault} : 0 ∉ content →
      Wire.paddedLength (content.length + 1) ≤ (content ++ 0 :: rest).length →
      Utf8.Malformed content fault →
      Refused .string (content ++ 0 :: rest) fault.offset (.malformedText fault)
  | negativeLength {word : UInt32} {rest : Bytes} : word.toInt32 < 0 →
      Refused .blob (bigEndian word ++ rest) 0 (.negativeBlobLength word.toInt32)

namespace Wire

theorem readString_of_clean {content : Bytes} (clean : 0 ∉ content) (rest : Bytes) :
    readString (content ++ 0 :: rest) =
      if (content ++ 0 :: rest).length < paddedLength (content.length + 1) then
        .error (.parse (content ++ 0 :: rest).length
          (.truncatedPadding (paddedLength (content.length + 1)) (content ++ 0 :: rest).length))
      else
        match Utf8.decode content with
        | .ok text => .ok (text, paddedLength (content.length + 1))
        | .error fault => .error (.parse fault.offset (.malformedText fault)) := by
  cases decoded : Utf8.decode content <;>
    simp only [readString, findIdx?_append_cons rest clean, List.take_left, decoded]

theorem readString_unterminated {bytes : Bytes} (clean : 0 ∉ bytes) :
    readString bytes = .error (.parse bytes.length .unterminatedString) := by
  have absent : bytes.findIdx? (· = 0) = none := by
    rw [List.findIdx?_eq_none_iff]
    intro byte member
    simp only [decide_eq_false_iff_not]
    rintro rfl
    exact clean member
  simp only [readString, absent]

theorem readWord_short (field : WordField) {bytes : Bytes} (short : bytes.length < 4) :
    readWord field bytes = .error (.parse bytes.length (.truncatedWord field bytes.length)) := by
  unfold readWord
  split
  · simp only [List.length_cons] at short
    omega
  · rfl

theorem exists_word {bytes : Bytes} (enough : 4 ≤ bytes.length) :
    ∃ word rest, bytes = bigEndian word ++ rest := by
  match bytes, enough with
  | first :: second :: third :: fourth :: rest, _ =>
      exact ⟨ofBigEndian first second third fourth, rest, by rw [bigEndian_ofBigEndian]; rfl⟩

theorem readBlobField_negative {word : UInt32} (negative : word.toInt32 < 0) (rest : Bytes) :
    readBlobField (bigEndian word ++ rest) =
      .error (.parse 0 (.negativeBlobLength word.toInt32)) := by
  have isWord := (readWord_eq_ok_iff .blobLength (bigEndian word ++ rest) word).mpr ⟨rest, rfl⟩
  simp only [readBlobField, isWord, if_pos negative]

end Wire

namespace Tag

theorem Cut.read {tag : Tag} {bytes : Bytes} {cause : ParseCause} (cut : tag.Cut bytes cause) :
    tag.read bytes = .error (.parse bytes.length cause) := by
  cases cut with
  | int32 short =>
      rw [Tag.read, Wire.readInt32, Wire.readWord_short .int32 short]
      rfl
  | float32 short =>
      rw [Tag.read, Wire.readSingle, Wire.readWord_short .float32 short]
      rfl
  | unterminated clean =>
      rw [Tag.read, Wire.readString_unterminated clean]
      rfl
  | padding clean short =>
      rw [Tag.read, Wire.readString_of_clean clean, if_pos short]
      rfl
  | blobLength short =>
      rw [Tag.read, Wire.readBlobField, Wire.readWord_short .blobLength short]
      rfl
  | @blobData length rest small short =>
      have failed : Wire.readBlob length rest = .error (.parse rest.length
          (.truncatedBlob length (Wire.paddedLength length) rest.length)) := if_pos short
      rw [Tag.read, Wire.readBlobField_length small, failed, List.length_append, length_bigEndian]
      rfl

theorem Refused.read {tag : Tag} {bytes : Bytes} {offset : Nat} {cause : ParseCause}
    (refused : tag.Refused bytes offset cause) :
    tag.read bytes = .error (.parse offset cause) := by
  cases refused with
  | malformed clean whole malformed =>
      rw [Tag.read, Wire.readString_of_clean clean, if_neg (Nat.not_lt.mpr whole),
        (Utf8.decode_eq_error_iff _ _).mpr malformed]
      rfl
  | negativeLength negative =>
      rw [Tag.read, Wire.readBlobField_negative negative]
      rfl

theorem Refused.offset_le {tag : Tag} {bytes : Bytes} {offset : Nat} {cause : ParseCause}
    (refused : tag.Refused bytes offset cause) : offset ≤ bytes.length := by
  cases refused with
  | malformed _ _ malformed =>
      have inside := malformed.inside
      rw [List.length_append]
      omega
  | negativeLength _ => exact Nat.zero_le _

theorem Refused.append {tag : Tag} {bytes : Bytes} {offset : Nat} {cause : ParseCause}
    (refused : tag.Refused bytes offset cause) (suffix : Bytes) :
    tag.Refused (bytes ++ suffix) offset cause := by
  cases refused with
  | @malformed content rest fault clean whole malformed =>
      have longer : Wire.paddedLength (content.length + 1) ≤
          (content ++ 0 :: (rest ++ suffix)).length := by
        simp only [List.length_append, List.length_cons] at whole ⊢
        omega
      rw [List.append_assoc]
      exact .malformed clean longer malformed
  | negativeLength negative =>
      rw [List.append_assoc]
      exact .negativeLength negative

theorem read_cases (tag : Tag) (bytes : Bytes) :
    (∃ argument consumed, tag.read bytes = .ok (argument, consumed)) ∨
      (∃ cause, tag.Cut bytes cause) ∨ ∃ offset cause, tag.Refused bytes offset cause := by
  cases tag with
  | int32 =>
      by_cases short : bytes.length < 4
      · exact .inr (.inl ⟨_, .int32 short⟩)
      · obtain ⟨word, rest, rfl⟩ := Wire.exists_word (Nat.le_of_not_lt short)
        have read := (Wire.readWord_eq_ok_iff .int32 _ word).mpr ⟨rest, rfl⟩
        exact .inl ⟨_, _, by rw [Tag.read, Wire.readInt32, read]; rfl⟩
  | float32 =>
      by_cases short : bytes.length < 4
      · exact .inr (.inl ⟨_, .float32 short⟩)
      · obtain ⟨word, rest, rfl⟩ := Wire.exists_word (Nat.le_of_not_lt short)
        have read := (Wire.readWord_eq_ok_iff .float32 _ word).mpr ⟨rest, rfl⟩
        exact .inl ⟨_, _, by rw [Tag.read, Wire.readSingle, read]; rfl⟩
  | true => exact .inl ⟨_, _, rfl⟩
  | false => exact .inl ⟨_, _, rfl⟩
  | string =>
      by_cases nul : 0 ∈ bytes
      · obtain ⟨content, rest, rfl, clean⟩ := List.eq_append_cons_of_mem nul
        by_cases short : (content ++ 0 :: rest).length < Wire.paddedLength (content.length + 1)
        · exact .inr (.inl ⟨_, .padding clean short⟩)
        · cases decoded : Utf8.decode content with
          | ok text =>
              refine .inl ⟨.string text, Wire.paddedLength (content.length + 1), ?_⟩
              rw [Tag.read, Wire.readString_of_clean clean, if_neg short, decoded]
              rfl
          | error fault =>
              have malformed := (Utf8.decode_eq_error_iff content fault).mp decoded
              exact .inr (.inr ⟨_, _, .malformed clean (Nat.le_of_not_lt short) malformed⟩)
      · exact .inr (.inl ⟨_, .unterminated nul⟩)
  | blob =>
      by_cases short : bytes.length < 4
      · exact .inr (.inl ⟨_, .blobLength short⟩)
      · obtain ⟨word, rest, rfl⟩ := Wire.exists_word (Nat.le_of_not_lt short)
        by_cases negative : word.toInt32 < 0
        · exact .inr (.inr ⟨_, _, .negativeLength negative⟩)
        · rw [toInt32_neg_iff] at negative
          have small : word.toNat ≤ greatestBlob := by
            unfold greatestBlob
            omega
          rw [← UInt32.ofNat_toNat (x := word)]
          by_cases short : rest.length < Wire.paddedLength word.toNat
          · exact .inr (.inl ⟨_, .blobData small short⟩)
          · have read : Wire.readBlob word.toNat rest =
                .ok (rest.take word.toNat, Wire.paddedLength word.toNat) := if_neg short
            refine .inl ⟨.blob (rest.take word.toNat), 4 + Wire.paddedLength word.toNat, ?_⟩
            rw [Tag.read, Wire.readBlobField_length small, read]
            rfl

theorem text_cases (bytes : Bytes) :
    (∃ text field rest, bytes = field ++ rest ∧ Wire.StringField text field) ∨
      (∃ cause, Tag.string.Cut bytes cause) ∨
      ∃ offset cause, Tag.string.Refused bytes offset cause := by
  refine (Tag.string.read_cases bytes).imp_left ?_
  rintro ⟨argument, consumed, read⟩
  obtain ⟨⟨text, size⟩, isText, -⟩ := map_eq_ok_iff.mp read
  obtain ⟨field, rest, split, holds, -⟩ := (Wire.readString_eq_ok_iff _ _ _).mp isText
  exact ⟨text, field, rest, split, holds⟩

end Tag

end OpenSoundControl
