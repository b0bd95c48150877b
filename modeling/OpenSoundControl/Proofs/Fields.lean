import OpenSoundControl.Proofs.Outcomes
import OpenSoundControl.Proofs.Utf8
import OpenSoundControl.Argument.Payload

/-!
What the fields of a packet look like, stated without the readers, and that every reader takes
exactly the bytes that start with such a field. The bytes of padding are left open.
-/

namespace OpenSoundControl

theorem ofBigEndian_bigEndian (word : UInt32) :
    ofBigEndian (UInt8.ofNat (word.toNat / 16777216)) (UInt8.ofNat (word.toNat / 65536))
      (UInt8.ofNat (word.toNat / 256)) (UInt8.ofNat word.toNat) = word := by
  have bound : word.toNat < 4294967296 := word.toNat_lt
  apply UInt32.toNat_inj.mp
  simp only [ofBigEndian, UInt32.toNat_ofNat', UInt8.toNat_ofNat']
  omega

theorem bigEndian_ofBigEndian (first second third fourth : UInt8) :
    bigEndian (ofBigEndian first second third fourth) = [first, second, third, fourth] := by
  have firstBound := first.toNat_lt
  have secondBound := second.toNat_lt
  have thirdBound := third.toNat_lt
  have fourthBound := fourth.toNat_lt
  have value : (ofBigEndian first second third fourth).toNat =
      first.toNat * 16777216 + second.toNat * 65536 + third.toNat * 256 + fourth.toNat := by
    simp only [ofBigEndian, UInt32.toNat_ofNat']
    omega
  simp only [bigEndian, value, List.cons.injEq, ← UInt8.toNat_inj, UInt8.toNat_ofNat', and_true]
  omega

theorem toInt32_neg_iff (word : UInt32) : word.toInt32 < 0 ↔ 2147483648 ≤ word.toNat := by
  have value : word.toInt32.toInt = word.toBitVec.toInt := rfl
  have same : word.toBitVec.toNat = word.toNat := rfl
  have bound := word.toNat_lt
  rw [Int32.lt_iff_toInt_lt, value, BitVec.toInt_eq_toNat_cond, same, Int32.toInt_zero]
  split <;> omega

namespace Wire

/-- A field that holds a text: its bytes, a NUL, and anything up to the end of the word. The first
NUL ends the text, which therefore has none. -/
def StringField (text : String) (field : Bytes) : Prop :=
  '\x00' ∉ text.toList ∧ ∃ padding, field = Utf8.encode text ++ 0 :: padding ∧
    padding.length < alignment ∧ field.length % alignment = 0

/-- A field that holds a blob: the length in four bytes, the data, and anything up to the end of
the word. -/
def BlobField (data field : Bytes) : Prop :=
  data.length ≤ greatestBlob ∧ ∃ padding,
    field = bigEndian (UInt32.ofNat data.length) ++ data ++ padding ∧
      padding.length < alignment ∧ field.length % alignment = 0

theorem findIdx?_append_cons {content : Bytes} (rest : Bytes) (clean : 0 ∉ content) :
    (content ++ 0 :: rest).findIdx? (· = 0) = some content.length := by
  rw [List.findIdx?_append, List.findIdx?_eq_none_iff.mpr]
  · simp [List.findIdx?_cons]
  · intro byte member
    simp only [decide_eq_false_iff_not]
    rintro rfl
    exact clean member

theorem exists_of_findIdx? {bytes : Bytes} {position : Nat}
    (found : bytes.findIdx? (· = 0) = some position) :
    ∃ content rest, bytes = content ++ 0 :: rest ∧ 0 ∉ content ∧ content.length = position := by
  obtain ⟨bound, nul, before⟩ := List.findIdx?_eq_some_iff_getElem.mp found
  refine ⟨bytes.take position, bytes.drop (position + 1), ?_, ?_, ?_⟩
  · simp only [decide_eq_true_eq] at nul
    rw [← nul, List.getElem_cons_drop, List.take_append_drop]
  · intro member
    obtain ⟨index, below, same⟩ := List.mem_iff_getElem.mp member
    rw [List.getElem_take] at same
    rw [List.length_take] at below
    have clean := before index (by omega)
    simp [same] at clean
  · rw [List.length_take]
    omega

theorem StringField.length_eq {text : String} {field : Bytes} (holds : StringField text field) :
    field.length = stringSize text := by
  obtain ⟨-, padding, rfl, short, aligned⟩ := holds
  simp only [List.length_append, List.length_cons, alignment] at short aligned ⊢
  rw [stringSize, paddedLength_eq]
  omega

theorem BlobField.length_eq {data field : Bytes} (holds : BlobField data field) :
    field.length = blobSize data.length := by
  obtain ⟨-, padding, rfl, short, aligned⟩ := holds
  simp only [List.length_append, length_bigEndian, alignment] at short aligned ⊢
  rw [blobSize, paddedLength_eq]
  omega

theorem exists_padding {content rest : Bytes}
    (enough : paddedLength content.length ≤ (content ++ rest).length) :
    ∃ padding behind, rest = padding ++ behind ∧ padding.length < alignment ∧
      content.length + padding.length = paddedLength content.length := by
  have least := le_paddedLength content.length
  have close := paddedLength_lt content.length
  rw [List.length_append] at enough
  refine ⟨rest.take (paddedLength content.length - content.length),
    rest.drop (paddedLength content.length - content.length), by simp, ?_, ?_⟩
  · rw [List.length_take, alignment]
    omega
  · rw [List.length_take]
    omega

theorem readString_eq_ok_iff (bytes : Bytes) (text : String) (consumed : Nat) :
    readString bytes = .ok (text, consumed) ↔
      ∃ field rest, bytes = field ++ rest ∧ StringField text field ∧ consumed = field.length := by
  constructor
  · intro read
    unfold readString at read
    split at read
    · contradiction
    · rename_i position found
      obtain ⟨content, rest, rfl, clean, rfl⟩ := exists_of_findIdx? found
      dsimp only at read
      split at read
      · contradiction
      · rename_i enough
        rw [List.take_left] at read
        split at read
        · rename_i value decoded
          obtain ⟨rfl, rfl⟩ := Prod.mk.inj (Except.ok.inj read)
          rw [Utf8.decode_eq_ok_iff] at decoded
          subst content
          rw [Utf8.nul_mem_encode_iff] at clean
          have terminated : (Utf8.encode value ++ [0]).length = (Utf8.encode value).length + 1 := by
            rw [List.length_append, List.length_singleton]
          rw [← terminated, List.append_cons] at enough
          obtain ⟨padding, behind, rfl, short, whole⟩ := exists_padding (Nat.le_of_not_lt enough)
          have size : (Utf8.encode value ++ 0 :: padding).length =
              paddedLength ((Utf8.encode value).length + 1) := by
            rw [List.append_cons, List.length_append, whole, terminated]
          refine ⟨Utf8.encode value ++ 0 :: padding, behind, by simp,
            ⟨clean, padding, rfl, short, ?_⟩, size.symm⟩
          rw [size]
          exact paddedLength_mod _
        · contradiction
  · rintro ⟨field, rest, rfl, holds, rfl⟩
    have size := holds.length_eq
    obtain ⟨clean, padding, rfl, short, aligned⟩ := holds
    rw [← Utf8.nul_mem_encode_iff] at clean
    have enough : ¬(Utf8.encode text ++ 0 :: padding ++ rest).length <
        paddedLength ((Utf8.encode text).length + 1) := by
      rw [← stringSize, ← size, List.length_append]
      omega
    have found : (Utf8.encode text ++ 0 :: padding ++ rest).findIdx? (· = 0) =
        some (Utf8.encode text).length := by
      rw [List.append_assoc]
      exact findIdx?_append_cons (padding ++ rest) clean
    have content : (Utf8.encode text ++ 0 :: padding ++ rest).take (Utf8.encode text).length =
        Utf8.encode text := by
      rw [List.append_assoc, List.take_left]
    unfold readString
    simp only [found, enough, if_false, content, Utf8.decode_encode]
    rw [← stringSize, size]

theorem readWord_eq_ok_iff (field : WordField) (bytes : Bytes) (word : UInt32) :
    readWord field bytes = .ok word ↔ ∃ rest, bytes = bigEndian word ++ rest := by
  constructor
  · intro read
    unfold readWord at read
    split at read
    · rename_i first second third fourth rest
      have same := Except.ok.inj read
      subst word
      exact ⟨rest, by rw [bigEndian_ofBigEndian]; rfl⟩
    · contradiction
  · rintro ⟨rest, rfl⟩
    exact congrArg Except.ok (ofBigEndian_bigEndian word)

theorem readBlob_eq_ok_iff (declared : Nat) (bytes data : Bytes) (consumed : Nat) :
    readBlob declared bytes = .ok (data, consumed) ↔
      data.length = declared ∧ consumed = paddedLength declared ∧
        ∃ padding rest, bytes = data ++ padding ++ rest ∧ padding.length < alignment ∧
          data.length + padding.length = paddedLength declared := by
  unfold readBlob
  dsimp only
  constructor
  · intro read
    split at read
    · contradiction
    · rename_i enough
      obtain ⟨rfl, rfl⟩ := Prod.mk.inj (Except.ok.inj read)
      have least := le_paddedLength declared
      have length : (bytes.take declared).length = declared := by
        rw [List.length_take]
        omega
      have fits : paddedLength (bytes.take declared).length ≤
          (bytes.take declared ++ bytes.drop declared).length := by
        rw [List.take_append_drop, length]
        omega
      obtain ⟨padding, rest, drop, short, whole⟩ := exists_padding fits
      rw [length] at whole
      refine ⟨length, rfl, padding, rest, ?_, short, by omega⟩
      rw [List.append_assoc, ← drop, List.take_append_drop]
  · rintro ⟨rfl, rfl, padding, rest, rfl, short, whole⟩
    rw [if_neg, List.append_assoc, List.take_left]
    rw [List.length_append, List.length_append]
    omega

theorem toNat_blobLength {length : Nat} (small : length ≤ greatestBlob) :
    (UInt32.ofNat length).toNat = length := by
  unfold greatestBlob at small
  rw [UInt32.toNat_ofNat']
  omega

theorem readBlobField_length {length : Nat} (small : length ≤ greatestBlob) (bytes : Bytes) :
    readBlobField (bigEndian (UInt32.ofNat length) ++ bytes) =
      ((readBlob length bytes).mapError (Error.shift 4)).map fun read => (read.1, 4 + read.2) := by
  have isWord := (readWord_eq_ok_iff .blobLength
    (bigEndian (UInt32.ofNat length) ++ bytes) _).mpr ⟨bytes, rfl⟩
  have sign : ¬(UInt32.ofNat length).toInt32 < 0 := by
    rw [toInt32_neg_iff, toNat_blobLength small]
    unfold greatestBlob at small
    omega
  unfold readBlobField
  simp only [isWord, sign, if_false, List.drop_left' (length_bigEndian _), toNat_blobLength small]
  cases readBlob length bytes <;> rfl

theorem readBlobField_eq_ok_iff (bytes data : Bytes) (consumed : Nat) :
    readBlobField bytes = .ok (data, consumed) ↔
      ∃ field rest, bytes = field ++ rest ∧ BlobField data field ∧ consumed = field.length := by
  constructor
  · intro read
    unfold readBlobField at read
    split at read
    · contradiction
    · rename_i word isWord
      obtain ⟨rest, rfl⟩ := (readWord_eq_ok_iff _ _ _).mp isWord
      split at read
      · contradiction
      · rename_i sign
        rw [toInt32_neg_iff] at sign
        rw [List.drop_left' (length_bigEndian word)] at read
        split at read
        · rename_i value size isBlob
          obtain ⟨rfl, rfl⟩ := Prod.mk.inj (Except.ok.inj read)
          obtain ⟨length, rfl, padding, behind, rfl, short, whole⟩ :=
            (readBlob_eq_ok_iff ..).mp isBlob
          have size : (bigEndian word ++ value ++ padding).length =
              4 + paddedLength word.toNat := by
            rw [List.length_append, List.length_append, length_bigEndian]
            omega
          refine ⟨bigEndian word ++ value ++ padding, behind, by simp only [List.append_assoc],
            ⟨?_, padding, ?_, short, ?_⟩, size.symm⟩
          · rw [length, greatestBlob]
            omega
          · rw [length, UInt32.ofNat_toNat]
          · rw [size, alignment]
            have multiple := paddedLength_mod word.toNat
            omega
        · contradiction
  · rintro ⟨field, rest, rfl, holds, rfl⟩
    have size := holds.length_eq
    obtain ⟨small, padding, rfl, short, aligned⟩ := holds
    have whole : data.length + padding.length = paddedLength data.length := by
      rw [blobSize, List.length_append, List.length_append, length_bigEndian] at size
      omega
    have isBlob := (readBlob_eq_ok_iff data.length (data ++ padding ++ rest) data _).mpr
      ⟨rfl, rfl, padding, rest, rfl, short, whole⟩
    rw [List.append_assoc, List.append_assoc, ← List.append_assoc data,
      readBlobField_length small, isBlob, size]
    rfl

theorem stringField_eq_ok_iff (text : String) (field : Bytes) :
    stringField text = .ok field ↔ '\x00' ∉ text.toList ∧
      field = Utf8.encode text ++ zeros (stringSize text - (Utf8.encode text).length) := by
  rw [← Utf8.nul_mem_encode_iff]
  unfold stringField
  dsimp only
  split
  · rename_i position found
    obtain ⟨content, rest, split, -, -⟩ := exists_of_findIdx? found
    simp [split]
  · rename_i absent
    have clean : 0 ∉ Utf8.encode text := by
      intro member
      simpa using List.findIdx?_eq_none_iff.mp absent 0 member
    simp [clean, eq_comm]

theorem StringField.of_stringField {text : String} {field : Bytes}
    (written : stringField text = .ok field) : StringField text field := by
  obtain ⟨clean, rfl⟩ := (stringField_eq_ok_iff text field).mp written
  generalize size : (Utf8.encode text).length = length
  have least := le_paddedLength (length + 1)
  have close := paddedLength_lt (length + 1)
  have aligned := paddedLength_mod (length + 1)
  have positive : paddedLength (length + 1) - length =
      paddedLength (length + 1) - length - 1 + 1 := by omega
  have padded : zeros (paddedLength (length + 1) - length) =
      0 :: zeros (paddedLength (length + 1) - length - 1) := by
    rw [positive]
    rfl
  rw [stringSize, size, padded]
  refine ⟨clean, _, rfl, ?_, ?_⟩
  · rw [length_zeros, alignment]
    omega
  · rw [List.length_append, List.length_cons, length_zeros, size, alignment]
    omega

theorem StringField.unique {left right : String} {field other rest behind : Bytes}
    (holds : StringField left field) (otherHolds : StringField right other)
    (same : field ++ rest = other ++ behind) : left = right ∧ field = other ∧ rest = behind := by
  have leftRead := (readString_eq_ok_iff _ _ _).mpr ⟨field, rest, rfl, holds, rfl⟩
  have rightRead := (readString_eq_ok_iff _ _ _).mpr ⟨other, behind, rfl, otherHolds, rfl⟩
  rw [same, rightRead] at leftRead
  obtain ⟨text, size⟩ := Prod.mk.inj (Except.ok.inj leftRead)
  exact ⟨text.symm, List.append_inj same size.symm⟩

theorem BlobField.of_blobField {data field : Bytes} (written : blobField data = .ok field) :
    BlobField data field := by
  unfold blobField at written
  split at written
  · contradiction
  · rename_i small
    obtain rfl := Except.ok.inj written
    have least := le_paddedLength data.length
    have close := paddedLength_lt data.length
    have aligned := paddedLength_mod data.length
    refine ⟨Nat.le_of_not_lt small, zeros (paddedLength data.length - data.length), ?_, ?_, ?_⟩
    · rw [pad, List.append_assoc]
    · rw [length_zeros, alignment]
      omega
    · rw [List.length_append, length_bigEndian, length_pad, alignment]
      omega

end Wire

inductive Argument.PayloadField : Argument → Bytes → Prop
  | int32 (value : Int32) : PayloadField (.int32 value) (bigEndian value.toUInt32)
  | float32 (value : Single) : PayloadField (.float32 value) (bigEndian value.bits)
  | bool (value : Bool) : PayloadField (.bool value) []
  | string {text field} : Wire.StringField text field → PayloadField (.string text) field
  | blob {data field} : Wire.BlobField data field → PayloadField (.blob data) field

theorem Argument.PayloadField.length_eq {argument : Argument} {field : Bytes}
    (holds : argument.PayloadField field) : field.length = argument.encodedSize := by
  cases holds with
  | int32 value => rfl
  | float32 value => rfl
  | bool value => rfl
  | string inside => exact inside.length_eq
  | blob inside => exact inside.length_eq

theorem Argument.PayloadField.aligned {argument : Argument} {field : Bytes}
    (holds : argument.PayloadField field) : field.length % Wire.alignment = 0 := by
  cases holds with
  | int32 value => rw [length_bigEndian, Wire.alignment]
  | float32 value => rw [length_bigEndian, Wire.alignment]
  | bool value => rfl
  | string inside =>
      obtain ⟨-, padding, -, -, whole⟩ := inside
      exact whole
  | blob inside =>
      obtain ⟨-, padding, -, -, whole⟩ := inside
      exact whole

theorem Argument.PayloadField.of_payload {argument : Argument} {field : Bytes}
    (written : argument.payload = .ok field) : argument.PayloadField field := by
  cases argument with
  | int32 value =>
      obtain rfl := Except.ok.inj written
      exact .int32 value
  | float32 value =>
      obtain rfl := Except.ok.inj written
      exact .float32 value
  | bool value =>
      obtain rfl := Except.ok.inj written
      exact .bool value
  | string value => exact .string (.of_stringField written)
  | blob value => exact .blob (.of_blobField written)

theorem Tag.read_eq_ok_iff (tag : Tag) (bytes : Bytes) (argument : Argument) (consumed : Nat) :
    tag.read bytes = .ok (argument, consumed) ↔ argument.tag = tag ∧
      ∃ field rest, bytes = field ++ rest ∧ argument.PayloadField field ∧
        consumed = field.length := by
  constructor
  · intro read
    cases tag with
    | int32 =>
        obtain ⟨value, isValue, same⟩ := map_eq_ok_iff.mp read
        obtain ⟨word, isWord, rfl⟩ := map_eq_ok_iff.mp isValue
        obtain ⟨rest, rfl⟩ := (Wire.readWord_eq_ok_iff _ _ _).mp isWord
        obtain ⟨rfl, rfl⟩ := Prod.mk.inj same
        exact ⟨rfl, bigEndian word, rest, rfl, .int32 word.toInt32, rfl⟩
    | float32 =>
        obtain ⟨value, isValue, same⟩ := map_eq_ok_iff.mp read
        obtain ⟨word, isWord, rfl⟩ := map_eq_ok_iff.mp isValue
        obtain ⟨rest, rfl⟩ := (Wire.readWord_eq_ok_iff _ _ _).mp isWord
        obtain ⟨rfl, rfl⟩ := Prod.mk.inj same
        exact ⟨rfl, bigEndian word, rest, rfl, .float32 ⟨word⟩, rfl⟩
    | true =>
        obtain ⟨rfl, rfl⟩ := Prod.mk.inj (Except.ok.inj read)
        exact ⟨rfl, [], bytes, rfl, .bool _, rfl⟩
    | false =>
        obtain ⟨rfl, rfl⟩ := Prod.mk.inj (Except.ok.inj read)
        exact ⟨rfl, [], bytes, rfl, .bool _, rfl⟩
    | string =>
        obtain ⟨⟨text, size⟩, isText, same⟩ := map_eq_ok_iff.mp read
        obtain ⟨rfl, rfl⟩ := Prod.mk.inj same
        obtain ⟨field, rest, rfl, holds, rfl⟩ := (Wire.readString_eq_ok_iff _ _ _).mp isText
        exact ⟨rfl, field, rest, rfl, .string holds, rfl⟩
    | blob =>
        obtain ⟨⟨data, size⟩, isData, same⟩ := map_eq_ok_iff.mp read
        obtain ⟨rfl, rfl⟩ := Prod.mk.inj same
        obtain ⟨field, rest, rfl, holds, rfl⟩ := (Wire.readBlobField_eq_ok_iff _ _ _).mp isData
        exact ⟨rfl, field, rest, rfl, .blob holds, rfl⟩
  · rintro ⟨rfl, field, rest, rfl, holds, rfl⟩
    cases holds with
    | int32 value =>
        have isWord := (Wire.readWord_eq_ok_iff .int32 _ value.toUInt32).mpr ⟨rest, rfl⟩
        simp [Tag.read, Argument.tag, Wire.readInt32, isWord, Except.map, length_bigEndian]
    | float32 value =>
        have isWord := (Wire.readWord_eq_ok_iff .float32 _ value.bits).mpr ⟨rest, rfl⟩
        simp [Tag.read, Argument.tag, Wire.readSingle, isWord, Except.map, length_bigEndian]
    | bool value => cases value <;> rfl
    | string inside =>
        have isText := (Wire.readString_eq_ok_iff _ _ _).mpr ⟨field, rest, rfl, inside, rfl⟩
        simp [Tag.read, Argument.tag, isText, Except.map]
    | blob inside =>
        have isData := (Wire.readBlobField_eq_ok_iff _ _ _).mpr ⟨field, rest, rfl, inside, rfl⟩
        simp [Tag.read, Argument.tag, isData, Except.map]

end OpenSoundControl
