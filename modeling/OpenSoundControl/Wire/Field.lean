import OpenSoundControl.Error
import OpenSoundControl.Numeric.Single
import OpenSoundControl.Wire.Alignment

/-!
The fields of a packet: strings, blobs and words. A writer gives the bytes of a field. A reader
stands at the start of a field and gives its value together with the number of bytes that the
padded field fills; the offsets of its errors count from there. Padding is passed over unread.
-/

namespace OpenSoundControl.Wire

def stringField (text : String) : Except Error Bytes :=
  let bytes := Utf8.encode text
  match bytes.findIdx? (· = 0) with
  | some position => .error (.encode (.containsNul position text))
  | none => .ok (bytes ++ zeros (stringSize text - bytes.length))

def blobField (data : Bytes) : Except Error Bytes :=
  if greatestBlob < data.length then .error (.encode (.blobTooLarge data.length))
  else .ok (bigEndian (UInt32.ofNat data.length) ++ pad data)

def readString (bytes : Bytes) : Except Error (String × Nat) :=
  match bytes.findIdx? (· = 0) with
  | none => .error (.parse bytes.length .unterminatedString)
  | some position =>
      let consumed := paddedLength (position + 1)
      if bytes.length < consumed then
        .error (.parse bytes.length (.truncatedPadding consumed bytes.length))
      else
        match Utf8.decode (bytes.take position) with
        | .ok text => .ok (text, consumed)
        | .error fault => .error (.parse fault.offset (.malformedText fault))

/-- The padded length of `declared` is taken to fit into a machine word. A length that a packet
states is below `2 ^ 31`. -/
def readBlob (declared : Nat) (bytes : Bytes) : Except Error (Bytes × Nat) :=
  let consumed := paddedLength declared
  if bytes.length < consumed then
    .error (.parse bytes.length (.truncatedBlob declared consumed bytes.length))
  else .ok (bytes.take declared, consumed)

def readWord (field : WordField) : Bytes → Except Error UInt32
  | first :: second :: third :: fourth :: _ => .ok (ofBigEndian first second third fourth)
  | bytes => .error (.parse bytes.length (.truncatedWord field bytes.length))

def readInt32 (bytes : Bytes) : Except Error Int32 :=
  (readWord .int32 bytes).map UInt32.toInt32

def readSingle (bytes : Bytes) : Except Error Single :=
  (readWord .float32 bytes).map Single.mk

def readBlobField (bytes : Bytes) : Except Error (Bytes × Nat) :=
  match readWord .blobLength bytes with
  | .error error => .error error
  | .ok word =>
      if word.toInt32 < 0 then .error (.parse 0 (.negativeBlobLength word.toInt32))
      else
        match readBlob word.toNat (bytes.drop 4) with
        | .ok (data, consumed) => .ok (data, 4 + consumed)
        | .error error => .error (error.shift 4)

end OpenSoundControl.Wire
