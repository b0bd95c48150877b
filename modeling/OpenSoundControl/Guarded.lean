import OpenSoundControl.Codec

/-!
Decoding with every slice made visible. A guarded reader has the whole packet and a position in it,
and cuts each field out as a slice. It breaks down, with no answer at all, where a slice would go
beyond the bytes that it is cut from, where a reader would report more bytes than it was given or
part of a word, or where the cursor would leave the packet or stand inside a word.
-/

namespace OpenSoundControl

/-- An outcome, or `none` where a check has failed. -/
abbrev Guarded : Type → Type :=
  ExceptT Error Option

namespace Guarded

variable {α β : Type}

def unchecked (outcome : Except Error α) : Guarded α :=
  ExceptT.mk (some outcome)

def check (condition : Prop) [Decidable condition] : Guarded Unit :=
  if condition then pure () else ExceptT.mk none

def sliceFrom (bytes : Bytes) (start : Nat) : Guarded Bytes := do
  check (start ≤ bytes.length)
  return bytes.drop start

def sliceTo (bytes : Bytes) (stop : Nat) : Guarded Bytes := do
  check (stop ≤ bytes.length)
  return bytes.take stop

def report (bytes : Bytes) (value : α) (consumed : Nat) : Guarded (α × Nat) := do
  check (consumed % Wire.alignment = 0)
  check (consumed ≤ bytes.length)
  return (value, consumed)

def advance (packet : Bytes) (cursor consumed : Nat) : Guarded Nat := do
  check ((cursor + consumed) % Wire.alignment = 0)
  check (cursor + consumed ≤ packet.length)
  return cursor + consumed

def shift (base : Nat) (guarded : Guarded α) : Guarded α :=
  ExceptT.adapt (Error.shift base) guarded

def readString (bytes : Bytes) : Guarded (String × Nat) :=
  match bytes.findIdx? (· = 0) with
  | none => throw (.parse bytes.length .unterminatedString)
  | some position => do
      let consumed := Wire.paddedLength (position + 1)
      if bytes.length < consumed then
        throw (.parse bytes.length (.truncatedPadding consumed bytes.length))
      else
        let content ← sliceTo bytes position
        match Utf8.decode content with
        | .ok text => report bytes text consumed
        | .error fault => throw (.parse fault.offset (.malformedText fault))

def readBlob (declared : Nat) (bytes : Bytes) : Guarded (Bytes × Nat) := do
  let consumed := Wire.paddedLength declared
  if bytes.length < consumed then
    throw (.parse bytes.length (.truncatedBlob declared consumed bytes.length))
  else
    let data ← sliceTo bytes declared
    report bytes data consumed

def readWord (field : WordField) (bytes : Bytes) : Guarded UInt32 :=
  if bytes.length < 4 then throw (.parse bytes.length (.truncatedWord field bytes.length))
  else do
    match ← sliceTo bytes 4 with
    | [first, second, third, fourth] => return ofBigEndian first second third fourth
    | _ => ExceptT.mk none

def readBlobField (bytes : Bytes) : Guarded (Bytes × Nat) := do
  let word ← readWord .blobLength bytes
  if word.toInt32 < 0 then throw (.parse 0 (.negativeBlobLength word.toInt32))
  else
    let behind ← sliceFrom bytes 4
    let (data, consumed) ← shift 4 (readBlob word.toNat behind)
    report bytes data (4 + consumed)

def readPayload (tag : Tag) (bytes : Bytes) : Guarded (Argument × Nat) :=
  match tag with
  | .int32 => do
      let word ← readWord .int32 bytes
      report bytes (.int32 word.toInt32) 4
  | .float32 => do
      let word ← readWord .float32 bytes
      report bytes (.float32 ⟨word⟩) 4
  | .true => report bytes (.bool Bool.true) 0
  | .false => report bytes (.bool Bool.false) 0
  | .string => do
      let (value, consumed) ← readString bytes
      report bytes (.string value) consumed
  | .blob => do
      let (value, consumed) ← readBlobField bytes
      report bytes (.blob value) consumed

def parseArgument (byte : UInt8) (bytes : Bytes) : Guarded (Argument × Nat) :=
  match Tag.ofByte? byte with
  | some known => readPayload known bytes
  | none => throw (.invalidTypeTag none byte)

structure Place where
  tagPosition : Nat
  position : Nat
  found : List Argument

def Place.step (packet : Bytes) (place : Place) (byte : UInt8) : Guarded Place :=
  if Tag.isSupported byte then do
    let bytes ← sliceFrom packet place.position
    let (argument, consumed) ← shift place.position (parseArgument byte bytes)
    let position ← advance packet place.position consumed
    return ⟨place.tagPosition + 1, position, argument :: place.found⟩
  else throw (.parse place.tagPosition (.unknownTag byte))

def decodeAddress (packet : Bytes) : Guarded (String × Nat) := do
  let (address, consumed) ← readString packet
  let cursor ← advance packet 0 consumed
  if address = "" then throw (.parse 0 .emptyAddress)
  else if address = Codec.bundleAddress then throw (.parse 0 .bundle)
  else return (address, cursor)

def decodeArguments (codec : Codec) (packet : Bytes) (cursor : Nat) : Guarded (List Argument) := do
  let bytes ← sliceFrom packet cursor
  let (text, consumed) ← shift cursor (readString bytes)
  let start ← advance packet cursor consumed
  let (tags, first) ← unchecked (codec.splitTags cursor (Utf8.encode text))
  let last ← tags.foldlM (Place.step packet) ⟨first, start, []⟩
  if codec.strict ∧ last.position ≠ packet.length then
    throw (.parse last.position (.trailingBytes (packet.length - last.position)))
  else return last.found.reverse

def decode (codec : Codec) (packet : Bytes) (sender : Option String) : Guarded Message :=
  if codec.limit < packet.length then throw (.packetTooLarge packet.length codec.limit)
  else do
    let (address, cursor) ← decodeAddress packet
    if cursor = packet.length then
      if codec.strict then throw (.parse cursor .missingTags)
      else return ⟨address, [], sender⟩
    else
      let arguments ← decodeArguments codec packet cursor
      return ⟨address, arguments, sender⟩

end Guarded

end OpenSoundControl
