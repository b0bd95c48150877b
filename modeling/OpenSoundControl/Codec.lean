import OpenSoundControl.Message.Basic
import OpenSoundControl.Sink

/-!
Packets. A packet is the address, the type tags and the payloads, each a padded field. The decoder
goes from left to right and never gives part of a message. A lenient codec accepts packets without
tags, tags without the comma, and bytes after the last payload; a strict one refuses all three.
-/

namespace OpenSoundControl

structure Codec where
  comma : Bool
  strict : Bool
  limit : Nat
  deriving DecidableEq, Repr

namespace Codec

/-- The greatest size that a 64-bit machine can count. -/
def unlimited : Nat := 18446744073709551615

def default : Codec := ⟨true, false, unlimited⟩

def bundleAddress : String := "#bundle"

def commaByte : UInt8 := 44

def tagText (codec : Codec) (message : Message) : String :=
  (if codec.comma then "," else "") ++ message.typeTags

def tagLength (codec : Codec) (message : Message) : Nat :=
  message.size + if codec.comma then 1 else 0

def encodedSize (codec : Codec) (message : Message) : Nat :=
  Wire.stringSize message.address + Wire.paddedLength (codec.tagLength message + 1) +
    Argument.totalSize message.arguments

def encodeFields (codec : Codec) (message : Message) : Except Error Bytes := do
  let address ← Wire.stringField message.address
  let tags ← Wire.stringField (codec.tagText message)
  let payloads ← message.arguments.mapM Argument.payload
  return address ++ tags ++ payloads.flatten

def encode (codec : Codec) (message : Message) : Except Error Bytes :=
  if message.address = "" then .error (.invalidAddress .empty)
  else if codec.limit < codec.encodedSize message then
    .error (.packetTooLarge (codec.encodedSize message) codec.limit)
  else codec.encodeFields message

def encodeTo (codec : Codec) (message : Message) (sink : Sink) : Except Error Nat × Sink :=
  match codec.encode message with
  | .error error => (.error error, sink)
  | .ok packet =>
      match sink.write packet with
      | (.error error, after) => (.error error, after)
      | (.ok (), written) =>
          let (outcome, after) := written.flush
          (outcome.map fun _ => packet.length, after)

/-- Reading payloads: where the next tag and the next payload stand in the packet, the bytes from
that payload on, and the arguments so far, the latest first. -/
structure Cursor where
  tagPosition : Nat
  position : Nat
  rest : Bytes
  found : List Argument
  deriving DecidableEq, Repr

def Cursor.step (cursor : Cursor) (tag : UInt8) : Except Error Cursor :=
  match Tag.ofByte? tag with
  | none => .error (.parse cursor.tagPosition (.unknownTag tag))
  | some known =>
      match known.read cursor.rest with
      | .error error => .error (error.shift cursor.position)
      | .ok (argument, consumed) =>
          .ok ⟨cursor.tagPosition + 1, cursor.position + consumed, cursor.rest.drop consumed,
            argument :: cursor.found⟩

def splitTags (codec : Codec) (position : Nat) (tags : Bytes) : Except Error (Bytes × Nat) :=
  if tags.head? = some commaByte then .ok (tags.drop 1, position + 1)
  else if codec.strict then .error (.parse position .missingComma)
  else .ok (tags, position)

def decodeArguments (codec : Codec) (position : Nat) (bytes : Bytes) :
    Except Error (List Argument) := do
  let (text, consumed) ← (Wire.readString bytes).mapError (Error.shift position)
  let (tags, first) ← codec.splitTags position (Utf8.encode text)
  let start : Cursor := ⟨first, position + consumed, bytes.drop consumed, []⟩
  let last ← tags.foldlM Cursor.step start
  if codec.strict && !last.rest.isEmpty then
    .error (.parse last.position (.trailingBytes last.rest.length))
  else .ok last.found.reverse

def decodeAddress (packet : Bytes) : Except Error (String × Nat) := do
  let (address, consumed) ← Wire.readString packet
  if address = "" then .error (.parse 0 .emptyAddress)
  else if address = bundleAddress then .error (.parse 0 .bundle)
  else .ok (address, consumed)

def decode (codec : Codec) (packet : Bytes) (sender : Option String) : Except Error Message :=
  if codec.limit < packet.length then .error (.packetTooLarge packet.length codec.limit)
  else do
    let (address, consumed) ← decodeAddress packet
    match packet.drop consumed with
    | [] =>
        if codec.strict then .error (.parse consumed .missingTags)
        else .ok ⟨address, [], sender⟩
    | bytes =>
        let arguments ← codec.decodeArguments consumed bytes
        .ok ⟨address, arguments, sender⟩

def transcode (source target : Codec) (packet : Bytes) : Except Error Bytes :=
  (source.decode packet none).bind target.encode

end Codec

end OpenSoundControl
