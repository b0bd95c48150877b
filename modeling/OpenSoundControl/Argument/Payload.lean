import OpenSoundControl.Argument.Basic
import OpenSoundControl.Wire.Field

/-!
The payload of an argument: what a packet holds for it besides the tag.
-/

namespace OpenSoundControl

namespace Argument

def encodedSize : Argument → Nat
  | .int32 _ => 4
  | .float32 _ => 4
  | .bool _ => 0
  | .string value => Wire.stringSize value
  | .blob value => Wire.blobSize value.length

def totalSize (arguments : List Argument) : Nat :=
  arguments.foldr (fun argument total => argument.encodedSize + total) 0

def payload : Argument → Except Error Bytes
  | .int32 value => .ok (bigEndian value.toUInt32)
  | .float32 value => .ok (bigEndian value.bits)
  | .bool _ => .ok []
  | .string value => Wire.stringField value
  | .blob value => Wire.blobField value

end Argument

/-- The argument at the start of the bytes, and how many of them its payload fills. -/
def Tag.read (tag : Tag) (bytes : Bytes) : Except Error (Argument × Nat) :=
  match tag with
  | .int32 => (Wire.readInt32 bytes).map fun value => (.int32 value, 4)
  | .float32 => (Wire.readSingle bytes).map fun value => (.float32 value, 4)
  | .true => .ok (.bool Bool.true, 0)
  | .false => .ok (.bool Bool.false, 0)
  | .string => (Wire.readString bytes).map fun (value, consumed) => (.string value, consumed)
  | .blob => (Wire.readBlobField bytes).map fun (value, consumed) => (.blob value, consumed)

def parseArgument (tag : UInt8) (bytes : Bytes) : Except Error (Argument × Nat) :=
  match Tag.ofByte? tag with
  | some known => known.read bytes
  | none => .error (.invalidTypeTag none tag)

end OpenSoundControl
