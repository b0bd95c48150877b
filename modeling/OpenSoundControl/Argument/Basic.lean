import OpenSoundControl.Error
import OpenSoundControl.Numeric.Single

/-!
Arguments and their type tags. The tag follows from the value and is not stored with it; the two
truth values have a tag each and no payload.
-/

namespace OpenSoundControl

inductive Tag where
  | int32
  | float32
  | true
  | false
  | string
  | blob
  deriving DecidableEq, Repr

def Tag.byte : Tag → UInt8
  | .int32 => 105
  | .float32 => 102
  | .true => 84
  | .false => 70
  | .string => 115
  | .blob => 98

def Tag.all : List Tag :=
  [.int32, .float32, .true, .false, .string, .blob]

def Tag.ofByte? (byte : UInt8) : Option Tag :=
  all.find? fun tag => tag.byte = byte

def Tag.isSupported (byte : UInt8) : Bool :=
  byte = int32.byte || byte = float32.byte || byte = Tag.true.byte || byte = Tag.false.byte ||
    byte = string.byte || byte = blob.byte

theorem Tag.ofByte?_byte (tag : Tag) : ofByte? tag.byte = some tag := by
  cases tag <;> rfl

theorem Tag.ofByte?_eq_some_iff (byte : UInt8) (tag : Tag) :
    ofByte? byte = some tag ↔ byte = tag.byte := by
  constructor
  · intro found
    simpa [eq_comm] using List.find?_some found
  · rintro rfl
    exact ofByte?_byte tag

theorem Tag.isSupported_eq (byte : UInt8) : Tag.isSupported byte = (ofByte? byte).isSome := by
  rw [Bool.eq_iff_iff, Option.isSome_iff_exists]
  constructor
  · intro supported
    simp only [Tag.isSupported, Bool.or_eq_true, decide_eq_true_eq] at supported
    rcases supported with ((((rfl | rfl) | rfl) | rfl) | rfl) | rfl <;>
      exact ⟨_, ofByte?_byte _⟩
  · rintro ⟨tag, known⟩
    obtain rfl := (ofByte?_eq_some_iff _ _).mp known
    cases tag <;> rfl

/-- Equality of arguments is equality of bits for a float; `sameValue` compares floats as
numbers. -/
inductive Argument where
  | int32 (value : Int32)
  | float32 (value : Single)
  | bool (value : Bool)
  | string (value : String)
  | blob (value : Bytes)
  deriving DecidableEq, Repr

namespace Argument

def tag : Argument → Tag
  | .int32 _ => .int32
  | .float32 _ => .float32
  | .bool true => .true
  | .bool false => .false
  | .string _ => .string
  | .blob _ => .blob

def sameValue : Argument → Argument → Bool
  | .float32 left, .float32 right => left.sameNumber right
  | left, right => left == right

def mismatch (argument : Argument) (expected : Tag) : Error :=
  .invalidTypeTag (some expected.byte) argument.tag.byte

def readInt32 : Argument → Except Error Int32
  | .int32 value => .ok value
  | argument => .error (argument.mismatch .int32)

def readFloat32 : Argument → Except Error Single
  | .float32 value => .ok value
  | argument => .error (argument.mismatch .float32)

def readBool : Argument → Except Error Bool
  | .bool value => .ok value
  | argument => .error (argument.mismatch .true)

def readString : Argument → Except Error String
  | .string value => .ok value
  | argument => .error (argument.mismatch .string)

def readBlob : Argument → Except Error Bytes
  | .blob value => .ok value
  | argument => .error (argument.mismatch .blob)

end Argument

end OpenSoundControl
