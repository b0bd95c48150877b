import OpenSoundControl.Json.Basic
import OpenSoundControl.Numeric.Double
import OpenSoundControl.Text.Quoted

/-!
Why a JSON value is not the form of an argument or a message, and how that is worded.
-/

namespace OpenSoundControl.Json

inductive Expected where
  | int32
  | float32
  | bool
  | string
  | sequence
  | byte
  | unit
  | kindName
  | kind
  | singleKey
  | argument
  | message
  | messageItems
  | fewerItems
  deriving DecidableEq, Repr

def Expected.text : Expected → String
  | .int32 => "i32"
  | .float32 => "f32"
  | .bool => "a boolean"
  | .string => "a string"
  | .sequence => "a sequence"
  | .byte => "u8"
  | .unit => "unit"
  | .kindName => "variant identifier"
  | .kind => "string or map"
  | .singleKey => "map with a single key"
  | .argument => "adjacently tagged enum Argument"
  | .message => "struct Message"
  | .messageItems => "struct Message with 2 elements"
  | .fewerItems => "fewer elements in array"

def errorLayout : Numeric.Layout := ⟨-5, 15⟩

def shownDecimal (negative : Bool) (magnitude : Numeric.Decimal) : String :=
  let ordinal := Numeric.Double.ofDecimal magnitude
  String.ofList (Numeric.signed negative
    (errorLayout.write (Numeric.Format.double.shortest ordinal)))

def shown : Json → String
  | .scalar .null => "null"
  | .scalar (.bool value) => s!"boolean \x60{value}\x60"
  | .scalar (.integer value) => s!"integer \x60{value}\x60"
  | .scalar (.decimal negative magnitude) =>
      s!"floating point \x60{shownDecimal negative magnitude}\x60"
  | .scalar (.string value) => s!"string {Quoted.text value}"
  | .array _ => "sequence"
  | .object _ => "map"

inductive Fault where
  | missingField (name : String)
  | unknownKind (name : String) (known : List String)
  | wrongType (found : Json) (expected : Expected)
  | wrongValue (found : Json) (expected : Expected)
  | wrongLength (length : Nat) (expected : Expected)

def listed (names : List String) : String :=
  ", ".intercalate (names.map fun name => s!"\x60{name}\x60")

def Fault.message : Fault → String
  | .missingField name => s!"missing field \x60{name}\x60"
  | .unknownKind name known =>
      s!"unknown variant \x60{name}\x60, expected one of {listed known}"
  | .wrongType found expected => s!"invalid type: {shown found}, expected {expected.text}"
  | .wrongValue found expected => s!"invalid value: {shown found}, expected {expected.text}"
  | .wrongLength length expected => s!"invalid length {length}, expected {expected.text}"

end OpenSoundControl.Json
