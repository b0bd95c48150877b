import OpenSoundControl.Argument.Basic
import OpenSoundControl.Json.Expecting
import OpenSoundControl.Json.Printing

/-!
The JSON form of an argument: an object with a `type` and a `value`, or an array of the two. A
float that is not finite has no number and becomes null, which cannot be read back. How a decimal
becomes a double is left open until `ofJson`.
-/

namespace OpenSoundControl

inductive Argument.Kind where
  | int32
  | float32
  | bool
  | string
  | blob
  deriving DecidableEq, Repr

namespace Argument

def kind : Argument → Kind
  | .int32 _ => .int32
  | .float32 _ => .float32
  | .bool _ => .bool
  | .string _ => .string
  | .blob _ => .blob

def Kind.name : Kind → String
  | .int32 => "int32"
  | .float32 => "float32"
  | .bool => "bool"
  | .string => "string"
  | .blob => "blob"

def Kind.all : List Kind :=
  [.int32, .float32, .bool, .string, .blob]

def floatJson (value : Single) : Json :=
  if value.isFinite then .decimal value.isNegative value.shortest else .null

def valueJson : Argument → Json
  | .int32 value => .integer value.toInt
  | .float32 value => floatJson value
  | .bool value => .bool value
  | .string value => .string value
  | .blob value => .array (value.map fun byte => .integer byte.toNat)

def toJson (argument : Argument) : Json :=
  .object [("type", .string argument.kind.name), ("value", argument.valueJson)]

def Kind.ofName (name : String) : Except Json.Fault Kind :=
  match all.find? fun kind => kind.name = name with
  | some kind => .ok kind
  | none => .error (.unknownKind name (all.map Kind.name))

/-- A kind may also be written as an object whose only field has its name and the value null. -/
def Kind.ofJson : Json → Except Json.Fault Kind
  | .scalar (.string name) => ofName name
  | .object [(name, value)] =>
      match ofName name, value with
      | .ok kind, .scalar .null => .ok kind
      | .ok _, value => .error (.wrongType value .unit)
      | .error fault, _ => .error fault
  | .object fields => .error (.wrongValue (.object fields) .singleKey)
  | json => .error (.wrongType json .kind)

def Kind.ofItem : Json → Except Json.Fault Kind
  | .scalar (.string name) => ofName name
  | json => .error (.wrongType json .kindName)

section Reading

variable (toDouble : Numeric.Decimal → Nat)

def Kind.read (kind : Kind) (json : Json) : Except Json.Fault Argument :=
  match kind with
  | .int32 =>
      (json.expectInteger (-2147483648) 2147483647 .int32).map fun value =>
        .int32 (Int32.ofInt value)
  | .float32 => (json.expectSingle toDouble).map .float32
  | .bool => json.expectBool.map .bool
  | .string => json.expectString.map .string
  | .blob => json.expectBytes.map .blob

def ofFields (fields : List (String × Json)) : Except Json.Fault Argument :=
  match fields.lookup "type" with
  | none => .error (.missingField "type")
  | some kindJson => do
      let kind ← Kind.ofJson kindJson
      match fields.lookup "value" with
      | none => .error (.missingField "value")
      | some json => kind.read toDouble json

def ofItems : List Json → Except Json.Fault Argument
  | [] => .error (.wrongLength 0 .argument)
  | kindJson :: rest => do
      let kind ← Kind.ofItem kindJson
      match rest with
      | [] => .error (.wrongLength 1 .argument)
      | json :: further => do
          let argument ← kind.read toDouble json
          if further.isEmpty then .ok argument
          else .error (.wrongLength (further.length + 2) .fewerItems)

def ofJsonBy : Json → Except Json.Fault Argument
  | .object fields => ofFields toDouble fields
  | .array items => ofItems toDouble items
  | json => .error (.wrongType json .argument)

end Reading

def ofJson (json : Json) : Except Json.Fault Argument :=
  ofJsonBy Numeric.Double.ofDecimal json

end Argument

end OpenSoundControl
