import OpenSoundControl.Bytes
import OpenSoundControl.Json.Fault
import OpenSoundControl.Numeric.Single

/-!
Values of a required kind taken out of JSON, with a fault where another kind stands.
-/

namespace OpenSoundControl.Json

def expectInteger (least greatest : Int) (expected : Expected) : Json → Except Fault Int
  | .scalar (.integer value) =>
      if least ≤ value ∧ value ≤ greatest then .ok value
      else .error (.wrongValue (.integer value) expected)
  | json => .error (.wrongType json expected)

/-- An integer is rounded to single precision at once, a decimal by way of double precision. -/
def expectSingle (toDouble : Numeric.Decimal → Nat) : Json → Except Fault Single
  | .scalar (.integer value) => .ok (Single.ofInt value)
  | .scalar (.decimal negative magnitude) => .ok (Single.ofDecimal toDouble negative magnitude)
  | json => .error (.wrongType json .float32)

def expectBool : Json → Except Fault Bool
  | .scalar (.bool value) => .ok value
  | json => .error (.wrongType json .bool)

def expectString : Json → Except Fault String
  | .scalar (.string value) => .ok value
  | json => .error (.wrongType json .string)

def expectItems : Json → Except Fault (List Json)
  | .array items => .ok items
  | json => .error (.wrongType json .sequence)

def expectByte (json : Json) : Except Fault UInt8 :=
  (json.expectInteger 0 255 .byte).map fun value => UInt8.ofNat value.toNat

def expectBytes (json : Json) : Except Fault Bytes := do
  let items ← json.expectItems
  items.mapM expectByte

end OpenSoundControl.Json
