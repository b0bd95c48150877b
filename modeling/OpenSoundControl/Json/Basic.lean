import OpenSoundControl.Numeric.Decimal

/-!
JSON values. A number keeps the form it is written in: an integer, or a decimal with a sign of its
own. The fields of an object have different names. Text is written and read as serde_json does it
by default, with the shortest decimals and without blanks; decimals are read with the digits and the
power of ten rounded apart.
-/

namespace OpenSoundControl

inductive Scalar where
  | null
  | bool (value : Bool)
  | integer (value : Int)
  | decimal (negative : Bool) (magnitude : Numeric.Decimal)
  | string (value : String)
  deriving DecidableEq, Repr

inductive Json where
  | scalar (value : Scalar)
  | array (items : List Json)
  | object (fields : List (String × Json))
  deriving Repr

namespace Json

@[match_pattern]
def null : Json := .scalar .null

@[match_pattern]
def bool (value : Bool) : Json := .scalar (.bool value)

@[match_pattern]
def integer (value : Int) : Json := .scalar (.integer value)

@[match_pattern]
def decimal (negative : Bool) (magnitude : Numeric.Decimal) : Json :=
  .scalar (.decimal negative magnitude)

@[match_pattern]
def string (value : String) : Json := .scalar (.string value)

def field? : Json → String → Option Json
  | .object fields, name => fields.lookup name
  | _, _ => none

end Json

end OpenSoundControl
