import OpenSoundControl.Argument.Json
import OpenSoundControl.Message.Basic

/-!
The JSON form of a message: an object with an `address` and `arguments`, or an array of the two.
The arguments may be left out when reading. The sender is neither written nor read.
-/

namespace OpenSoundControl.Message

def toJson (message : Message) : Json :=
  .object [("address", .string message.address),
    ("arguments", .array (message.arguments.map Argument.toJson))]

def argumentsOfJson (json : Json) : Except Json.Fault (List Argument) := do
  let items ← json.expectItems
  items.mapM Argument.ofJson

def optionalArguments : Option Json → Except Json.Fault (List Argument)
  | some json => argumentsOfJson json
  | none => .ok []

def ofFields (fields : List (String × Json)) : Except Json.Fault Message := do
  let address ← (fields.lookup "address").mapM Json.expectString
  let arguments ← optionalArguments (fields.lookup "arguments")
  match address with
  | some address => .ok ⟨address, arguments, none⟩
  | none => .error (.missingField "address")

def ofItems : List Json → Except Json.Fault Message
  | [] => .error (.wrongLength 0 .messageItems)
  | addressJson :: rest => do
      let address ← addressJson.expectString
      let arguments ← optionalArguments rest.head?
      if rest.length ≤ 1 then .ok ⟨address, arguments, none⟩
      else .error (.wrongLength (rest.length + 1) .fewerItems)

def ofJson : Json → Except Json.Fault Message
  | .object fields => ofFields fields
  | .array items => ofItems items
  | json => .error (.wrongType json .message)

end OpenSoundControl.Message
