import OpenSoundControl.Json.Basic
import OpenSoundControl.Text.Quoted

/-!
The tokens of JSON text, and how each is written. No blanks are written between tokens.
-/

namespace OpenSoundControl.Json

inductive Token where
  | openArray
  | closeArray
  | openObject
  | closeObject
  | comma
  | colon
  | scalar (value : Scalar)
  deriving DecidableEq, Repr

def escaped (character : Char) : List Char :=
  if character = '"' then ['\\', '"']
  else if character = '\\' then ['\\', '\\']
  else if character = '\x08' then ['\\', 'b']
  else if character = '\t' then ['\\', 't']
  else if character = '\n' then ['\\', 'n']
  else if character = '\x0c' then ['\\', 'f']
  else if character = '\r' then ['\\', 'r']
  else if character < ' ' then ['\\', 'u', '0', '0'] ++ Quoted.twoDigits character.toNat
  else [character]

def decimalLayout : Numeric.Layout := ⟨-6, 12⟩

def scalarText : Scalar → List Char
  | .null => ['n', 'u', 'l', 'l']
  | .bool true => ['t', 'r', 'u', 'e']
  | .bool false => ['f', 'a', 'l', 's', 'e']
  | .integer value => Numeric.signed (value < 0) (Numeric.digitsOf value.natAbs)
  | .decimal negative magnitude => Numeric.signed negative (decimalLayout.write magnitude)
  | .string value => ['"'] ++ value.toList.flatMap escaped ++ ['"']

def Token.text : Token → List Char
  | .openArray => ['[']
  | .closeArray => [']']
  | .openObject => ['\x7b']
  | .closeObject => ['\x7d']
  | .comma => [',']
  | .colon => [':']
  | .scalar value => scalarText value

end OpenSoundControl.Json
