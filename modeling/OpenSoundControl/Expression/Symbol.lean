/-!
The text of an expression as symbols: a backslash quotes the character after it, which then stands
for itself.
-/

namespace OpenSoundControl.Expression

inductive Symbol where
  | plain (character : Char)
  | quoted (character : Char)
  deriving DecidableEq, Repr

def Symbol.character : Symbol → Char
  | .plain character => character
  | .quoted character => character

def symbols : List Char → List Symbol
  | [] => []
  | [last] => [.plain last]
  | first :: second :: rest =>
      if first = '\\' then .quoted second :: symbols rest
      else .plain first :: symbols (second :: rest)

end OpenSoundControl.Expression
