import OpenSoundControl.Json.Token

/-!
JSON values as text. A value is laid out as tokens, the latest first, and the tokens are written
one behind the other.
-/

namespace OpenSoundControl.Json

mutual

def layTokens (done : List Token) : Json → List Token
  | .scalar value => .scalar value :: done
  | .array items => .closeArray :: layItems [] (.openArray :: done) items
  | .object fields => .closeObject :: layFields [] (.openObject :: done) fields

def layItems (separator done : List Token) : List Json → List Token
  | [] => done
  | item :: rest => layItems [.comma] (layTokens (separator ++ done) item) rest

def layFields (separator done : List Token) : List (String × Json) → List Token
  | [] => done
  | (name, value) :: rest =>
      layFields [.comma]
        (layTokens (.colon :: .scalar (.string name) :: (separator ++ done)) value) rest

end

def tokensOf (json : Json) : List Token :=
  (layTokens [] json).reverse

def render (json : Json) : String :=
  String.ofList ((tokensOf json).flatMap Token.text)

end OpenSoundControl.Json
