import OpenSoundControl.Json.Scanning

/-!
From tokens to a JSON value. A stack holds the arrays and objects that are open.
-/

namespace OpenSoundControl.Json

/-- An open array or object; the latest member comes first. In an object, `name` belongs to the
value being read. -/
inductive Frame where
  | array (items : List Json)
  | object (fields : List (String × Json)) (name : String)

/-- What may come next: a value; the first item or the end of an array; the name of a field, which
may be the end of the object only if it would be the first; a colon; a comma or the end of what is
open; nothing. -/
inductive Stage where
  | value
  | firstItem
  | firstName
  | name
  | colon
  | following
  | complete (json : Json)

structure Reading where
  stage : Stage
  frames : List Frame

def withField (fields : List (String × Json)) (name : String) (json : Json) :
    List (String × Json) :=
  (name, json) :: fields.filter fun field => field.1 != name

def Reading.place (json : Json) : List Frame → Reading
  | [] => ⟨.complete json, []⟩
  | .array items :: outer => ⟨.following, .array (json :: items) :: outer⟩
  | .object fields name :: outer =>
      ⟨.following, .object (withField fields name json) name :: outer⟩

def Reading.close (token : Token) : List Frame → Option Reading
  | .array items :: outer =>
      if token = .closeArray then some (.place (.array items.reverse) outer) else none
  | .object fields _ :: outer =>
      if token = .closeObject then some (.place (.object fields.reverse) outer) else none
  | [] => none

def Reading.value (frames : List Frame) : Token → Option Reading
  | .scalar value => some (.place (.scalar value) frames)
  | .openArray => some ⟨.firstItem, .array [] :: frames⟩
  | .openObject => some ⟨.firstName, .object [] "" :: frames⟩
  | _ => none

def Reading.name (frames : List Frame) (token : Token) : Option Reading :=
  match token, frames with
  | .scalar (.string name), .object fields _ :: outer =>
      some ⟨.colon, .object fields name :: outer⟩
  | _, _ => none

def Reading.next (frames : List Frame) : Option Reading :=
  match frames with
  | .array _ :: _ => some ⟨.value, frames⟩
  | .object _ _ :: _ => some ⟨.name, frames⟩
  | [] => none

def Reading.step (reading : Reading) (token : Token) : Option Reading :=
  match reading.stage with
  | .value => Reading.value reading.frames token
  | .firstItem =>
      if token = .closeArray then Reading.close token reading.frames
      else Reading.value reading.frames token
  | .firstName =>
      if token = .closeObject then Reading.close token reading.frames
      else Reading.name reading.frames token
  | .name => Reading.name reading.frames token
  | .colon => if token = .colon then some ⟨.value, reading.frames⟩ else none
  | .following =>
      if token = .comma then Reading.next reading.frames else Reading.close token reading.frames
  | .complete _ => none

def Reading.finish (reading : Reading) : Option Json :=
  match reading.stage with
  | .complete json => some json
  | _ => none

def ofTokens? (tokens : List Token) : Option Json :=
  (tokens.foldlM Reading.step ⟨.value, []⟩).bind Reading.finish

def parse? (text : String) : Option Json :=
  (tokens? text.toList).bind ofTokens?

end OpenSoundControl.Json
