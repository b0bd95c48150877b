import OpenSoundControl.Expression.Basic
import OpenSoundControl.Expression.Symbol

/-!
Sets of characters as they are written between square brackets. A caret in front negates the set.
Dashes right after that are members, and where there are none a closing bracket is. Then follow
single characters, ranges and named sets up to the closing bracket.
-/

namespace OpenSoundControl.Expression

def namedSets : List (String × List (Char × Char)) :=
  [("alnum", [('0', '9'), ('A', 'Z'), ('a', 'z')]),
    ("alpha", [('A', 'Z'), ('a', 'z')]),
    ("ascii", [('\x00', '\x7f')]),
    ("blank", [('\t', '\t'), (' ', ' ')]),
    ("cntrl", [('\x00', '\x1f'), ('\x7f', '\x7f')]),
    ("digit", [('0', '9')]),
    ("graph", [('!', '~')]),
    ("lower", [('a', 'z')]),
    ("print", [(' ', '~')]),
    ("punct", [('!', '/'), (':', '@'), ('[', '\x60'), ('\x7b', '~')]),
    ("space", [('\t', '\r'), (' ', ' ')]),
    ("upper", [('A', 'Z')]),
    ("word", [('0', '9'), ('A', 'Z'), ('_', '_'), ('a', 'z')]),
    ("xdigit", [('0', '9'), ('A', 'F'), ('a', 'f')])]

def namedSet? (symbols : List Symbol) : Option (List (Char × Char) × Nat) :=
  match symbols with
  | .plain ':' :: rest =>
      let name := rest.takeWhile (· ≠ .plain ':')
      match rest.drop name.length with
      | .plain ':' :: .plain ']' :: _ =>
          (namedSets.lookup (String.ofList (name.map Symbol.character))).map (·, name.length + 3)
      | _ => none
  | _ => none

/-- What starts at a symbol inside a set. `members` also counts the symbols after the first that
belong to it. -/
inductive Item where
  | close
  | members (ranges : List (Char × Char)) (further : Nat)
  | fault (fault : Fault)
  deriving DecidableEq, Repr

def Item.single (symbol : Symbol) : Item :=
  .members [(symbol.character, symbol.character)] 0

def Item.range (first last : Symbol) : Item :=
  if first.character ≤ last.character then .members [(first.character, last.character)] 2
  else .fault .invalidRange

def Item.ordinary (first : Symbol) : List Symbol → Item
  | [] => .fault .unclosedItem
  | [_] => .single first
  | dash :: last :: _ =>
      if dash = .plain '-' ∧ last ≠ .plain ']' ∧ last ≠ .plain '-' then .range first last
      else .single first

def Item.next (first : Symbol) (rest : List Symbol) : Item :=
  if first = .plain ']' then .close
  else if first = .plain '[' then
    match namedSet? rest with
    | some (ranges, length) => .members ranges length
    | none => .fault .nestedSet
  else if first = .plain '&' ∧ rest.head? = some (.plain '&') then .fault .intersection
  else if first = .plain '-' ∧ rest.head? = some (.plain '-') then .fault .difference
  else if first = .plain '~' ∧ rest.head? = some (.plain '~') then .fault .symmetricDifference
  else .ordinary first rest

/-- Reads items up to the closing bracket, passing over the symbols that an item has taken. The
number counts all symbols read. -/
def readItems : Nat → List Symbol → Nat → List (Char × Char) →
    Except Fault (List (Char × Char) × Nat)
  | _, [], _, _ => .error .unclosedSet
  | further + 1, _ :: rest, length, found => readItems further rest (length + 1) found
  | 0, first :: rest, length, found =>
      match Item.next first rest with
      | .close => .ok (found, length + 1)
      | .members ranges further => readItems further rest (length + 1) (found ++ ranges)
      | .fault fault => .error fault

def readSet (symbols : List Symbol) : Except Fault (CharacterSet × Nat) :=
  let negated := symbols.head? == some (.plain '^')
  let body := if negated then symbols.drop 1 else symbols
  let dashes := body.takeWhile (· = .plain '-')
  let opening :=
    if dashes.isEmpty then body.takeWhile (· = .plain ']') |>.take 1 else dashes
  let members := opening.map fun symbol => (symbol.character, symbol.character)
  let length := (if negated then 1 else 0) + opening.length
  match readItems 0 (body.drop opening.length) length members with
  | .ok (ranges, length) => .ok (⟨negated, ranges⟩, length)
  | .error fault => .error fault

end OpenSoundControl.Expression
