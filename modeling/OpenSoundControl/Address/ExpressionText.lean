/-!
The expression that stands for an address pattern. Characters with a meaning in expressions are
quoted first, and then the wildcards are replaced, one kind after the other; a later replacement
never meets a character that an earlier one has put in. `spell` is the same in a single pass.
-/

namespace OpenSoundControl.Address

/-- In the order in which they are made. -/
def substitutions : List (Char × List Char) :=
  [('\\', ['\\', '\\']), ('.', ['\\', '.']), ('(', ['\\', '(']), (')', ['\\', ')']),
    ('+', ['\\', '+']), ('^', ['\\', '^']), ('$', ['\\', '$']), ('|', ['\\', '|']),
    ('*', ['.', '*']), ('\x7b', ['(']), (',', ['|']), ('\x7d', [')']), ('?', ['.'])]

def substitute (text : List Char) (substitution : Char × List Char) : List Char :=
  text.flatMap fun character =>
    if character = substitution.1 then substitution.2 else [character]

/-- An exclamation mark right behind an opening bracket negates the set. -/
def negateBehind (previous character : Char) : Char :=
  if previous = '[' ∧ character = '!' then '^' else character

def negate (text : List Char) : List Char :=
  List.zipWith negateBehind (' ' :: text) text

def body (pattern : List Char) : List Char :=
  negate (substitutions.foldl substitute pattern)

def anchored (text : List Char) : List Char :=
  ['^'] ++ text ++ ['$']

def expressionText (pattern : String) : String :=
  String.ofList (anchored (body pattern.toList))

def spellCharacter (previous character : Char) : List Char :=
  match substitutions.lookup character with
  | some replacement => replacement
  | none => [negateBehind previous character]

def spell (pattern : List Char) : List Char :=
  (List.zipWith spellCharacter (' ' :: pattern) pattern).flatten

end OpenSoundControl.Address
