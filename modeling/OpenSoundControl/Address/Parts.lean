/-!
Addresses fall into parts at every slash; the first part is what stands before the first slash and
is normally empty. An address can only match a pattern with as many parts, and on neither side may
a part after the first be empty.
-/

namespace OpenSoundControl.Address

def separator : Char := '/'

def addCharacter (character : Char) : List (List Char) → List (List Char)
  | [] => [[character]]
  | part :: rest =>
      if character = separator then [] :: part :: rest else (character :: part) :: rest

def parts (text : List Char) : List (List Char) :=
  text.foldr addCharacter [[]]

def comparable (address pattern : String) : Bool :=
  let left := parts address.toList
  let right := parts pattern.toList
  left.length == right.length &&
    ((left.zip right).drop 1).all fun pair => !pair.1.isEmpty && !pair.2.isEmpty

def wildcards : List Char :=
  ['*', '?', '\x7b', '\x7d', '[', ']']

def hasWildcards (text : String) : Bool :=
  text.toList.any wildcards.contains

end OpenSoundControl.Address
