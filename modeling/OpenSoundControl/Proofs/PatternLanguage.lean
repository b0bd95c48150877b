import OpenSoundControl.Expression.Basic

/-!
The language of address patterns. A pattern is a row of parts, and a part is a sequence of
characters, wildcards, classes and groups. Each has the text it is written as and the texts it
matches; how deeply a pattern nests is counted as it is for the expression it becomes.
-/

namespace OpenSoundControl.Glob

/-- Characters that do not stand for themselves in a part. -/
def special : List Char :=
  ['*', '?', '\x7b', '\x7d', '[', ']', ',', '/']

inductive Member where
  | single (character : Char) (alphanumeric : character.isAlphanum = true)
  | range (first last : Char) (firstAlphanumeric : first.isAlphanum = true)
      (lastAlphanumeric : last.isAlphanum = true) (ordered : first ≤ last)

def Member.print : Member → List Char
  | .single character _ => [character]
  | .range first last _ _ _ => [first, '-', last]

def Member.Contains : Member → Char → Prop
  | .single own _, character => character = own
  | .range first last _ _ _, character => first ≤ character ∧ character ≤ last

structure CharacterClass where
  negated : Bool
  first : Member
  later : List Member

namespace CharacterClass

def members (set : CharacterClass) : List Member :=
  set.first :: set.later

def print (set : CharacterClass) : List Char :=
  ['['] ++ (if set.negated then ['!'] else []) ++ set.members.flatMap Member.print ++ [']']

def Contains (set : CharacterClass) (character : Char) : Prop :=
  set.negated = false ↔ ∃ member ∈ set.members, member.Contains character

end CharacterClass

inductive Atom where
  | literal (character : Char) (ordinary : character ∉ special)
  | one
  | run
  | oneOf (set : CharacterClass)

namespace Atom

def print : Atom → List Char
  | .literal character _ => [character]
  | .one => ['?']
  | .run => ['*']
  | .oneOf set => set.print

def Matches : Atom → List Char → Prop
  | .literal own _, text => text = [own]
  | .one, text => ∃ character, text = [character] ∧ character ≠ '\n'
  | .run, text => '\n' ∉ text
  | .oneOf set, text => ∃ character, text = [character] ∧ set.Contains character

def depth : Atom → Nat
  | .run => 1
  | _ => 0

end Atom

mutual

inductive Sequence where
  | nil
  | atom (first : Atom) (rest : Sequence)
  | group (alternatives : Alternatives) (rest : Sequence)

inductive Alternatives where
  | only (last : Sequence)
  | more (first : Sequence) (rest : Alternatives)

end

mutual

def Sequence.print : Sequence → List Char
  | .nil => []
  | .atom first rest => first.print ++ rest.print
  | .group alternatives rest => ['\x7b'] ++ alternatives.print ++ ['\x7d'] ++ rest.print

def Alternatives.print : Alternatives → List Char
  | .only last => last.print
  | .more first rest => first.print ++ [','] ++ rest.print

end

mutual

def Sequence.Matches : Sequence → List Char → Prop
  | .nil, text => text = []
  | .atom first rest, text =>
      ∃ front back, text = front ++ back ∧ first.Matches front ∧ rest.Matches back
  | .group alternatives rest, text =>
      ∃ front back, text = front ++ back ∧ alternatives.Matches front ∧ rest.Matches back

def Alternatives.Matches : Alternatives → List Char → Prop
  | .only last, text => last.Matches text
  | .more first rest, text => first.Matches text ∨ rest.Matches text

end

/-- A sequence of at most one member does not nest. -/
def Sequence.own : Sequence → Nat
  | .nil | .atom _ .nil | .group _ .nil => 0
  | _ => 1

def Alternatives.own : Alternatives → Nat
  | .only _ => 0
  | .more _ _ => 1

mutual

def Sequence.depth : Sequence → Nat
  | .nil => 0
  | .atom first rest => max first.depth rest.depth
  | .group alternatives rest => max (1 + alternatives.own + alternatives.depth) rest.depth

def Alternatives.depth : Alternatives → Nat
  | .only last => last.own + last.depth
  | .more first rest => max (first.own + first.depth) rest.depth

end

end Glob

structure Glob where
  first : Glob.Sequence
  later : List Glob.Sequence

namespace Glob

def parts (glob : Glob) : List Sequence :=
  glob.first :: glob.later

def print (glob : Glob) : List Char :=
  glob.first.print ++ glob.later.flatMap fun part => ['/'] ++ part.print

def text (glob : Glob) : String :=
  String.ofList glob.print

/-- The whole pattern is one sequence, between its anchors. -/
def depth (glob : Glob) : Nat :=
  1 + (glob.parts.map Sequence.depth).foldr max 0

end Glob

end OpenSoundControl
