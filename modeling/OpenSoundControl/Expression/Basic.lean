/-!
The expressions that address patterns become: literal characters, wildcards, sets of characters,
groups, sequences and choices, and the anchors at the two ends of a text. They are read and searched
as regex-lite documents it for this part of its language. Of its two limits on an expression only
the one on nesting is kept here; that on the compiled size, which takes a pattern of many thousand
characters to reach, is assumed never to be met.
-/

namespace OpenSoundControl

/-- A character belongs to the set when a range holds it, or, in a negated set, when none does. -/
structure CharacterSet where
  negated : Bool
  ranges : List (Char × Char)
  deriving DecidableEq, Repr

def CharacterSet.contains (set : CharacterSet) (character : Char) : Bool :=
  set.ranges.any (fun range => range.1 ≤ character && character ≤ range.2) != set.negated

/-- Sequences and choices of more than two members nest to the right. -/
inductive Expression where
  | empty
  | literal (character : Char)
  | any
  | anyRun
  | start
  | finish
  | oneOf (set : CharacterSet)
  | group (body : Expression)
  | sequence (first rest : Expression)
  | choice (first rest : Expression)
  deriving DecidableEq, Repr

namespace Expression

inductive Fault where
  | unclosedGroup
  | unopenedGroup
  | unclosedItem
  | unclosedSet
  | invalidRange
  | nestedSet
  | intersection
  | difference
  | symmetricDifference
  | nestedTooDeeply
  deriving DecidableEq, Repr

def Fault.message : Fault → String
  | .unclosedGroup => "found open group without closing ')'"
  | .unopenedGroup => "found closing ')' without matching '('"
  | .unclosedItem => "non-empty character class has no closing bracket"
  | .unclosedSet => "found unclosed character class"
  | .invalidRange => "invalid range in character class"
  | .nestedSet => "nested character classes are not supported"
  | .intersection => "character class intersection is not supported"
  | .difference => "character class difference is not supported"
  | .symmetricDifference => "character class symmetric difference is not supported"
  | .nestedTooDeeply => "pattern has too much nesting"

inductive Chain where
  | none
  | sequence
  | choice
  deriving DecidableEq, Repr

/-- A whole chain counts as one level above its members. -/
def heightIn : Chain → Expression → Nat
  | chain, .sequence first rest =>
      (if chain = .sequence then 0 else 1) + max (heightIn .none first) (heightIn .sequence rest)
  | chain, .choice first rest =>
      (if chain = .choice then 0 else 1) + max (heightIn .none first) (heightIn .choice rest)
  | _, .group body => 1 + heightIn .none body
  | _, .anyRun => 1
  | _, _ => 0

def height (expression : Expression) : Nat :=
  heightIn .none expression

/-- The greatest height an expression may have, and how many groups may be open at once. -/
def nestingLimit : Nat := 50

def ofSequence : List Expression → Expression
  | [] => .empty
  | [only] => only
  | first :: rest => .sequence first (ofSequence rest)

def ofChoice : List Expression → Expression
  | [] => .empty
  | [only] => only
  | first :: rest => .choice first (ofChoice rest)

end Expression

end OpenSoundControl
