import OpenSoundControl.Expression.Basic

/-!
Searching a text for an expression. Positions lie before, between and behind the characters, and a
list of marks holds one truth value for each of them. An expression carries marks backwards: it
marks the positions from which it can reach a marked one. `Spans` states the same as a relation.
-/

namespace OpenSoundControl.Expression

abbrev Marks := List Bool

def isAny (character : Char) : Bool :=
  character ≠ '\n'

/-- `Spans text expression first last`: the expression matches the characters of the text between
the two positions. -/
inductive Spans (text : List Char) : Expression → Nat → Nat → Prop
  | empty {position} : position ≤ text.length → Spans text .empty position position
  | literal {character position} : text[position]? = some character →
      Spans text (.literal character) position (position + 1)
  | any {character position} : text[position]? = some character → isAny character = true →
      Spans text .any position (position + 1)
  | anyNone {position} : position ≤ text.length → Spans text .anyRun position position
  | anyMore {character position last} : text[position]? = some character →
      isAny character = true → Spans text .anyRun (position + 1) last →
      Spans text .anyRun position last
  | start : Spans text .start 0 0
  | finish : Spans text .finish text.length text.length
  | oneOf {set character position} : text[position]? = some character →
      set.contains character = true → Spans text (.oneOf set) position (position + 1)
  | group {body first last} : Spans text body first last → Spans text (.group body) first last
  | sequence {left right first middle last} : Spans text left first middle →
      Spans text right middle last → Spans text (.sequence left right) first last
  | first {left right first last} : Spans text left first last →
      Spans text (.choice left right) first last
  | rest {left right first last} : Spans text right first last →
      Spans text (.choice left right) first last

def sourcesOfCharacter (accepts : Char → Bool) (text : List Char) (marks : Marks) : Marks :=
  List.zipWith (fun character mark => accepts character && mark) text (marks.drop 1) ++ [false]

def sourcesOfRun (accepts : Char → Bool) (text : List Char) (marks : Marks) : Marks :=
  (text.zip marks).foldr
    (fun entry later => (entry.2 || accepts entry.1 && later.headD false) :: later)
    (marks.drop text.length)

def sources (text : List Char) : Expression → Marks → Marks
  | .empty, marks => marks
  | .literal character, marks => sourcesOfCharacter (· == character) text marks
  | .any, marks => sourcesOfCharacter isAny text marks
  | .anyRun, marks => sourcesOfRun isAny text marks
  | .start, marks => marks.take 1 ++ text.map fun _ => false
  | .finish, marks => text.map (fun _ => false) ++ marks.drop text.length
  | .oneOf set, marks => sourcesOfCharacter set.contains text marks
  | .group body, marks => sources text body marks
  | .sequence first rest, marks => sources text first (sources text rest marks)
  | .choice first rest, marks =>
      List.zipWith (· || ·) (sources text first marks) (sources text rest marks)

def occursIn (expression : Expression) (text : List Char) : Bool :=
  (sources text expression (List.replicate (text.length + 1) true)).any id

end OpenSoundControl.Expression
