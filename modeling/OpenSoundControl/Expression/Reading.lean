import OpenSoundControl.Expression.Token

/-!
From tokens to an expression. A stack holds the groups that are open; each level keeps the
alternatives it has finished and the members of the one it is reading. Reading fails for a fault in
the text or for too much nesting, and an expression counts as small enough to be compiled.
-/

namespace OpenSoundControl.Expression

/-- Both lists have the latest member first. -/
structure Level where
  alternatives : List Expression
  members : List Expression
  deriving DecidableEq, Repr

def Level.new : Level := ⟨[], []⟩

def Level.push (level : Level) (member : Expression) : Level :=
  ⟨level.alternatives, member :: level.members⟩

def Level.split (level : Level) : Level :=
  ⟨ofSequence level.members.reverse :: level.alternatives, []⟩

def Level.finish (level : Level) : Expression :=
  ofChoice level.split.alternatives.reverse

structure Reading where
  current : Level
  outer : List Level
  deriving DecidableEq, Repr

def Reading.new : Reading := ⟨.new, []⟩

def Reading.step (reading : Reading) : Token → Except Fault Reading
  | .atom expression => .ok ⟨reading.current.push expression, reading.outer⟩
  | .bar => .ok ⟨reading.current.split, reading.outer⟩
  | .opening =>
      if reading.outer.length < nestingLimit then .ok ⟨.new, reading.current :: reading.outer⟩
      else .error .nestedTooDeeply
  | .closing =>
      match reading.outer with
      | [] => .error .unopenedGroup
      | level :: outer => .ok ⟨level.push (.group reading.current.finish), outer⟩
  | .fault fault => .error fault

def Reading.finish (reading : Reading) : Except Fault Expression :=
  match reading.outer with
  | [] =>
      let expression := reading.current.finish
      if expression.height ≤ nestingLimit then .ok expression else .error .nestedTooDeeply
  | _ :: _ => .error .unclosedGroup

def read (text : List Char) : Except Fault Expression := do
  let reading ← (tokens 0 (symbols text)).foldlM Reading.step .new
  reading.finish

end OpenSoundControl.Expression
