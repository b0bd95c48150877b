import OpenSoundControl.Expression.Set

/-!
The text of an expression cut into tokens. A fault in a set becomes the last token, so that faults
further left are met first.
-/

namespace OpenSoundControl.Expression

inductive Token where
  | atom (expression : Expression)
  | bar
  | opening
  | closing
  | fault (fault : Fault)
  deriving DecidableEq, Repr

def Token.next (first : Symbol) (rest : List Symbol) : Token × Nat :=
  match first with
  | .quoted character => (.atom (.literal character), 0)
  | .plain '.' => if rest.head? = some (.plain '*') then (.atom .anyRun, 1) else (.atom .any, 0)
  | .plain '^' => (.atom .start, 0)
  | .plain '$' => (.atom .finish, 0)
  | .plain '|' => (.bar, 0)
  | .plain '(' => (.opening, 0)
  | .plain ')' => (.closing, 0)
  | .plain '[' =>
      match readSet rest with
      | .ok (set, length) => (.atom (.oneOf set), length)
      | .error reason => (.fault reason, rest.length)
  | .plain character => (.atom (.literal character), 0)

def tokens : Nat → List Symbol → List Token
  | _, [] => []
  | further + 1, _ :: rest => tokens further rest
  | 0, first :: rest =>
      let (token, further) := Token.next first rest
      token :: tokens further rest

end OpenSoundControl.Expression
