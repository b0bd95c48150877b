import OpenSoundControl.Proofs.Anchoring

/-!
The leaves of an expression are what has no members of its own. Reading puts the tokens of a text
into groups, sequences and choices, and neither loses one of them nor moves it past another.
-/

namespace OpenSoundControl.Expression

def leaves : Expression → List Expression
  | .empty => []
  | .group body => body.leaves
  | .sequence first rest => first.leaves ++ rest.leaves
  | .choice first rest => first.leaves ++ rest.leaves
  | leaf => [leaf]

def Token.leaves : Token → List Expression
  | .atom expression => expression.leaves
  | _ => []

def Level.leaves (level : Level) : List Expression :=
  (level.alternatives.reverse ++ level.members.reverse).flatMap Expression.leaves

def Reading.leaves (reading : Reading) : List Expression :=
  (reading.outer.reverse ++ [reading.current]).flatMap Level.leaves

theorem leaves_ofSequence (members : List Expression) :
    (ofSequence members).leaves = members.flatMap leaves := by
  induction members with
  | nil => rfl
  | cons member members ih =>
      cases members with
      | nil => simp [ofSequence]
      | cons second members =>
          rw [List.flatMap_cons, ← ih]
          rfl

theorem leaves_ofChoice (branches : List Expression) :
    (ofChoice branches).leaves = branches.flatMap leaves := by
  induction branches with
  | nil => rfl
  | cons branch branches ih =>
      cases branches with
      | nil => simp [ofChoice]
      | cons second branches =>
          rw [List.flatMap_cons, ← ih]
          rfl

theorem Level.leaves_push (level : Level) (member : Expression) :
    (level.push member).leaves = level.leaves ++ member.leaves := by
  simp [leaves, push]

theorem Level.leaves_split (level : Level) : level.split.leaves = level.leaves := by
  simp [leaves, split, leaves_ofSequence]

theorem Level.leaves_finish (level : Level) : level.finish.leaves = level.leaves := by
  rw [← level.leaves_split, finish, leaves_ofChoice]
  simp [leaves, split]

theorem Reading.leaves_step {reading next : Reading} {token : Token}
    (stepped : reading.step token = .ok next) :
    next.leaves = reading.leaves ++ token.leaves := by
  obtain ⟨current, outer⟩ := reading
  cases token with
  | atom expression =>
      obtain rfl := Except.ok.inj stepped
      simp [leaves, Token.leaves, Level.leaves_push]
  | bar =>
      obtain rfl := Except.ok.inj stepped
      simp [leaves, Token.leaves, Level.leaves_split]
  | opening =>
      rw [step] at stepped
      split at stepped
      · obtain rfl := Except.ok.inj stepped
        simp [leaves, Token.leaves, Level.leaves, Level.new]
      · contradiction
  | closing =>
      cases outer with
      | nil => contradiction
      | cons level outer =>
          obtain rfl := Except.ok.inj stepped
          simp [leaves, Token.leaves, Level.leaves_push, Expression.leaves, Level.leaves_finish]
  | fault fault => contradiction

theorem Reading.leaves_run {reading last : Reading} {tokens : List Token}
    (run : tokens.foldlM Reading.step reading = .ok last) :
    last.leaves = reading.leaves ++ tokens.flatMap Token.leaves := by
  induction tokens generalizing reading with
  | nil =>
      obtain rfl := Except.ok.inj run
      simp
  | cons token tokens ih =>
      obtain ⟨next, stepped, run⟩ := foldlM_cons_eq_ok_iff.mp run
      rw [ih run, leaves_step stepped, List.flatMap_cons, List.append_assoc]

theorem leaves_read {text : List Char} {expression : Expression}
    (read : read text = .ok expression) :
    expression.leaves = (tokens 0 (symbols text)).flatMap Token.leaves := by
  obtain ⟨⟨level, outer⟩, run, finished⟩ := (read_eq_ok_iff ..).mp read
  cases outer with
  | nil =>
      obtain ⟨rfl, -⟩ := (finish_eq_ok_iff ..).mp finished
      have whole := Reading.leaves_run run
      simpa [Reading.leaves, Reading.new, Level.new, Level.leaves_finish, Level.leaves] using whole
  | cons _ _ => contradiction

end OpenSoundControl.Expression
