import OpenSoundControl.Address.ExpressionText
import OpenSoundControl.Address.Parts
import OpenSoundControl.Error
import OpenSoundControl.Expression.Reading
import OpenSoundControl.Expression.Search

/-!
Matching addresses against patterns. Parts are compared before anything else, equal texts match,
and a text without wildcards matches nothing but itself; only then does an expression decide, and
only then can a malformed pattern be an error.
-/

namespace OpenSoundControl

structure Pattern where
  text : String
  expression : Expression
  deriving DecidableEq, Repr

def Pattern.compile (text : String) : Except Error Pattern :=
  match Expression.read (Address.expressionText text).toList with
  | .ok expression => .ok ⟨text, expression⟩
  | .error fault => .error (.invalidPattern text (.expression fault))

theorem Pattern.compile_eq_ok_iff (text : String) (pattern : Pattern) :
    compile text = .ok pattern ↔ pattern.text = text ∧
      Expression.read (Address.expressionText text).toList = .ok pattern.expression := by
  unfold compile
  cases Expression.read (Address.expressionText text).toList with
  | error fault => simp
  | ok expression =>
      constructor
      · intro same
        rw [← Except.ok.inj same]
        exact ⟨rfl, rfl⟩
      · rintro ⟨rfl, same⟩
        rw [Except.ok.inj same]

theorem Pattern.compile_eq_error_iff (text : String) (error : Error) :
    compile text = .error error ↔ ∃ fault,
      Expression.read (Address.expressionText text).toList = .error fault ∧
        error = .invalidPattern text (.expression fault) := by
  unfold compile
  cases Expression.read (Address.expressionText text).toList with
  | error fault => simp [eq_comm]
  | ok expression => simp

def Pattern.search (pattern : Pattern) (address : String) : Bool :=
  pattern.expression.occursIn address.toList

def Pattern.accepts (pattern : Pattern) (address : String) : Bool :=
  Address.comparable address pattern.text &&
    (address == pattern.text || Address.hasWildcards pattern.text && pattern.search address)

namespace Address

/-- The answer that needs no expression, if there is one. -/
def decided? (address pattern : String) : Option Bool :=
  if !comparable address pattern then some false
  else if address = pattern then some true
  else if !hasWildcards pattern then some false
  else none

def test (address pattern : String) : Except Error Bool :=
  match decided? address pattern with
  | some answer => .ok answer
  | none => (Pattern.compile pattern).map fun compiled => compiled.search address

end Address

end OpenSoundControl
