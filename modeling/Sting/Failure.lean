import Sting.Expression.Evaluation
import Sting.Statement.Reader

/-!
# Failures of a run

Everything that ends a run early, apart from a `stop`.
-/

namespace Sting

/-- Why a run failed. -/
inductive Failure where
  /-- The text is no program. -/
  | malformed (error : SyntaxError)
  /-- An expression has no value. -/
  | valueless (error : EvalError)
  /-- A variable of another type was to be bound to this type. -/
  | retyped (name : String) (tag : TypeTag)
  /-- A variable declared with this type was to be bound to a value of another one. -/
  | mistyped (name : String) (tag : TypeTag)
  /-- Nothing is left to be typed for a variable. -/
  | noInput (name : String)
  /-- What was typed for a variable is no number. -/
  | notNumeric (name : String)
  /-- Reading or writing failed. -/
  | device (reason : String)
deriving DecidableEq, Repr

namespace Failure

/-- The failure as it is reported. -/
def diagnostic : Failure → Diagnostic
  | .malformed error => error.diagnostic
  | .valueless error => error.diagnostic
  | .retyped name tag =>
    .about .typeMismatch
      ("Type mismatch: '" ++ name ++ "' was previously not " ++ tag.describe) none
  | .mistyped name tag =>
    .about .typeMismatch ("Type mismatch: expected " ++ tag.keyword ++ " for '" ++ name ++ "'") none
  | .noInput name =>
    .about .invalidInput ("No input available for variable '" ++ name ++ "'") none
  | .notNumeric name =>
    .about .invalidInput ("Invalid input for number variable '" ++ name ++ "'") none
  | .device reason => .about .inputOutput reason none

end Failure

end Sting
