import Sting.Position

/-!
# Diagnostics

What is reported when a run fails: the kind of the failure, a message, and the place if the source
text is at fault.
-/

namespace Sting

/-- The kinds of failures. -/
inductive Diagnostic.Kind where
  | syntaxError
  | typeMismatch
  | invalidInput
  | arithmetic
  | operand
  | unexpectedToken
  | inputOutput
deriving DecidableEq, Repr

/-- A failure as it is reported. -/
structure Diagnostic where
  kind : Diagnostic.Kind
  message : String
  /-- Where the source text is at fault. -/
  position : Option Position
deriving DecidableEq, Repr

namespace Diagnostic

namespace Kind

/-- The stable name of a kind. -/
def code : Kind → String
  | .syntaxError => "syntax-error"
  | .typeMismatch => "type-mismatch"
  | .invalidInput => "invalid-input"
  | .arithmetic => "arithmetic-error"
  | .operand => "operand-error"
  | .unexpectedToken => "unexpected-token"
  | .inputOutput => "io-error"

/-- The kind with this name. -/
def ofCode? : String → Option Kind
  | "syntax-error" => some .syntaxError
  | "type-mismatch" => some .typeMismatch
  | "invalid-input" => some .invalidInput
  | "arithmetic-error" => some .arithmetic
  | "operand-error" => some .operand
  | "unexpected-token" => some .unexpectedToken
  | "io-error" => some .inputOutput
  | _ => none

/-- The message of a failure of this kind about a text. Two kinds introduce the text. -/
def message (kind : Kind) (text : String) : String :=
  match kind with
  | .unexpectedToken => "Unexpected token in expression: " ++ text
  | .inputOutput => "I/O error: " ++ text
  | _ => text

end Kind

/-- The diagnostic of a kind about a text. -/
def about (kind : Kind) (text : String) (position : Option Position) : Diagnostic :=
  ⟨kind, kind.message text, position⟩

/-- The place, the message and the kind on one line. -/
def render (d : Diagnostic) : String :=
  let place :=
    match d.position with
    | some p => p.render ++ ": "
    | none => ""
  place ++ d.message ++ " (" ++ d.kind.code ++ ")"

end Diagnostic

end Sting
