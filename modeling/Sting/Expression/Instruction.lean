import Sting.Expression.Lexeme

/-!
# Stack code

Expressions are evaluated on a stack. Their lexemes are put into the order of that evaluation:
operands stand where they stood, and an operator follows its operands. Operators wait on a list of
their own until everything that binds tighter is done.
-/

namespace Sting

/-- A step of the evaluation on a stack. -/
inductive Instruction where
  | number (value : Float)
  | text (content : String)
  | word (name : String)
  /-- Replaces the operands on the stack by the result. -/
  | apply (op : Operator)
  /-- An opening parenthesis that was never closed. -/
  | unclosed
deriving DecidableEq, Repr

/-- What waits for its operands or its closing parenthesis. -/
inductive Pending where
  | operator (op : Operator)
  | opening
deriving DecidableEq, Repr

namespace Pending

/-- What is left of a pending entry when its turn has come. -/
def instruction : Pending → Instruction
  | .operator op => .apply op
  | .opening => .unclosed

/-- An operator, not a parenthesis. -/
def isOperator : Pending → Bool
  | .operator _ => true
  | .opening => false

/-- A pending operator comes before a new binary one unless the new one binds tighter. So operators
of equal precedence associate to the left. -/
def precedes (op : Operator) : Pending → Bool
  | .operator top => op.precedence ≤ top.precedence
  | .opening => false

end Pending

namespace Instruction

/-- An operator lexeme in its place: a minus where an operand is due is a negation. -/
def placed (operandDue : Bool) : Operator → Operator
  | .binary .sub => if operandDue then .unary .neg else .binary .sub
  | op => op

/-- The pending entries that a new operator releases. A unary operator stands before its operand and
so releases none. -/
def isReleasedBy (op : Operator) (entry : Pending) : Bool :=
  match op with
  | .unary _ => false
  | .binary _ => entry.precedes op

/-- The code of the remaining lexemes. `operandDue` holds at the start and after an operator or an
opening parenthesis; `pending` has the latest entry first. -/
def convert (operandDue : Bool) (pending : List Pending) : List Lexeme → List Instruction
  | [] => pending.map Pending.instruction
  | .number value :: rest => .number value :: convert false pending rest
  | .text content :: rest => .text content :: convert false pending rest
  | .word name :: rest => .word name :: convert false pending rest
  | .opening :: rest => convert true (.opening :: pending) rest
  | .closing :: rest =>
    (pending.takeWhile Pending.isOperator).map Pending.instruction ++
      convert false (pending.dropWhile Pending.isOperator).tail rest
  | .operator op :: rest =>
    let op := placed operandDue op
    (pending.takeWhile (isReleasedBy op)).map Pending.instruction ++
      convert true (.operator op :: pending.dropWhile (isReleasedBy op)) rest

/-- The code of a sequence of lexemes. -/
def ofLexemes (lexemes : List Lexeme) : List Instruction :=
  convert true [] lexemes

end Instruction

end Sting
