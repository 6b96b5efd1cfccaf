import Sting.Diagnostic
import Sting.Environment
import Sting.Expression
import Sting.Text.Letters

/-!
# Evaluation

The value of an expression in an environment, or the reason why it has none. As a condition, every
expression is true or false: one without a value is false.
-/

namespace Sting

/-- Why an expression has no value. -/
inductive EvalError where
  | divisionByZero
  | missingOperand (op : Operator)
  | notANumber (value : Value)
  | invalidOperand (op : Operator) (value : Value)
  | incomparable (left right : Value) (op : Operator)
  | notSingle (source : String)
  | unexpected (token : String)
deriving DecidableEq, Repr

namespace EvalError

/-- The kind of failure that an error is. -/
def kind : EvalError → Diagnostic.Kind
  | .divisionByZero => .arithmetic
  | .unexpected _ => .unexpectedToken
  | _ => .operand

/-- What the message says, before the words that its kind puts in front. -/
def text : EvalError → String
  | .divisionByZero => "Division by zero error"
  | .missingOperand op => "Missing operand for '" ++ op.symbol ++ "'"
  | .notANumber value => "Expected a number but got: " ++ value.render
  | .invalidOperand op value => "Invalid operand for '" ++ op.symbol ++ "': " ++ value.render
  | .incomparable left right op =>
    "Cannot compare " ++ left.render ++ " and " ++ right.render ++ " with '" ++ op.symbol ++ "'"
  | .notSingle source => "Expression '" ++ source ++ "' does not produce a single value"
  | .unexpected token => token

/-- The error as it is reported; it has no place in the source text. -/
def diagnostic (e : EvalError) : Diagnostic :=
  .about e.kind e.text none

end EvalError

namespace Value

/-- The number that an arithmetic operator needs. -/
def toNumber (value : Value) : Except EvalError Float :=
  match value.asNumber? with
  | some x => .ok x
  | none => .error (.notANumber value)

/-- The truth value that a logical operator needs. -/
def toBoolean (op : Operator) (value : Value) : Except EvalError Bool :=
  match value.asBoolean? with
  | some truth => .ok truth
  | none => .error (.invalidOperand op value)

end Value

namespace UnaryOperator

/-- The result of a unary operator on a value. -/
def apply (op : UnaryOperator) (operand : Value) : Except EvalError Value :=
  match op with
  | .neg => do return .number (-(← operand.toNumber))
  | .not => do return .boolean (!(← operand.toBoolean (.unary .not)))

end UnaryOperator

namespace BinaryOperator

/-- Arithmetic on two numbers; the left operand is checked first. -/
def arithmetic (f : Float → Float → Float) (left right : Value) : Except EvalError Value := do
  let x ← left.toNumber
  let y ← right.toNumber
  return .number (f x y)

/-- Two numbers are added; a text on either side makes the sum a joined text. -/
def sum (left right : Value) : Except EvalError Value :=
  if left.tag = .text ∨ right.tag = .text then .ok (.text (left.render ++ right.render))
  else arithmetic (· + ·) left right

/-- No number is divided by either zero. -/
def quotient (left right : Value) : Except EvalError Value := do
  let x ← left.toNumber
  let y ← right.toNumber
  if Number.isNonzero y then return .number (x / y) else throw .divisionByZero

/-- A left operand equal to `decisive` settles the result, and then the right one is not looked
at. -/
def logical (op : BinaryOperator) (decisive : Bool) (left right : Value) :
    Except EvalError Value := do
  let x ← left.toBoolean (.binary op)
  if x = decisive then return .boolean decisive
  else return .boolean (← right.toBoolean (.binary op))

/-- Whether two numbers are in the order that a comparison asks for. -/
def comparesNumbers (op : BinaryOperator) (x y : Float) : Bool :=
  match op with
  | .lt => x < y
  | .gt => y < x
  | .le => x ≤ y
  | .ge => y ≤ x
  | .eq => x == y
  | _ => !(x == y)

/-- Two numbers are compared as numbers. Any other two values are only equal or not, as their texts
are. -/
def compare (op : BinaryOperator) (left right : Value) : Except EvalError Bool :=
  match left, right with
  | .number x, .number y => .ok (op.comparesNumbers x y)
  | _, _ =>
    match op with
    | .eq => .ok (left.render == right.render)
    | .ne => .ok (!(left.render == right.render))
    | _ => .error (.incomparable left right (.binary op))

/-- The result of a binary operator on two values. -/
def apply (op : BinaryOperator) (left right : Value) : Except EvalError Value :=
  match op with
  | .or => logical .or true left right
  | .and => logical .and false left right
  | .add => sum left right
  | .sub => arithmetic (· - ·) left right
  | .mul => arithmetic (· * ·) left right
  | .div => quotient left right
  | .rem => arithmetic Number.rem left right
  | .pow => arithmetic Float.pow left right
  | .eq | .ne | .lt | .gt | .le | .ge => do return .boolean (← compare op left right)

end BinaryOperator

namespace Environment

/-- The value of a word: the truth values, in any case, come before the variables. -/
def lookup (env : Environment) (word : String) : Except EvalError Value :=
  if Text.sameLetters word "true" then .ok (.boolean true)
  else if Text.sameLetters word "false" then .ok (.boolean false)
  else
    match env.get? word with
    | some value => .ok value
    | none => .error (.unexpected word)

end Environment

namespace Instruction

/-- One instruction on a stack with the latest value first. -/
def step (env : Environment) (stack : List Value) : Instruction → Except EvalError (List Value)
  | .number value => .ok (.number value :: stack)
  | .text content => .ok (.text content :: stack)
  | .word name => do return (← env.lookup name) :: stack
  | .apply (.unary op) =>
    match stack with
    | operand :: rest => do return (← op.apply operand) :: rest
    | [] => .error (.missingOperand (.unary op))
  | .apply (.binary op) =>
    match stack with
    | right :: left :: rest => do return (← op.apply left right) :: rest
    | _ => .error (.missingOperand (.binary op))
  | .unclosed => .error (.unexpected "(")

/-- All instructions of a code in turn. -/
def run (env : Environment) (stack : List Value) (code : List Instruction) :
    Except EvalError (List Value) :=
  code.foldlM (step env) stack

end Instruction

namespace Expression

/-- The value of an expression. Its code has to leave exactly one value on the stack. -/
def evaluate (e : Expression) (env : Environment) : Except EvalError Value := do
  match ← Instruction.run env [] e.code with
  | [value] => return value
  | _ => throw (.notSingle e.source)

/-- An expression as a condition. -/
def holds (e : Expression) (env : Environment) : Bool :=
  match e.evaluate env with
  | .ok value => value.isTrue
  | .error _ => false

end Expression

end Sting
