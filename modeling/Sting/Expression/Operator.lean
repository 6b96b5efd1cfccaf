/-!
# Operators

The operators of expressions, their symbols and how tightly they bind.
-/

namespace Sting

/-- An operator before its single operand. -/
inductive UnaryOperator where
  | neg
  | not
deriving DecidableEq, Repr

/-- An operator between its two operands. -/
inductive BinaryOperator where
  | or
  | and
  | eq
  | ne
  | lt
  | gt
  | le
  | ge
  | add
  | sub
  | mul
  | div
  | rem
  | pow
deriving DecidableEq, Repr

/-- Any operator. -/
inductive Operator where
  | unary (op : UnaryOperator)
  | binary (op : BinaryOperator)
deriving DecidableEq, Repr

namespace UnaryOperator

/-- The operator as it is written. -/
def symbol : UnaryOperator → String
  | .neg => "-"
  | .not => "!"

end UnaryOperator

namespace BinaryOperator

/-- The operator as it is written. -/
def symbol : BinaryOperator → String
  | .or => "||"
  | .and => "&&"
  | .eq => "=="
  | .ne => "!="
  | .lt => "<"
  | .gt => ">"
  | .le => "<="
  | .ge => ">="
  | .add => "+"
  | .sub => "-"
  | .mul => "*"
  | .div => "/"
  | .rem => "%"
  | .pow => "^"

/-- A higher number binds tighter. -/
def precedence : BinaryOperator → Nat
  | .or => 0
  | .and => 1
  | .eq | .ne | .lt | .gt | .le | .ge => 2
  | .add | .sub => 3
  | .mul | .div | .rem => 4
  | .pow => 6

end BinaryOperator

namespace Operator

/-- The operator as it is written. -/
def symbol : Operator → String
  | .unary op => op.symbol
  | .binary op => op.symbol

/-- The unary operators bind tighter than all but the power. -/
def precedence : Operator → Nat
  | .unary _ => 5
  | .binary op => op.precedence

end Operator

end Sting
