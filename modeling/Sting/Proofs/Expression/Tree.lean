import Mathlib.Tactic.Common
import Sting.Expression.Evaluation

/-!
# Expression trees

A tree shows which operator takes which operands, without parentheses or precedence. Its value is
found by direct recursion, left operand first. The stack machine that runs the postorder of a tree
pushes exactly that value, or stops with exactly the error of the recursion.
-/

namespace Sting

/-- An expression with its operands in place. -/
inductive Tree where
  | number (value : Float)
  | text (content : String)
  | word (name : String)
  | unary (op : UnaryOperator) (operand : Tree)
  | binary (op : BinaryOperator) (left right : Tree)
deriving DecidableEq, Repr

/-- Code runs one instruction after the other; the first error ends it. -/
theorem Instruction.run_cons (env : Environment) (stack : List Value) (i : Instruction)
    (code : List Instruction) :
    run env stack (i :: code) = step env stack i >>= fun stack => run env stack code :=
  List.foldlM_cons

namespace Tree

/-- The operands of each operator in order, and then the operator. -/
def postorder : Tree → List Instruction
  | .number value => [.number value]
  | .text content => [.text content]
  | .word name => [.word name]
  | .unary op operand => operand.postorder ++ [.apply (.unary op)]
  | .binary op left right => left.postorder ++ right.postorder ++ [.apply (.binary op)]

/-- The value of a tree. Both operands of a binary operator have values before it is applied. -/
def evaluate (env : Environment) : Tree → Except EvalError Value
  | .number value => .ok (.number value)
  | .text content => .ok (.text content)
  | .word name => env.lookup name
  | .unary op operand => do
    let x ← operand.evaluate env
    op.apply x
  | .binary op left right => do
    let x ← left.evaluate env
    let y ← right.evaluate env
    op.apply x y

/-- The postorder of a tree, run before any other code, pushes the value of the tree. -/
theorem run_postorder_append (env : Environment) (t : Tree) (stack : List Value)
    (code : List Instruction) :
    Instruction.run env stack (t.postorder ++ code) =
      t.evaluate env >>= fun value => Instruction.run env (value :: stack) code := by
  induction t generalizing stack code with
  | number value => rfl
  | text content => rfl
  | word name =>
      rw [postorder, List.singleton_append, Instruction.run_cons]
      simp only [evaluate, Instruction.step, bind_assoc, pure_bind]
  | unary op operand ih =>
      rw [postorder, List.append_assoc, ih]
      simp only [List.singleton_append, Instruction.run_cons, evaluate, Instruction.step,
        bind_assoc, pure_bind]
  | binary op left right ihl ihr =>
      rw [postorder, List.append_assoc, List.append_assoc, ihl]
      simp only [ihr, List.singleton_append, Instruction.run_cons, evaluate, Instruction.step,
        bind_assoc, pure_bind]

/-- On an empty stack nothing but the value is left. -/
theorem run_postorder (env : Environment) (t : Tree) :
    Instruction.run env [] t.postorder = t.evaluate env >>= fun value => .ok [value] := by
  have h := run_postorder_append env t [] []
  rw [List.append_nil] at h
  exact h

/-- An expression whose code is the postorder of a tree has the value of the tree, or its error. -/
theorem evaluate_of_code_eq {e : Expression} {t : Tree} (h : e.code = t.postorder)
    (env : Environment) : e.evaluate env = t.evaluate env := by
  rw [Expression.evaluate, h, run_postorder]
  cases t.evaluate env <;> rfl

end Tree

end Sting
