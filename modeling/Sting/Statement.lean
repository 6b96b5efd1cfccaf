import Sting.Expression
import Sting.Value

/-!
# Statements

A program is a sequence of statements. Conditionals and loops own the statements of their bodies, so
a program is a tree.
-/

namespace Sting

/-- An arm of a conditional, with bodies made of `α`. -/
structure Branch (α : Type) where
  /-- Absent in an `else` arm, which always matches. -/
  condition : Option Expression
  body : List α
deriving DecidableEq

/-- A statement. -/
inductive Statement where
  /-- Binds a variable to the value of an expression; without a declared type it takes the type of
  the value. -/
  | assign (name : String) (declared : Option TypeTag) (expression : Expression)
  /-- Shows a prompt and binds a variable to what is typed. -/
  | input (name : String) (declared : TypeTag) (prompt : String)
  /-- Shows its arguments on a line. -/
  | output (args : List String)
  /-- Runs the first arm whose condition holds. -/
  | conditional (branches : List (Branch Statement))
  /-- Runs the body as long as the condition holds. -/
  | loop (condition : Expression) (body : List Statement)
  /-- Leaves the innermost loop. -/
  | stop

namespace Statement

/-- The name of the statement's form. -/
def label : Statement → String
  | .assign .. => "assign"
  | .input .. => "input"
  | .output .. => "output"
  | .conditional .. => "conditional"
  | .loop .. => "loop"
  | .stop => "stop"

/-! ## Equality is decidable -/

mutual

/-- Decides whether two statements are equal. -/
def decEq : (a b : Statement) → Decidable (a = b)
  | .assign n₁ d₁ e₁, .assign n₂ d₂ e₂ =>
    decidable_of_iff (n₁ = n₂ ∧ d₁ = d₂ ∧ e₁ = e₂) (by simp)
  | .input n₁ d₁ p₁, .input n₂ d₂ p₂ =>
    decidable_of_iff (n₁ = n₂ ∧ d₁ = d₂ ∧ p₁ = p₂) (by simp)
  | .output a₁, .output a₂ => decidable_of_iff (a₁ = a₂) (by simp)
  | .conditional b₁, .conditional b₂ =>
    have := decEqBranches b₁ b₂
    decidable_of_iff (b₁ = b₂) (by simp)
  | .loop c₁ b₁, .loop c₂ b₂ =>
    have := decEqBody b₁ b₂
    decidable_of_iff (c₁ = c₂ ∧ b₁ = b₂) (by simp)
  | .stop, .stop => isTrue rfl
  | .assign .., .input .. | .assign .., .output .. | .assign .., .conditional ..
  | .assign .., .loop .. | .assign .., .stop => isFalse (by simp)
  | .input .., .assign .. | .input .., .output .. | .input .., .conditional ..
  | .input .., .loop .. | .input .., .stop => isFalse (by simp)
  | .output .., .assign .. | .output .., .input .. | .output .., .conditional ..
  | .output .., .loop .. | .output .., .stop => isFalse (by simp)
  | .conditional .., .assign .. | .conditional .., .input .. | .conditional .., .output ..
  | .conditional .., .loop .. | .conditional .., .stop => isFalse (by simp)
  | .loop .., .assign .. | .loop .., .input .. | .loop .., .output ..
  | .loop .., .conditional .. | .loop .., .stop => isFalse (by simp)
  | .stop, .assign .. | .stop, .input .. | .stop, .output .. | .stop, .conditional ..
  | .stop, .loop .. => isFalse (by simp)

/-- Decides whether two bodies are equal. -/
def decEqBody : (a b : List Statement) → Decidable (a = b)
  | [], [] => isTrue rfl
  | [], _ :: _ | _ :: _, [] => isFalse (by simp)
  | a :: as, b :: bs =>
    have := decEq a b
    have := decEqBody as bs
    decidable_of_iff (a = b ∧ as = bs) (by simp)

/-- Decides whether two sequences of arms are equal. -/
def decEqBranches : (a b : List (Branch Statement)) → Decidable (a = b)
  | [], [] => isTrue rfl
  | [], _ :: _ | _ :: _, [] => isFalse (by simp)
  | ⟨c₁, b₁⟩ :: as, ⟨c₂, b₂⟩ :: bs =>
    have := decEqBody b₁ b₂
    have := decEqBranches as bs
    decidable_of_iff ((c₁ = c₂ ∧ b₁ = b₂) ∧ as = bs) (by simp)

end

instance : DecidableEq Statement :=
  decEq

end Statement

end Sting
