import Sting.Proofs.Expression.Isolation

/-!
# The height of the stack

An instruction that succeeds changes the height of the stack by an amount of its own: an operand
adds one value, a binary operator takes one away, and a unary operator keeps their number. So code
that leaves a single value has one operand more than it has binary operators, and since the
conversion keeps both, so have the lexemes, however badly formed they are.
-/

namespace Sting

/-- Takes two operands. -/
def Operator.isBinary : Operator → Bool
  | .binary _ => true
  | .unary _ => false

/-- Stands for a value. -/
def Lexeme.isOperand (lexeme : Lexeme) : Bool :=
  lexeme.operand?.isSome

namespace Instruction

/-- Makes one value of two. -/
def combines : Instruction → Bool
  | .apply op => op.isBinary
  | .number _ | .text _ | .word _ | .unclosed => false

variable {env : Environment} {stack stack' : List Value}

/-- A value that is computed adds one to what was there. -/
private theorem length_push {x : Except EvalError Value} {rest : List Value}
    (h : (do return (← x) :: rest) = Except.ok stack') : stack'.length = rest.length + 1 := by
  cases x with
  | error e => cases h
  | ok value =>
      cases h
      rfl

/-- An operand makes the stack higher by one, and what combines two operands makes it lower by
one. -/
theorem length_step {i : Instruction} (h : step env stack i = .ok stack') :
    stack'.length + [i].countP combines = stack.length + [i].countP isOperand := by
  cases i with
  | number value =>
      cases h
      rfl
  | text content =>
      cases h
      rfl
  | word name => exact length_push h
  | apply op =>
      match op, stack with
      | .unary op, operand :: rest => exact length_push h
      | .unary op, [] => cases h
      | .binary op, right :: left :: rest => exact congrArg (· + 1) (length_push h)
      | .binary op, [_] => cases h
      | .binary op, [] => cases h
  | unclosed => cases h

/-- The height that code leaves depends on its instructions alone. -/
theorem length_run {code : List Instruction} (h : run env stack code = .ok stack') :
    stack'.length + code.countP combines = stack.length + code.countP isOperand := by
  induction code generalizing stack with
  | nil =>
      cases h
      rfl
  | cons i code ih =>
      obtain ⟨next, hstep, hrun⟩ := exists_step_of_run h
      have hnext := length_step hstep
      have hrest := ih hrun
      rw [← List.singleton_append, List.countP_append, List.countP_append]
      omega

/-- The instructions that combine are the binary operators. -/
theorem countP_combines (code : List Instruction) :
    code.countP combines = (code.filterMap operator?).countP Operator.isBinary := by
  rw [List.countP_filterMap]
  congr 1
  funext i
  cases i <;> rfl

/-- The code combines values as often as the lexemes have binary operators. -/
theorem countP_combines_ofLexemes (lexemes : List Lexeme) :
    (ofLexemes lexemes).countP combines =
      (Lexeme.meantOperators lexemes).countP Operator.isBinary := by
  have hoperators := (operators_convert true [] lexemes).countP_eq Operator.isBinary
  rw [countP_combines, ofLexemes, hoperators, Lexeme.meantOperators, ← Lexeme.operators_eq_meant]
  rfl

/-- The code has as many operands as the lexemes. -/
theorem countP_isOperand_ofLexemes (lexemes : List Lexeme) :
    (ofLexemes lexemes).countP isOperand = lexemes.countP Lexeme.isOperand := by
  rw [List.countP_eq_length_filter, ofLexemes, filter_isOperand_convert,
    List.length_filterMap_eq_countP]
  rfl

end Instruction

/-- Where the count with a depth finds nothing open, every opening parenthesis has its partner. -/
theorem Lexeme.not_isUnmatched_of_unmatched {lexemes : List Lexeme} (h : unmatched 0 lexemes = 0)
    (i : Nat) : ¬ IsUnmatched lexemes i := by
  rw [unmatched_eq_ncard, Set.ncard_eq_zero (finite_isUnmatched lexemes)] at h
  exact Set.eq_empty_iff_forall_notMem.mp h i

namespace Expression

open Lexeme

/-- An expression has a value only if every opening parenthesis of its source has a partner and
there is one operand more than there are binary operators. A minus counts as one of them unless an
operand is due in its place. -/
theorem counts_of_evaluate {source : String} {env : Environment} {value : Value}
    (h : (compile source).evaluate env = .ok value) :
    (∀ i, ¬ IsUnmatched (scan source.toList) i) ∧
      (scan source.toList).countP isOperand =
        (meantOperators (scan source.toList)).countP Operator.isBinary + 1 := by
  have hrun : Instruction.run env [] (Instruction.ofLexemes (scan source.toList)) = .ok [value] :=
    run_of_evaluate h
  constructor
  · have hclosed := List.count_eq_zero.mpr (Instruction.unclosed_not_mem_of_run hrun)
    rw [Instruction.ofLexemes, Instruction.count_unclosed_convert] at hclosed
    exact not_isUnmatched_of_unmatched hclosed
  · have hlength := Instruction.length_run hrun
    rw [Instruction.countP_combines_ofLexemes, Instruction.countP_isOperand_ofLexemes,
      List.length_nil, Nat.zero_add, List.length_singleton] at hlength
    rw [← hlength, Nat.add_comm]

/-- A stray parenthesis, an operator behind both of its operands, and a minus of either kind. -/
theorem counts_of_evaluate_disordered :
    let source := "x 2 ) - ( - 3 ) *"
    (compile source).evaluate (.ofList [("x", .number 1)]) = .ok (.number 7) ∧
      (∀ i, ¬ IsUnmatched (scan source.toList) i) ∧
      (scan source.toList).countP isOperand = 3 ∧
      (meantOperators (scan source.toList)).countP Operator.isBinary = 2 := by
  intro source
  have hvalue : (compile source).evaluate (.ofList [("x", .number 1)]) = .ok (.number 7) := by
    decide +kernel
  have hoperators : (meantOperators (scan source.toList)).countP Operator.isBinary = 2 := by
    decide +kernel
  obtain ⟨hclosed, hcount⟩ := counts_of_evaluate hvalue
  rw [hoperators] at hcount
  exact ⟨hvalue, hclosed, hcount, hoperators⟩

end Expression

end Sting
