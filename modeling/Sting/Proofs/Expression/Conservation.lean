import Mathlib.Data.List.Perm.Basic
import Mathlib.Data.List.TakeWhile
import Mathlib.Tactic.Common
import Sting.Expression.Instruction

/-!
# What the conversion keeps

The conversion to stack code makes nothing up and loses nothing, whatever the lexemes are. The
operands come out in their order, the operators in some other order, and an opening parenthesis
leaves a trace exactly when nothing closes it.
-/

namespace Sting

namespace Lexeme

/-- The instruction that an operand is. -/
def operand? : Lexeme → Option Instruction
  | .number value => some (.number value)
  | .text content => some (.text content)
  | .word name => some (.word name)
  | .operator _ | .opening | .closing => none

/-- The operators among the lexemes, each in its place. -/
def operators (operandDue : Bool) : List Lexeme → List Operator
  | [] => []
  | .operator op :: rest => Instruction.placed operandDue op :: operators true rest
  | .opening :: rest => operators true rest
  | .number _ :: rest | .text _ :: rest | .word _ :: rest | .closing :: rest =>
    operators false rest

/-- How many parentheses stay open after the lexemes when `depth` of them were open before. One that
closes where none is open is passed over. -/
def unmatched (depth : Nat) : List Lexeme → Nat
  | [] => depth
  | .opening :: rest => unmatched (depth + 1) rest
  | .closing :: rest => unmatched (depth - 1) rest
  | .number _ :: rest | .text _ :: rest | .word _ :: rest | .operator _ :: rest =>
    unmatched depth rest

/-- An operator comes from one of the lexemes, read by what stood before it. -/
theorem exists_of_mem_operators {due : Bool} {lexemes : List Lexeme} {op : Operator}
    (h : op ∈ operators due lexemes) :
    ∃ due op', .operator op' ∈ lexemes ∧ Instruction.placed due op' = op := by
  induction lexemes generalizing due with
  | nil => cases h
  | cons lexeme rest ih =>
      have hrest {due : Bool} (h : op ∈ operators due rest) :
          ∃ due op', .operator op' ∈ lexeme :: rest ∧ Instruction.placed due op' = op := by
        obtain ⟨due', op', hmem, hplaced⟩ := ih h
        exact ⟨due', op', List.mem_cons_of_mem _ hmem, hplaced⟩
      cases lexeme with
      | operator op' =>
          rcases List.mem_cons.mp h with rfl | h
          · exact ⟨due, op', List.mem_cons_self, rfl⟩
          · exact hrest h
      | number value => exact hrest h
      | text content => exact hrest h
      | word name => exact hrest h
      | opening => exact hrest h
      | closing => exact hrest h

end Lexeme

namespace Pending

/-- The operator that waits. -/
def operator? : Pending → Option Operator
  | .operator op => some op
  | .opening => none

end Pending

namespace Instruction

/-- Puts a value on the stack. -/
def isOperand : Instruction → Bool
  | .number _ | .text _ | .word _ => true
  | .apply _ | .unclosed => false

/-- The operator that is applied. -/
def operator? : Instruction → Option Operator
  | .apply op => some op
  | .number _ | .text _ | .word _ | .unclosed => none

/-! ## Entries that have their turn -/

/-- What waits is no operand. -/
theorem filter_isOperand_map (pending : List Pending) :
    (pending.map Pending.instruction).filter isOperand = [] := by
  rw [List.filter_eq_nil_iff, List.forall_mem_map]
  intro entry _
  cases entry <;> simp [Pending.instruction, isOperand]

/-- The operators that wait are released as they are. -/
theorem filterMap_operator?_map (pending : List Pending) :
    (pending.map Pending.instruction).filterMap operator? =
      pending.filterMap Pending.operator? := by
  rw [List.filterMap_map]
  congr 1
  funext entry
  cases entry <;> rfl

/-- An opening parenthesis that still waits is released as unclosed. -/
theorem count_unclosed_map (pending : List Pending) :
    (pending.map Pending.instruction).count .unclosed = pending.count .opening := by
  induction pending with
  | nil => rfl
  | cons entry pending ih =>
      rw [List.map_cons, List.count_cons, List.count_cons, ih]
      cases entry <;> simp [Pending.instruction]

variable {p : Pending → Bool}

/-- No parenthesis is among the entries that are released. -/
theorem count_opening_takeWhile (hp : p .opening = false) (pending : List Pending) :
    (pending.takeWhile p).count .opening = 0 := by
  rw [List.count_eq_zero]
  intro h
  have := List.mem_takeWhile_imp h
  simp [hp] at this

/-- Releasing from the top keeps the opening parentheses. -/
theorem count_opening_dropWhile (hp : p .opening = false) (pending : List Pending) :
    (pending.dropWhile p).count .opening = pending.count .opening := by
  have hsplit := congrArg (List.count .opening) (List.takeWhile_append_dropWhile (p := p)
    (l := pending))
  rwa [List.count_append, count_opening_takeWhile hp, Nat.zero_add] at hsplit

/-- A closing parenthesis takes away the latest opening one. -/
theorem count_opening_tail_dropWhile (pending : List Pending) :
    (pending.dropWhile Pending.isOperator).tail.count .opening = pending.count .opening - 1 := by
  have hcount := count_opening_dropWhile (p := Pending.isOperator) rfl pending
  cases hdrop : pending.dropWhile Pending.isOperator with
  | nil =>
      rw [hdrop] at hcount
      simp [← hcount]
  | cons entry rest =>
      have hhead := List.head?_dropWhile_not Pending.isOperator pending
      rw [hdrop] at hcount hhead
      cases entry with
      | operator op => simp [Pending.isOperator] at hhead
      | opening => simp [← hcount]

/-- The parenthesis that a closing one takes away is no operator. -/
theorem filterMap_operator?_tail_dropWhile (pending : List Pending) :
    (pending.dropWhile Pending.isOperator).tail.filterMap Pending.operator? =
      (pending.dropWhile Pending.isOperator).filterMap Pending.operator? := by
  cases hdrop : pending.dropWhile Pending.isOperator with
  | nil => rfl
  | cons entry rest =>
      have hhead := List.head?_dropWhile_not Pending.isOperator pending
      rw [hdrop] at hhead
      cases entry with
      | operator op => simp [Pending.isOperator] at hhead
      | opening => rfl

/-- No operator releases a parenthesis. -/
theorem isReleasedBy_opening (op : Operator) : isReleasedBy op .opening = false := by
  cases op <;> rfl

/-! ## The conversion -/

/-- The operands of the code are those of the lexemes, in their order. -/
theorem filter_isOperand_convert (due : Bool) (pending : List Pending) (lexemes : List Lexeme) :
    (convert due pending lexemes).filter isOperand = lexemes.filterMap Lexeme.operand? := by
  induction lexemes generalizing due pending with
  | nil => exact filter_isOperand_map pending
  | cons lexeme rest ih =>
      cases lexeme with
      | number value => exact congrArg (.number value :: ·) (ih false pending)
      | text content => exact congrArg (.text content :: ·) (ih false pending)
      | word name => exact congrArg (.word name :: ·) (ih false pending)
      | opening => exact ih true (.opening :: pending)
      | closing =>
          rw [convert, List.filter_append, filter_isOperand_map, List.nil_append, ih]
          rfl
      | operator op =>
          rw [convert, List.filter_append, filter_isOperand_map, List.nil_append, ih]
          rfl

/-- The operators of the code are those that wait and those of the lexemes. -/
theorem operators_convert (due : Bool) (pending : List Pending) (lexemes : List Lexeme) :
    ((convert due pending lexemes).filterMap operator?).Perm
      (pending.filterMap Pending.operator? ++ Lexeme.operators due lexemes) := by
  induction lexemes generalizing due pending with
  | nil =>
      rw [convert, filterMap_operator?_map, Lexeme.operators, List.append_nil]
  | cons lexeme rest ih =>
      cases lexeme with
      | number value => exact ih false pending
      | text content => exact ih false pending
      | word name => exact ih false pending
      | opening => exact ih true (.opening :: pending)
      | closing =>
          have htail := ih false (pending.dropWhile Pending.isOperator).tail
          rw [filterMap_operator?_tail_dropWhile] at htail
          rw [convert, List.filterMap_append, filterMap_operator?_map, Lexeme.operators]
          refine (htail.append_left _).trans ?_
          rw [← List.append_assoc, ← List.filterMap_append, List.takeWhile_append_dropWhile]
      | operator op =>
          have htail := ih true
            (.operator (placed due op) :: pending.dropWhile (isReleasedBy (placed due op)))
          rw [convert, List.filterMap_append, filterMap_operator?_map, Lexeme.operators]
          refine (htail.append_left _).trans ?_
          have hwaits : (Pending.operator (placed due op)).operator? = some (placed due op) := rfl
          rw [List.filterMap_cons_some hwaits, List.cons_append]
          refine List.perm_middle.trans ?_
          rw [← List.append_assoc, ← List.filterMap_append, List.takeWhile_append_dropWhile]
          exact List.perm_middle.symm

/-- What is left of parentheses counts those that nothing closes. -/
theorem count_unclosed_convert (due : Bool) (pending : List Pending) (lexemes : List Lexeme) :
    (convert due pending lexemes).count .unclosed =
      Lexeme.unmatched (pending.count .opening) lexemes := by
  induction lexemes generalizing due pending with
  | nil => exact count_unclosed_map pending
  | cons lexeme rest ih =>
      cases lexeme with
      | number value => simp [convert, Lexeme.unmatched, ih]
      | text content => simp [convert, Lexeme.unmatched, ih]
      | word name => simp [convert, Lexeme.unmatched, ih]
      | opening => simp [convert, Lexeme.unmatched, ih]
      | closing =>
          rw [convert, List.count_append, count_unclosed_map, count_opening_takeWhile rfl,
            Nat.zero_add, ih, count_opening_tail_dropWhile, Lexeme.unmatched]
      | operator op =>
          have hp := isReleasedBy_opening (placed due op)
          have hne : Pending.operator (placed due op) ≠ .opening := nofun
          rw [convert, List.count_append, count_unclosed_map, count_opening_takeWhile hp,
            Nat.zero_add, ih, List.count_cons_of_ne hne, count_opening_dropWhile hp,
            Lexeme.unmatched]

/-- An operator of the code stands among the lexemes, where a minus can be meant for it. -/
theorem exists_of_apply_mem_ofLexemes {op : Operator} {lexemes : List Lexeme}
    (h : .apply op ∈ ofLexemes lexemes) :
    ∃ due op', .operator op' ∈ lexemes ∧ placed due op' = op := by
  have hmem : op ∈ Lexeme.operators true lexemes :=
    (operators_convert true [] lexemes).mem_iff.mp (List.mem_filterMap.mpr ⟨_, h, rfl⟩)
  exact Lexeme.exists_of_mem_operators hmem

/-- Where every parenthesis is closed, none is left. -/
theorem unclosed_not_mem_ofLexemes {lexemes : List Lexeme} (h : Lexeme.unmatched 0 lexemes = 0) :
    .unclosed ∉ ofLexemes lexemes := by
  rw [← List.count_eq_zero, ofLexemes, count_unclosed_convert]
  exact h

end Instruction

end Sting
