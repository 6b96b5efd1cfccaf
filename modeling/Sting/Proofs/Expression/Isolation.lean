import Sting.Proofs.Expression.Conversion
import Sting.Proofs.Expression.Parentheses

/-!
# Code in isolation

Balanced lexemes between parentheses are converted as they are on their own, whatever waits outside,
and code that runs on an empty stack runs in the same way above other values. So an expression in
parentheses has one value wherever it stands. None of this needs the expression to be well formed.
-/

namespace Sting

namespace Instruction

/-! ## Conversion between parentheses -/

/-- Some lexemes put out code and change what waits since the last parenthesis, and what is pending
below that makes no difference to them. -/
def Isolated (due : Bool) (waiting : List Operator) (lexemes : List Lexeme)
    (out : List Instruction) (due' : Bool) (waiting' : List Operator) : Prop :=
  ∀ base rest, (∀ entry ∈ base.head?, entry = Pending.opening) →
    convert due (waiting.map .operator ++ base) (lexemes ++ rest) =
      out ++ convert due' (waiting'.map .operator ++ base) rest

variable {due due' : Bool} {waiting waiting' : List Operator} {lexemes : List Lexeme}
  {out : List Instruction}

/-- An operand is put out at once. -/
theorem Isolated.operand {lexeme : Lexeme} {i : Instruction}
    (h : Isolated false waiting lexemes out due' waiting')
    (hi : ∀ due pending rest,
      convert due pending (lexeme :: rest) = i :: convert false pending rest) :
    Isolated due waiting (lexeme :: lexemes) (i :: out) due' waiting' := by
  intro base rest hbase
  rw [List.cons_append, hi, h base rest hbase, List.cons_append]

/-- An operator releases no more than what waits since the last parenthesis. -/
theorem Isolated.operator {op : Operator}
    (h : Isolated true
      (placed due op :: waiting.dropWhile fun top => isReleasedBy (placed due op) (.operator top))
      lexemes out due' waiting') :
    Isolated due waiting (.operator op :: lexemes)
      ((waiting.takeWhile fun top => isReleasedBy (placed due op) (.operator top)).map .apply ++
        out) due' waiting' := by
  intro base rest hbase
  have hkept : ∀ entry ∈ base.head?, isReleasedBy (placed due op) entry = false := by
    intro entry hentry
    rw [hbase entry hentry, isReleasedBy_opening]
  obtain ⟨htake, hdrop⟩ := Text.span_append (waiting.map Pending.operator) hkept
  rw [List.takeWhile_map] at htake
  rw [List.dropWhile_map] at hdrop
  have hrest := h base rest hbase
  rw [List.map_cons, List.cons_append] at hrest
  rw [List.cons_append, convert, htake, hdrop, List.map_map, List.append_assoc]
  exact congrArg (_ ++ ·) hrest

private theorem eq_opening_of_mem_head? {pending : List Pending} :
    ∀ entry ∈ (Pending.opening :: pending).head?, entry = .opening :=
  fun _ hentry => (Option.some.inj hentry).symm

/-- Parentheses put out all that waits between them. -/
theorem Isolated.enclosed {inner : List Lexeme} {out' : List Instruction} {dueInner : Bool}
    {waitingInner : List Operator} (hinner : Isolated true [] inner out dueInner waitingInner)
    (h : Isolated false waiting lexemes out' due' waiting') :
    Isolated due waiting (.opening :: (inner ++ .closing :: lexemes))
      (out ++ waitingInner.map .apply ++ out') due' waiting' := by
  intro base rest hbase
  have hinside := hinner (.opening :: (waiting.map .operator ++ base))
    (.closing :: (lexemes ++ rest)) eq_opening_of_mem_head?
  rw [List.map_nil, List.nil_append] at hinside
  rw [List.cons_append, List.append_assoc, List.cons_append, convert, hinside,
    Tree.convert_closing, h base rest hbase, List.append_assoc, List.append_assoc]

/-- Balanced lexemes are converted apart from what waits below them. -/
theorem exists_isolated (h : Lexeme.Balanced lexemes) (due : Bool) (waiting : List Operator) :
    ∃ out due' waiting', Isolated due waiting lexemes out due' waiting' := by
  induction h generalizing due waiting with
  | nil => exact ⟨[], due, waiting, fun _ _ _ => rfl⟩
  | @cons lexeme rest h _ ih =>
      have hoperand {i : Instruction} (hi : ∀ due pending rest,
          convert due pending (lexeme :: rest) = i :: convert false pending rest) :
          ∃ out due' waiting', Isolated due waiting (lexeme :: rest) out due' waiting' := by
        obtain ⟨out, due', waiting', hrest⟩ := ih false waiting
        exact ⟨i :: out, due', waiting', hrest.operand hi⟩
      cases lexeme with
      | opening => cases h
      | closing => cases h
      | number value => exact hoperand fun _ _ _ => rfl
      | text content => exact hoperand fun _ _ _ => rfl
      | word name => exact hoperand fun _ _ _ => rfl
      | operator op =>
          obtain ⟨out, due', waiting', hrest⟩ := ih true (placed due op ::
            waiting.dropWhile fun top => isReleasedBy (placed due op) (.operator top))
          exact ⟨_, due', waiting', hrest.operator⟩
  | enclosed _ _ ihinner ihrest =>
      obtain ⟨out, dueInner, waitingInner, hinner⟩ := ihinner true []
      obtain ⟨out', due', waiting', hrest⟩ := ihrest false waiting
      exact ⟨_, due', waiting', hinner.enclosed hrest⟩

/-- What stands between parentheses has the code that it has alone. -/
theorem convert_parenthesized (h : Lexeme.Balanced lexemes) (due : Bool) (pending : List Pending)
    (rest : List Lexeme) :
    convert due pending (.opening :: (lexemes ++ .closing :: rest)) =
      ofLexemes lexemes ++ convert false pending rest := by
  obtain ⟨out, due', waiting, hisolated⟩ := exists_isolated h true []
  have halone : ofLexemes lexemes = out ++ waiting.map .apply := by
    have hnothing := hisolated [] [] nofun
    rw [List.map_nil, List.append_nil, List.append_nil, List.append_nil, convert,
      List.map_map] at hnothing
    exact hnothing
  have hinside := hisolated (.opening :: pending) (.closing :: rest) eq_opening_of_mem_head?
  rw [List.map_nil, List.nil_append] at hinside
  rw [convert, hinside, Tree.convert_closing, halone, List.append_assoc]

/-- The code of a word, an operator and an expression in parentheses. -/
theorem ofLexemes_accumulated (h : Lexeme.Balanced lexemes) (name : String) (op : BinaryOperator) :
    ofLexemes (.word name :: .operator (.binary op) :: .opening :: (lexemes ++ [.closing])) =
      .word name :: (ofLexemes lexemes ++ [.apply (.binary op)]) := by
  have hplaced : placed false (.binary op) = .binary op := by
    cases op <;> rfl
  rw [ofLexemes, convert, convert, hplaced, convert_parenthesized h]
  rfl

/-! ## Running above other values -/

variable {env : Environment} {stack stack' : List Value}

/-- A value that is computed is pushed above whatever is there. -/
private theorem push_above {x : Except EvalError Value} {rest : List Value}
    (h : (do return (← x) :: rest) = Except.ok stack') (below : List Value) :
    (do return (← x) :: (rest ++ below)) = Except.ok (stack' ++ below) := by
  cases x with
  | error e => cases h
  | ok value =>
      cases h
      rfl

/-- A step that succeeds does the same above other values. -/
theorem step_above {i : Instruction} (h : step env stack i = .ok stack') (below : List Value) :
    step env (stack ++ below) i = .ok (stack' ++ below) := by
  cases i with
  | number value =>
      cases h
      rfl
  | text content =>
      cases h
      rfl
  | word name => exact push_above h below
  | apply op =>
      match op, stack with
      | .unary op, operand :: rest => exact push_above h below
      | .unary op, [] => cases h
      | .binary op, right :: left :: rest => exact push_above h below
      | .binary op, [_] => cases h
      | .binary op, [] => cases h
  | unclosed => cases h

/-- Code succeeds when its first instruction does and then the others do. -/
theorem exists_step_of_run {i : Instruction} {code : List Instruction}
    (h : run env stack (i :: code) = .ok stack') :
    ∃ next, step env stack i = .ok next ∧ run env next code = .ok stack' := by
  rw [run_cons] at h
  cases hstep : step env stack i with
  | error e =>
      rw [hstep] at h
      cases h
  | ok next =>
      rw [hstep] at h
      exact ⟨next, rfl, h⟩

/-- Code that succeeds takes no value that it has not put there. -/
theorem run_above {code : List Instruction} (h : run env stack code = .ok stack')
    (below : List Value) : run env (stack ++ below) code = .ok (stack' ++ below) := by
  induction code generalizing stack with
  | nil =>
      cases h
      rfl
  | cons i code ih =>
      obtain ⟨next, hstep, hrun⟩ := exists_step_of_run h
      rw [run_cons, step_above hstep below]
      exact ih hrun

/-- Code that is put together runs in sequence. -/
theorem run_append (env : Environment) (stack : List Value) (code code' : List Instruction) :
    run env stack (code ++ code') = run env stack code >>= fun stack => run env stack code' :=
  List.foldlM_append

/-- Code that succeeds has no parenthesis left open. -/
theorem unclosed_not_mem_of_run {code : List Instruction} (h : run env stack code = .ok stack') :
    .unclosed ∉ code := by
  induction code generalizing stack with
  | nil => exact List.not_mem_nil
  | cons i code ih =>
      obtain ⟨next, hstep, hrun⟩ := exists_step_of_run h
      rw [List.mem_cons, not_or]
      refine ⟨?_, ih hrun⟩
      rintro rfl
      cases hstep

end Instruction

namespace Expression

variable {env : Environment}

/-- An expression with a value leaves this value alone on the stack. -/
theorem run_of_evaluate {e : Expression} {value : Value} (h : e.evaluate env = .ok value) :
    Instruction.run env [] e.code = .ok [value] := by
  rw [evaluate] at h
  cases hrun : Instruction.run env [] e.code with
  | error failure =>
      rw [hrun] at h
      cases h
  | ok stack =>
      rw [hrun] at h
      rcases stack with _ | ⟨top, _ | ⟨next, stack⟩⟩
      · cases h
      · cases h
        rfl
      · cases h

/-- An operator between a word and code that runs alone is applied to their two values. -/
theorem evaluate_accumulated {e : Expression} {name : String} {code : List Instruction}
    {op : BinaryOperator} {left right : Value}
    (hcode : e.code = .word name :: (code ++ [.apply (.binary op)]))
    (hleft : env.lookup name = .ok left) (hright : Instruction.run env [] code = .ok [right]) :
    e.evaluate env = op.apply left right := by
  have hword : Instruction.step env [] (.word name) = .ok [left] := by
    rw [Instruction.step, hleft]
    rfl
  have habove : Instruction.run env [left] code = .ok [right, left] :=
    Instruction.run_above hright [left]
  have hrun : Instruction.run env [] e.code = op.apply left right >>= fun value => .ok [value] := by
    rw [hcode, Instruction.run_cons, hword]
    change Instruction.run env [left] (code ++ [.apply (.binary op)]) = _
    rw [Instruction.run_append, habove]
    change Instruction.run env [right, left] [.apply (.binary op)] = _
    rw [Instruction.run_cons, Instruction.step]
    cases op.apply left right <;> rfl
  rw [evaluate, hrun]
  cases op.apply left right <;> rfl

end Expression

end Sting
