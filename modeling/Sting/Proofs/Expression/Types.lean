import Sting.Proofs.Expression.Tree

/-!
# Types of expressions

The code of an expression can be run on types instead of values. That tells the type of its value,
or the kind of its error, from the types of its variables alone. Two things are told only by values:
whether a division is by zero, and whether the left operand of a logical operator settles its
result, so that an operand of a wrong type on the right is overlooked.
-/

namespace Sting

/-- What is known of a result without the values: the types in it, or the kind of its error. -/
def verdict {α β : Type} (types : α → β) : Except EvalError α → Except Diagnostic.Kind β
  | .ok a => .ok (types a)
  | .error e => .error e.kind

/-- A verdict is an error of a kind exactly if the result is one. -/
theorem verdict_eq_error_iff {result : Except EvalError Value} {kind : Diagnostic.Kind} :
    verdict Value.tag result = .error kind ↔
      ∃ error, result = .error error ∧ error.kind = kind := by
  cases result <;> simp [verdict]

/-- Verdicts agree exactly if both results are values of one type or errors of one kind. -/
theorem verdict_eq_iff {result result' : Except EvalError Value} :
    verdict Value.tag result = verdict Value.tag result' ↔
      (∃ value value', result = .ok value ∧ result' = .ok value' ∧ value.tag = value'.tag) ∨
      ∃ error error', result = .error error ∧ result' = .error error' ∧
        error.kind = error'.kind := by
  cases result <;> cases result' <;> simp [verdict]

/-! ## Checking types -/

/-- The type that a unary operator gives to an operand. -/
def UnaryOperator.check : UnaryOperator → TypeTag → Except Diagnostic.Kind TypeTag
  | .neg, .number => .ok .number
  | .not, .boolean => .ok .boolean
  | _, _ => .error .operand

namespace BinaryOperator

/-- The result of an operator that needs both operands to be of one type. -/
def both (needed result left right : TypeTag) : Except Diagnostic.Kind TypeTag :=
  if left = needed ∧ right = needed then .ok result else .error .operand

/-- The type that a binary operator gives to its operands. -/
def check (op : BinaryOperator) (left right : TypeTag) : Except Diagnostic.Kind TypeTag :=
  match op with
  | .or | .and => both .boolean .boolean left right
  | .add =>
    if left = .text ∨ right = .text then .ok .text else both .number .number left right
  | .sub | .mul | .div | .rem | .pow => both .number .number left right
  | .eq | .ne => .ok .boolean
  | .lt | .gt | .le | .ge => both .number .boolean left right

/-- The left operand settles the result of a logical operator, and the right one is no truth
value. -/
def overlooks (op : BinaryOperator) (left right : Value) : Bool :=
  match op, left with
  | .or, .boolean true | .and, .boolean false => right.tag != .boolean
  | _, _ => false

end BinaryOperator

/-- The types of the variables. -/
def Environment.types (env : Environment) (name : String) : Option TypeTag :=
  (env.get? name).map Value.tag

namespace Instruction

/-- The type of a word. -/
def checkWord (types : String → Option TypeTag) (word : String) : Except Diagnostic.Kind TypeTag :=
  if Text.sameLetters word "true" then .ok .boolean
  else if Text.sameLetters word "false" then .ok .boolean
  else
    match types word with
    | some tag => .ok tag
    | none => .error .unexpectedToken

/-- One instruction on a stack of types. -/
def check (types : String → Option TypeTag) (stack : List TypeTag) :
    Instruction → Except Diagnostic.Kind (List TypeTag)
  | .number _ => .ok (.number :: stack)
  | .text _ => .ok (.text :: stack)
  | .word name => do return (← checkWord types name) :: stack
  | .apply (.unary op) =>
    match stack with
    | operand :: rest => do return (← op.check operand) :: rest
    | [] => .error .operand
  | .apply (.binary op) =>
    match stack with
    | right :: left :: rest => do return (← op.check left right) :: rest
    | _ => .error .operand
  | .unclosed => .error .unexpectedToken

/-- All instructions of a code in turn. -/
def checkAll (types : String → Option TypeTag) (stack : List TypeTag) (code : List Instruction) :
    Except Diagnostic.Kind (List TypeTag) :=
  code.foldlM (check types) stack

/-- The instruction applies an operator that overlooks an operand. -/
def overlooksAt (stack : List Value) : Instruction → Bool
  | .apply (.binary op) =>
    match stack with
    | right :: left :: _ => op.overlooks left right
    | _ => false
  | _ => false

/-- An operand is overlooked somewhere in the run of a code. -/
def overlooks (env : Environment) (stack : List Value) : List Instruction → Bool
  | [] => false
  | i :: code =>
    overlooksAt stack i ||
      match step env stack i with
      | .ok stack => overlooks env stack code
      | .error _ => false

end Instruction

namespace Expression

/-- The type of an expression, or the kind of its error. -/
def check (types : String → Option TypeTag) (e : Expression) : Except Diagnostic.Kind TypeTag := do
  match ← Instruction.checkAll types [] e.code with
  | [tag] => return tag
  | _ => throw .operand

/-- An operand is overlooked somewhere in the evaluation. -/
def overlooks (e : Expression) (env : Environment) : Bool :=
  Instruction.overlooks env [] e.code

end Expression

/-! ## Operators -/

/-- A unary operator checks the type of its operand and nothing else. -/
theorem UnaryOperator.verdict_apply (op : UnaryOperator) (operand : Value) :
    verdict Value.tag (op.apply operand) = op.check operand.tag := by
  cases op <;> cases operand <;> rfl

namespace BinaryOperator

variable {left right : Value}

/-- Arithmetic needs two numbers and looks at the left operand first. -/
theorem verdict_arithmetic (f : Float → Float → Float) (left right : Value) :
    verdict Value.tag (arithmetic f left right) = both .number .number left.tag right.tag := by
  cases left <;> cases right <;> rfl

/-- A sum needs a text or two numbers. -/
theorem verdict_sum (left right : Value) :
    verdict Value.tag (sum left right) = check .add left.tag right.tag := by
  unfold sum check
  dsimp only
  split
  · rfl
  · exact verdict_arithmetic _ left right

/-- A division that is not by zero needs two numbers. -/
theorem verdict_quotient (h : verdict Value.tag (quotient left right) ≠ .error .arithmetic) :
    verdict Value.tag (quotient left right) = both .number .number left.tag right.tag := by
  cases left with
  | number x =>
      cases right with
      | number y =>
          by_cases hy : Number.isNonzero y = true
          · have hquotient : quotient (.number x) (.number y) = .ok (.number (x / y)) := if_pos hy
            rw [hquotient]
            rfl
          · have hzero : quotient (.number x) (.number y) = .error .divisionByZero := if_neg hy
            rw [hzero] at h
            exact absurd rfl h
      | text content => rfl
      | boolean truth => rfl
  | text content => rfl
  | boolean truth => rfl

/-- A logical operator needs two truth values, unless the left one decides before the right one is
seen. -/
theorem verdict_logical (op : BinaryOperator) {decisive : Bool}
    (h : left = .boolean decisive → right.tag = .boolean) :
    verdict Value.tag (logical op decisive left right) =
      both .boolean .boolean left.tag right.tag := by
  cases left with
  | number x => rfl
  | text content => rfl
  | boolean truth =>
      change verdict Value.tag (if truth = decisive then _ else _) = _
      split
      · rename_i htruth
        rw [h (congrArg Value.boolean htruth)]
        rfl
      · cases right <;> rfl

/-- A logical operator checks both operands unless it overlooks one. -/
theorem verdict_apply_logical {op : BinaryOperator} (hop : op = .and ∨ op = .or)
    (hseen : op.overlooks left right = false) :
    verdict Value.tag (op.apply left right) = both .boolean .boolean left.tag right.tag := by
  rcases hop with rfl | rfl
  · refine verdict_logical .and ?_
    rintro rfl
    simpa [overlooks] using hseen
  · refine verdict_logical .or ?_
    rintro rfl
    simpa [overlooks] using hseen

/-- An operator bears out what the types of its operands tell. -/
theorem verdict_apply {op : BinaryOperator} (hseen : op.overlooks left right = false)
    (hzero : verdict Value.tag (op.apply left right) ≠ .error .arithmetic) :
    verdict Value.tag (op.apply left right) = op.check left.tag right.tag := by
  cases op with
  | or => exact verdict_apply_logical (.inr rfl) hseen
  | and => exact verdict_apply_logical (.inl rfl) hseen
  | add => exact verdict_sum left right
  | div => exact verdict_quotient hzero
  | sub | mul | rem | pow => exact verdict_arithmetic _ left right
  | eq | ne | lt | gt | le | ge => cases left <;> cases right <;> rfl

/-- A logical operator that overlooks an operand gives the truth value on the left. -/
theorem apply_of_overlooks {op : BinaryOperator} (h : op.overlooks left right = true) :
    op.apply left right = .ok left := by
  unfold overlooks at h
  split at h
  · rfl
  · rfl
  · cases h

/-- A logical operator fails on an operand that is no truth value unless it overlooks it. -/
theorem logical_fails_iff {op : BinaryOperator} (hop : op = .and ∨ op = .or) (left right : Value) :
    (∃ error, op.apply left right = .error error ∧ error.kind = .operand) ↔
      (left.tag ≠ .boolean ∨ right.tag ≠ .boolean) ∧ op.overlooks left right = false := by
  rw [← verdict_eq_error_iff]
  cases hseen : op.overlooks left right with
  | true =>
      rw [apply_of_overlooks hseen]
      simp [verdict]
  | false =>
      rw [verdict_apply_logical hop hseen, both]
      by_cases h : left.tag = .boolean ∧ right.tag = .boolean
      · rw [if_pos h]
        simp [h]
      · rw [if_neg h]
        simpa using not_and_or.mp h

end BinaryOperator

/-! ## Code -/

namespace Instruction

/-- What a word is looked up as depends on the types of the variables only. -/
theorem verdict_lookup (env : Environment) (word : String) :
    verdict Value.tag (env.lookup word) = checkWord env.types word := by
  unfold Environment.lookup checkWord Environment.types
  split
  · rfl
  · split
    · rfl
    · cases env.get? word <;> rfl

/-- Pushing a value pushes its type, and an error stays the error that it is. -/
theorem verdict_push (result : Except EvalError Value) (stack : List Value) :
    verdict (List.map Value.tag) (do return (← result) :: stack) =
      (do return (← verdict Value.tag result) :: stack.map Value.tag) := by
  cases result <;> rfl

/-- The types on the stack decide what types an instruction leaves, and how it fails. -/
theorem verdict_step {env : Environment} {stack : List Value} {i : Instruction}
    (hseen : overlooksAt stack i = false)
    (hzero : verdict (List.map Value.tag) (step env stack i) ≠ .error .arithmetic) :
    verdict (List.map Value.tag) (step env stack i) = check env.types (stack.map Value.tag) i := by
  match i, stack with
  | .number value, stack => rfl
  | .text content, stack => rfl
  | .word name, stack =>
      rw [step, verdict_push, verdict_lookup]
      rfl
  | .apply (.unary op), [] => rfl
  | .apply (.unary op), operand :: rest =>
      rw [step, verdict_push, UnaryOperator.verdict_apply]
      rfl
  | .apply (.binary op), [] => rfl
  | .apply (.binary op), [_] => rfl
  | .apply (.binary op), right :: left :: rest =>
      have hresult : verdict Value.tag (op.apply left right) ≠ .error .arithmetic := by
        intro h
        rw [step, verdict_push, h] at hzero
        exact hzero rfl
      rw [step, verdict_push, BinaryOperator.verdict_apply hseen hresult]
      rfl
  | .unclosed, stack => rfl

/-- The types on the stack decide what types a run of instructions leaves, and how it fails. -/
theorem verdict_run {env : Environment} {stack : List Value} {code : List Instruction}
    (hseen : overlooks env stack code = false)
    (hzero : verdict (List.map Value.tag) (run env stack code) ≠ .error .arithmetic) :
    verdict (List.map Value.tag) (run env stack code) =
      checkAll env.types (stack.map Value.tag) code := by
  induction code generalizing stack with
  | nil => rfl
  | cons i code ih =>
      rw [overlooks, Bool.or_eq_false_iff] at hseen
      obtain ⟨hseen, hrest⟩ := hseen
      rw [run_cons] at hzero ⊢
      have hstep := @verdict_step env stack i hseen
      rw [checkAll, List.foldlM_cons]
      cases hresult : step env stack i with
      | error e =>
          rw [hresult] at hstep hzero
          rw [← hstep hzero]
          rfl
      | ok stack' =>
          rw [hresult] at hstep hzero hrest
          rw [← hstep nofun]
          exact ih hrest hzero

end Instruction

namespace Expression

/-- The evaluation of an expression ends as its check tells, unless it divides by zero or overlooks
an operand. -/
theorem verdict_evaluate {e : Expression} {env : Environment} (hseen : e.overlooks env = false)
    (hzero : verdict Value.tag (e.evaluate env) ≠ .error .arithmetic) :
    verdict Value.tag (e.evaluate env) = e.check env.types := by
  have hrun := Instruction.verdict_run hseen
  unfold evaluate at hzero ⊢
  rw [check]
  cases hresult : Instruction.run env [] e.code with
  | error error =>
      rw [hresult] at hrun hzero
      have hkind : error.kind ≠ .arithmetic := fun h => hzero (congrArg Except.error h)
      rw [← List.map_nil, ← hrun fun h => hkind (Except.error.inj h)]
      rfl
  | ok stack =>
      rw [hresult] at hrun
      rw [← List.map_nil, ← hrun nofun]
      match stack with
      | [] => rfl
      | [value] => rfl
      | _ :: _ :: _ => rfl

/-- Two environments that give the same types to the variables let an expression end alike: with
values of the same type, or with errors of the same kind. Apart from divisions by zero this holds as
long as no operand is overlooked, and it is then that a logical operator fails on every operand that
is no truth value. -/
theorem types_decide_evaluation (e : Expression) (env env' : Environment)
    (htypes : ∀ name, (env.get? name).map Value.tag = (env'.get? name).map Value.tag)
    (hzero : ∀ error, e.evaluate env = .error error → error.kind ≠ .arithmetic)
    (hzero' : ∀ error, e.evaluate env' = .error error → error.kind ≠ .arithmetic)
    (hseen : e.overlooks env = false) (hseen' : e.overlooks env' = false) :
    ((∃ value value', e.evaluate env = .ok value ∧ e.evaluate env' = .ok value' ∧
        value.tag = value'.tag) ∨
      ∃ error error', e.evaluate env = .error error ∧ e.evaluate env' = .error error' ∧
        error.kind = error'.kind) ∧
    ∀ op ∈ [BinaryOperator.and, .or], ∀ left right,
      (∃ error, op.apply left right = .error error ∧ error.kind = .operand) ↔
        (left.tag ≠ .boolean ∨ right.tag ≠ .boolean) ∧ op.overlooks left right = false := by
  have hnonzero {env : Environment}
      (h : ∀ error, e.evaluate env = .error error → error.kind ≠ .arithmetic) :
      verdict Value.tag (e.evaluate env) ≠ .error .arithmetic := by
    rw [Ne, verdict_eq_error_iff]
    rintro ⟨error, herror, hkind⟩
    exact h error herror hkind
  constructor
  · have hsame : env.types = env'.types := funext htypes
    rw [← verdict_eq_iff, verdict_evaluate hseen (hnonzero hzero),
      verdict_evaluate hseen' (hnonzero hzero'), hsame]
  · intro op hop left right
    exact BinaryOperator.logical_fails_iff (by simpa using hop) left right

/-- A truth value and a text, neither of which matters to the type. -/
theorem types_decide_evaluation_joined :
    let e := compile "(b && x == 'a') + x"
    let env (truth : Bool) (content : String) :=
      (Environment.empty.set "b" (.boolean truth)).set "x" (.text content)
    (∀ name, ((env true "a").get? name).map Value.tag =
        ((env false "c").get? name).map Value.tag) ∧
      e.overlooks (env true "a") = false ∧ e.overlooks (env false "c") = false ∧
      ∃ value value', e.evaluate (env true "a") = .ok value ∧
        e.evaluate (env false "c") = .ok value' ∧ value.tag = value'.tag := by
  intro e env
  have hvalue : e.evaluate (env true "a") = .ok (.text "truea") := by
    decide +kernel
  have hvalue' : e.evaluate (env false "c") = .ok (.text "falsec") := by
    decide +kernel
  have htypes (name : String) : ((env true "a").get? name).map Value.tag =
      ((env false "c").get? name).map Value.tag := by
    simp only [env, Environment.get?_set]
    split
    · rfl
    · split <;> rfl
  have hseen : e.overlooks (env true "a") = false := by
    decide +kernel
  have hseen' : e.overlooks (env false "c") = false := by
    decide +kernel
  have hzero : ∀ error, e.evaluate (env true "a") = .error error → error.kind ≠ .arithmetic := by
    rw [hvalue]
    nofun
  have hzero' : ∀ error, e.evaluate (env false "c") = .error error → error.kind ≠ .arithmetic := by
    rw [hvalue']
    nofun
  refine ⟨htypes, hseen, hseen', ?_⟩
  rcases (types_decide_evaluation e _ _ htypes hzero hzero' hseen hseen').1 with
    hok | ⟨error, -, herror, -⟩
  · exact hok
  · rw [hvalue] at herror
    cases herror

/-- Whether a text on the right of a conjunction is an error depends on the value on the left. -/
theorem conjunction_overlooks_text :
    let e := compile "b && 'x'"
    let env (truth : Bool) := Environment.empty.set "b" (.boolean truth)
    (∀ name, ((env true).get? name).map Value.tag = ((env false).get? name).map Value.tag) ∧
      e.evaluate (env true) = .error (.invalidOperand (.binary .and) (.text "x")) ∧
      e.evaluate (env false) = .ok (.boolean false) := by
  intro e env
  refine ⟨?_, by decide +kernel, by decide +kernel⟩
  intro name
  simp only [env, Environment.get?_set]
  split <;> rfl

end Expression

end Sting
