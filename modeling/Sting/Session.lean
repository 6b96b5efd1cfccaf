import Sting.Console
import Sting.Failure
import Sting.Number.Typed
import Sting.Record

/-!
# Sessions

The world that statements act on: an environment, a console and a journal. This module holds the
effects of single statements; how they follow each other is the business of the machine.
-/

namespace Sting

namespace Environment

/-- Binds a name to a value of the given type. A name keeps the type of its first binding. -/
def bind (env : Environment) (name : String) (tag : TypeTag) (value : Value) :
    Except Failure Environment :=
  match env.get? name with
  | some bound =>
    if bound.tag ≠ tag then .error (.retyped name tag)
    else if value.tag ≠ tag then .error (.mistyped name tag)
    else .ok (env.set name value)
  | none => if value.tag ≠ tag then .error (.mistyped name tag) else .ok (env.set name value)

/-- The value that an assignment computes. A text variable takes the text of any value, and a truth
value is a condition. -/
def assigned (env : Environment) (declared : Option TypeTag) (e : Expression) :
    Except EvalError Value :=
  match declared with
  | some .text => do return .text (← e.evaluate env).render
  | some .boolean => .ok (.boolean (e.holds env))
  | some .number | none => e.evaluate env

/-- The environment after an assignment. -/
def assign (env : Environment) (name : String) (declared : Option TypeTag) (e : Expression) :
    Except Failure Environment :=
  match env.assigned declared e with
  | .ok value => env.bind name (declared.getD value.tag) value
  | .error error => .error (.valueless error)

/-- What an output argument stands for: the value of a variable of that name, a quoted text without
its quotes, or itself. -/
def argument (env : Environment) (arg : String) : String :=
  match env.get? arg with
  | some value => value.render
  | none =>
    match arg.toList with
    | first :: rest =>
      if first = Text.quote ∧ rest.getLast? = some Text.quote then String.ofList rest.dropLast
      else arg
    | [] => arg

/-- The line that an output statement shows: its arguments without anything between them. -/
def line (env : Environment) (args : List String) : String :=
  String.join (args.map env.argument)

end Environment

/-- The value that a typed line gives to a variable: texts are taken as they are, and everything but
the word `true` is false. -/
def Value.ofTyped (name : String) (tag : TypeTag) (line : String) : Except Failure Value :=
  match tag with
  | .number =>
    match Number.ofTyped? line with
    | some x => .ok (.number x)
    | none => .error (.notNumeric name)
  | .boolean =>
    .ok (.boolean (Text.sameLetters (String.ofList (Text.trim line.toList)) "true"))
  | .text => .ok (.text line)

/-- A prompt as it is shown, without quotes. -/
def promptText (prompt : String) : String :=
  String.ofList (prompt.toList.filter (· != Text.quote))

/-- The world of a run. -/
structure Session where
  environment : Environment
  console : Console
  /-- The journal, latest record first. -/
  journal : List Record

namespace Session

/-- An environment and a console before anything happened. -/
def start (environment : Environment) (console : Console) : Session :=
  ⟨environment, console, []⟩

/-- Adds a record to the journal. -/
def note (s : Session) (r : Record) : Session :=
  { s with journal := r :: s.journal }

/-- Tests a condition. One without a value is false and leaves a record. -/
def test (s : Session) (condition : Expression) : Bool × Session :=
  match condition.evaluate s.environment with
  | .ok value => (value.isTrue, s)
  | .error e => (false, s.note (.assumedFalse condition.source e))

/-- The body of the first arm whose condition holds, and the session after the tests up to it. -/
def choose (s : Session) : List (Branch Statement) → Option (List Statement) × Session
  | [] => (none, s)
  | ⟨none, body⟩ :: _ => (some body, s)
  | ⟨some condition, body⟩ :: rest =>
    match s.test condition with
    | (true, s) => (some body, s)
    | (false, s) => s.choose rest

/-- Noting something changes no variable. -/
@[simp] theorem environment_note (s : Session) (r : Record) :
    (s.note r).environment = s.environment := rfl

/-- Noting something does not use the console. -/
@[simp] theorem console_note (s : Session) (r : Record) : (s.note r).console = s.console := rfl

/-- A test finds what the condition holds of the environment. -/
theorem test_fst (s : Session) (condition : Expression) :
    (s.test condition).1 = condition.holds s.environment := by
  unfold test Expression.holds
  cases condition.evaluate s.environment <;> rfl

/-- Testing a condition changes no variable; what fails in it is noted. -/
@[simp] theorem environment_test (s : Session) (condition : Expression) :
    (s.test condition).2.environment = s.environment := by
  unfold test
  split <;> simp

/-- Testing a condition does not use the console. -/
@[simp] theorem console_test (s : Session) (condition : Expression) :
    (s.test condition).2.console = s.console := by
  unfold test
  split <;> simp

end Session

end Sting
