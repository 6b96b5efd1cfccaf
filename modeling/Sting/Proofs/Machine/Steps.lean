import Mathlib.Logic.Function.Iterate
import Sting.Machine

/-!
# Steps of a run

A run with fuel is a number of steps one after the other: a machine that is over stays as it is. A
step writes a text, reads a line, or does not touch the console at all (`asks`).
-/

namespace Sting

namespace Session

/-- A change of sessions that statements take no notice of: it keeps the variables, and what is
noted or bound afterwards is noted or bound all the same. -/
structure Passive (f : Session → Session) : Prop where
  environment : ∀ s, (f s).environment = s.environment
  note : ∀ s r, (f s).note r = f (s.note r)
  bind : ∀ (s : Session) (environment : Environment),
    { f s with environment } = f { s with environment }

variable {f : Session → Session}

/-- A test has the same outcome in the changed session. -/
theorem Passive.test (h : Passive f) (s : Session) (condition : Expression) :
    (f s).test condition = ((s.test condition).1, f (s.test condition).2) := by
  unfold Session.test
  rw [h.environment]
  cases condition.evaluate s.environment with
  | ok value => rfl
  | error e => exact congrArg (Prod.mk false) (h.note s _)

/-- The same arm is chosen in the changed session. -/
theorem Passive.choose (h : Passive f) (s : Session) (branches : List (Branch Statement)) :
    (f s).choose branches = ((s.choose branches).1, f (s.choose branches).2) := by
  induction branches generalizing s with
  | nil => rfl
  | cons branch branches ih =>
      obtain ⟨condition, body⟩ := branch
      cases condition with
      | none => rfl
      | some c =>
          rw [Session.choose, Session.choose, h.test]
          obtain ⟨holds, tester⟩ := s.test c
          cases holds with
          | true => rfl
          | false => exact ih tester

/-- The same session on another console. -/
def withConsole (s : Session) (console : Console) : Session :=
  { s with console }

/-- Statements that do not use the console take no notice of it. -/
theorem passive_withConsole (console : Console) : Passive (·.withConsole console) :=
  ⟨fun _ => rfl, fun _ _ => rfl, fun _ _ => rfl⟩

end Session

namespace Machine

/-- One step first, and then the others. -/
theorem run_succ_eq (fuel : Nat) (m : Machine) : run (fuel + 1) m = run fuel m.step := by
  cases m with
  | running session frames => rfl
  | halted session failure => cases fuel <;> rfl

/-- Running with fuel takes that many steps. -/
theorem run_eq_iterate (fuel : Nat) (m : Machine) : run fuel m = step^[fuel] m := by
  induction fuel generalizing m with
  | zero => rfl
  | succ fuel ih => rw [run_succ_eq, ih, Function.iterate_succ_apply]

/-- The last step of a run can be taken last. -/
theorem run_succ (fuel : Nat) (m : Machine) : run (fuel + 1) m = (run fuel m).step := by
  rw [run_eq_iterate, Function.iterate_succ_apply', run_eq_iterate]

/-- A run can be stopped and taken up again. -/
theorem run_add (first second : Nat) (m : Machine) :
    run (first + second) m = run second (run first m) := by
  rw [run_eq_iterate, run_eq_iterate, run_eq_iterate, Nat.add_comm, Function.iterate_add_apply]

/-- A run that is over stays as it is. -/
theorem run_of_isHalted {m : Machine} (h : m.isHalted = true) (n : Nat) : run n m = m := by
  cases m with
  | running session frames => cases h
  | halted session failure => cases n <;> rfl

/-- The same point of a run on another console. -/
def withConsole (m : Machine) (console : Console) : Machine :=
  m.withSession (m.session.withConsole console)

/-- A machine is on its own console. -/
theorem withConsole_self (m : Machine) : m.withConsole m.session.console = m := by
  cases m <;> rfl

/-- A loop runs its body once more if its condition holds. -/
theorem step_loop (session : Session) (condition : Expression) (body : List Statement)
    (frames : List Frame) :
    step (.running session (.loop condition body :: frames)) =
      .running (session.test condition).2
        (if (session.test condition).1 then .body body :: .loop condition body :: frames
          else frames) := by
  rw [step]
  obtain ⟨holds, tester⟩ := session.test condition
  cases holds <;> rfl

/-- A conditional puts the chosen body, if any, before what follows. -/
theorem begin_conditional (session : Session) (frames : List Frame)
    (branches : List (Branch Statement)) :
    begin session frames (.conditional branches) =
      .running (session.choose branches).2
        (((session.choose branches).1.map Frame.body).toList ++ frames) := by
  rw [begin]
  obtain ⟨chosen, chooser⟩ := session.choose branches
  cases chosen <;> rfl

/-- Leaving a loop goes on with frames outside of it, or ends the run without a failure if there is
no loop. To the session it does nothing but note which of the two it was. -/
theorem leaveLoop_cases (frames : List Frame) :
    (∃ record rest, rest <:+ frames ∧
      ∀ session, leaveLoop session frames = .running (session.note record) rest) ∨
    ∀ session, leaveLoop session frames = .halted (session.note .endedRun) none := by
  induction frames with
  | nil => exact .inr fun session => rfl
  | cons frame frames ih =>
      have hbehind := List.suffix_cons frame frames
      cases frame with
      | loop condition body =>
          exact .inl ⟨.leftLoop condition.source, frames, hbehind, fun session => rfl⟩
      | body _ | answer _ _ | newline =>
          refine ih.imp_left ?_
          rintro ⟨record, rest, hsuffix, hleave⟩
          exact ⟨record, rest, hsuffix.trans hbehind, hleave⟩

/-! ## Changes that no step notices -/

/-- The same point of a run in a session that is changed. -/
def mapSession (f : Session → Session) (m : Machine) : Machine :=
  m.withSession (f m.session)

section

variable {f : Session → Session} (h : Session.Passive f)
include h

/-- Leaving a loop commutes with a change of the session. -/
theorem leaveLoop_mapSession (session : Session) (frames : List Frame) :
    leaveLoop (f session) frames = (leaveLoop session frames).mapSession f := by
  obtain ⟨record, rest, -, hleave⟩ | hleave := leaveLoop_cases frames
  · rw [hleave, hleave, h.note]
    rfl
  · rw [hleave, hleave, h.note]
    rfl

/-- A change of the environment commutes with a passive change of the session. -/
theorem update_mapSession (session : Session) (result : Except Failure Environment)
    (frames : List Frame) :
    update (f session) result frames = (update session result frames).mapSession f := by
  cases result with
  | ok environment => exact congrArg (running · frames) (h.bind session environment)
  | error failure => rfl

/-- An assignment commutes with a passive change of the session. -/
theorem begin_assign_mapSession (session : Session) (frames : List Frame) (name : String)
    (declared : Option TypeTag) (e : Expression) :
    begin (f session) frames (.assign name declared e) =
      (begin session frames (.assign name declared e)).mapSession f := by
  by_cases hdeclared : declared = some .boolean
  · simp only [begin, if_pos hdeclared, h.test, h.environment]
    exact update_mapSession h (session.test e).2 _ frames
  · simp only [begin, if_neg hdeclared, h.environment]
    exact update_mapSession h session _ frames

/-- A conditional commutes with a passive change of the session. -/
theorem begin_conditional_mapSession (session : Session) (frames : List Frame)
    (branches : List (Branch Statement)) :
    begin (f session) frames (.conditional branches) =
      (begin session frames (.conditional branches)).mapSession f := by
  rw [begin_conditional, begin_conditional, h.choose]
  rfl

/-- The test of a loop commutes with a passive change of the session. -/
theorem step_loop_mapSession (session : Session) (condition : Expression) (body : List Statement)
    (frames : List Frame) :
    step (.running (f session) (.loop condition body :: frames)) =
      (step (.running session (.loop condition body :: frames))).mapSession f := by
  rw [step_loop, step_loop, h.test]
  rfl

end

/-- What a step does on any console: it leaves it alone, writes a text, or reads a line. -/
inductive Asks (m : Machine) : Prop
  | nothing (h : ∀ console, (m.withConsole console).step = m.step.withConsole console)
  | write (session : Session) (text : String) (frames : List Frame)
      (henv : session.environment = m.session.environment)
      (h : ∀ console,
        (m.withConsole console).step = write (session.withConsole console) text frames)
  | line (session : Session) (name : String) (declared : TypeTag) (frames : List Frame)
      (henv : session.environment = m.session.environment)
      (h : ∀ console,
        (m.withConsole console).step = answer (session.withConsole console) name declared frames)

/-- Every step does one of these. -/
theorem asks (m : Machine) : m.Asks := by
  match m with
  | .halted session failure => exact .nothing fun _ => rfl
  | .running session [] => exact .nothing fun _ => rfl
  | .running session (.body [] :: frames) => exact .nothing fun _ => rfl
  | .running session (.body (.assign name declared e :: rest) :: frames) =>
      refine .nothing ?_
      intro console
      exact begin_assign_mapSession (Session.passive_withConsole console) (session.note _)
        (.body rest :: frames) name declared e
  | .running session (.body (.input name declared prompt :: rest) :: frames) =>
      exact .write (session.note _) (promptText prompt) _ rfl fun _ => rfl
  | .running session (.body (.output args :: rest) :: frames) =>
      exact .write (session.note _) (session.environment.line args)
        (.newline :: .body rest :: frames) rfl fun _ => rfl
  | .running session (.body (.conditional branches :: rest) :: frames) =>
      refine .nothing ?_
      intro console
      exact begin_conditional_mapSession (Session.passive_withConsole console) (session.note _)
        (.body rest :: frames) branches
  | .running session (.body (.loop condition body :: rest) :: frames) =>
      exact .nothing fun _ => rfl
  | .running session (.body (.stop :: rest) :: frames) =>
      refine .nothing ?_
      intro console
      exact leaveLoop_mapSession (Session.passive_withConsole console) (session.note _) _
  | .running session (.loop condition body :: frames) =>
      refine .nothing ?_
      intro console
      exact step_loop_mapSession (Session.passive_withConsole console) session condition body frames
  | .running session (.answer name declared :: frames) =>
      exact .line session name declared frames rfl fun _ => rfl
  | .running session (.newline :: frames) => exact .write session _ frames rfl fun _ => rfl

/-- Where the console takes the text, the run goes on. -/
theorem write_of_ok {session : Session} {text : String} {console : Console} (frames : List Frame)
    (h : session.console.write text = .ok console) :
    write session text frames = .running (session.withConsole console) frames := by
  rw [write, h]
  rfl

/-- Where it does not, the run ends. -/
theorem write_of_error {session : Session} {text reason : String} (frames : List Frame)
    (h : session.console.write text = .error reason) :
    write session text frames = .halted session (some (.device reason)) := by
  rw [write, h]

/-- What becomes of the line that was read for an input statement. -/
def answered (session : Session) (name : String) (declared : TypeTag) (frames : List Frame) :
    Option String → Machine
  | none => .halted session (some (.noInput name))
  | some line =>
    update session
      (do session.environment.bind name declared (← Value.ofTyped name declared line)) frames

/-- Where the console is read, the line is answered on the console that is left. -/
theorem answer_of_ok {session : Session} {line : Option String} {console : Console}
    (name : String) (declared : TypeTag) (frames : List Frame)
    (h : session.console.readLine = .ok (line, console)) :
    answer session name declared frames =
      (answered session name declared frames line).withConsole console := by
  rw [answer, h]
  cases line with
  | none => rfl
  | some line => exact update_mapSession (Session.passive_withConsole console) session _ frames

/-- Where it is not, the run ends. -/
theorem answer_of_error {session : Session} {reason : String} (name : String) (declared : TypeTag)
    (frames : List Frame) (h : session.console.readLine = .error reason) :
    answer session name declared frames = .halted session (some (.device reason)) := by
  rw [answer, h]

/-- What becomes of a line does not depend on the console. -/
theorem answered_withConsole (session : Session) (console : Console) (name : String)
    (declared : TypeTag) (frames : List Frame) (line : Option String) :
    answered (session.withConsole console) name declared frames line =
      (answered session name declared frames line).withConsole console := by
  cases line with
  | none => rfl
  | some line => exact update_mapSession (Session.passive_withConsole console) session _ frames

@[simp] theorem withConsole_withConsole (m : Machine) (console console' : Console) :
    (m.withConsole console).withConsole console' = m.withConsole console' := by
  cases m <;> rfl

@[simp] theorem console_withConsole (m : Machine) (console : Console) :
    (m.withConsole console).session.console = console := by
  cases m <;> rfl

end Machine

end Sting
