import Sting.Proofs.Machine.Typing

/-!
# Bindings of a run

What the statements of a run bind, in the order in which they are carried out. The environment of a
run is at all times the initial one with these bindings. A statement that fails ends the run and
binds nothing.
-/

namespace Sting

namespace Environment

/-- Binds the names of a list one after the other. -/
def setAll (env : Environment) (entries : List (String × Value)) : Environment :=
  entries.foldl (fun env entry => env.set entry.1 entry.2) env

/-- Names are bound in the order of the list. -/
theorem setAll_append (env : Environment) (first second : List (String × Value)) :
    env.setAll (first ++ second) = (env.setAll first).setAll second :=
  List.foldl_append

end Environment

namespace Machine

/-- The variable that the statement at hand is about to bind, with the value for it: an assignment
whose expression has a value, or an input statement for which a fitting line was typed. -/
def offered? : Machine → Option (String × Value)
  | .running session (.body (.assign name declared e :: _) :: _) =>
    (session.environment.assigned declared e).toOption.map (name, ·)
  | .running session (.answer name declared :: _) =>
    match session.console.readLine with
    | .ok (some line, _) => (Value.ofTyped name declared line).toOption.map (name, ·)
    | _ => none
  | _ => none

/-- The binding of the assignment or input statement that the next step completes. There is none if
the step ends the run, for then the statement has failed. -/
def completed? (m : Machine) : Option (String × Value) :=
  if m.step.isHalted then none else m.offered?

/-- The bindings of the assignments and input statements that a run completes in its first steps, in
the order in which it does. -/
def completed (n : Nat) (m : Machine) : List (String × Value) :=
  (List.range n).filterMap fun i => (run i m).completed?

/-- The environment after a step is the one before it with the binding that the step completes. -/
def StepBinds (m : Machine) : Prop :=
  m.step.environment = m.environment.setAll m.completed?.toList

/-- A step that completes no binding leaves the environment alone. -/
theorem stepBinds_of_offered? {m : Machine} (h : m.offered? = none)
    (henv : m.step.environment = m.environment) : m.StepBinds := by
  rw [StepBinds, henv, completed?, h, ite_self]
  rfl

/-- A step that ends the run completes no binding. -/
theorem stepBinds_of_halted {m : Machine} {session : Session} {failure : Option Failure}
    (h : m.step = .halted session failure) (henv : session.environment = m.environment) :
    m.StepBinds := by
  rw [StepBinds, completed?, h]
  exact henv

/-- A step that goes on completes the binding that was at hand. -/
theorem stepBinds_of_running {m : Machine} {session : Session} {frames : List Frame}
    {name : String} {value : Value} (h : m.step = .running session frames)
    (hoffered : m.offered? = some (name, value))
    (henv : session.environment = m.environment.set name value) : m.StepBinds := by
  rw [StepBinds, completed?, h, hoffered]
  exact henv

/-- An assignment binds its variable or ends the run. -/
theorem stepBinds_assign (session : Session) (name : String) (declared : Option TypeTag)
    (e : Expression) (rest : List Statement) (frames : List Frame) :
    StepBinds (.running session (.body (.assign name declared e :: rest) :: frames)) := by
  obtain ⟨noted, henv, hstep⟩ := exists_begin_assign
    (session.note (.executing (.assign name declared e))) (.body rest :: frames) name declared e
  change step (.running session (.body (.assign name declared e :: rest) :: frames)) =
    update noted (session.environment.assign name declared e) (.body rest :: frames) at hstep
  unfold Environment.assign at hstep
  cases hvalue : session.environment.assigned declared e with
  | error error =>
      rw [hvalue] at hstep
      exact stepBinds_of_halted hstep henv
  | ok value =>
      rw [hvalue] at hstep
      cases hbind : session.environment.bind name (declared.getD value.tag) value with
      | error failure =>
          simp only [hbind] at hstep
          exact stepBinds_of_halted hstep henv
      | ok env =>
          simp only [hbind] at hstep
          refine stepBinds_of_running hstep ?_ (Environment.eq_set_of_bind hbind)
          rw [offered?, hvalue]
          rfl

/-- The answer to a request for input binds its variable or ends the run. -/
theorem stepBinds_answer (session : Session) (name : String) (declared : TypeTag)
    (frames : List Frame) : StepBinds (.running session (.answer name declared :: frames)) := by
  cases hread : session.console.readLine with
  | error reason => exact stepBinds_of_halted (answer_of_error name declared frames hread) rfl
  | ok read =>
      obtain ⟨line, console⟩ := read
      have hstep := answer_of_ok name declared frames hread
      cases line with
      | none => exact stepBinds_of_halted hstep rfl
      | some line =>
          cases hvalue : Value.ofTyped name declared line with
          | error failure =>
              rw [answered, hvalue] at hstep
              exact stepBinds_of_halted hstep rfl
          | ok value =>
              rw [answered, hvalue] at hstep
              change answer session name declared frames =
                (update session (session.environment.bind name declared value) frames).withConsole
                  console at hstep
              cases hbind : session.environment.bind name declared value with
              | error failure =>
                  rw [hbind] at hstep
                  exact stepBinds_of_halted hstep rfl
              | ok env =>
                  rw [hbind] at hstep
                  refine stepBinds_of_running hstep ?_ (Environment.eq_set_of_bind hbind)
                  simp only [offered?, hread, hvalue]
                  rfl

/-- No other statement has a binding at hand when it begins. -/
theorem offered?_body {s : Statement} (h : ∀ name declared e, s ≠ .assign name declared e)
    (session : Session) (rest : List Statement) (frames : List Frame) :
    offered? (.running session (.body (s :: rest) :: frames)) = none := by
  cases s with
  | assign name declared e => exact absurd rfl (h name declared e)
  | _ => rfl

/-- Every step changes the environment by the binding that it completes, and by nothing else. -/
theorem stepBinds (m : Machine) : m.StepBinds := by
  match m with
  | .halted session failure => exact stepBinds_of_offered? rfl rfl
  | .running session [] => exact stepBinds_of_offered? rfl rfl
  | .running session (.body [] :: frames) => exact stepBinds_of_offered? rfl rfl
  | .running session (.body (s :: rest) :: frames) =>
      by_cases hassign : ∃ name declared e, s = .assign name declared e
      · obtain ⟨name, declared, e, rfl⟩ := hassign
        exact stepBinds_assign session name declared e rest frames
      · have hs : ∀ name declared e, s ≠ .assign name declared e :=
          fun name declared e h => hassign ⟨name, declared, e, h⟩
        exact stepBinds_of_offered? (offered?_body hs session rest frames)
          (environment_begin _ _ hs)
  | .running session (.loop condition body :: frames) =>
      refine stepBinds_of_offered? rfl ?_
      rw [step_loop]
      exact session.environment_test condition
  | .running session (.answer name declared :: frames) =>
      exact stepBinds_answer session name declared frames
  | .running session (.newline :: frames) =>
      exact stepBinds_of_offered? rfl (environment_write session _ frames)

/-- At all times the environment of a run is the initial one with the bindings completed so far. -/
theorem environment_run (n : Nat) (m : Machine) :
    (run n m).environment = m.environment.setAll (completed n m) := by
  induction n with
  | zero => rfl
  | succ n ih =>
      have hcompleted : completed (n + 1) m = completed n m ++ (run n m).completed?.toList := by
        rw [completed, List.range_succ, List.filterMap_append, ← completed]
        cases h : (run n m).completed? <;> simp [h]
      rw [run_succ, stepBinds, ih, hcompleted, Environment.setAll_append]

end Machine

end Sting
