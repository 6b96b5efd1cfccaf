import Sting.Proofs.Machine.Steps

/-!
# What was noted before

A run adds records to the journal and never reads them. So it takes the same steps whatever was
noted before, and leaves the older records at the bottom of the journal.
-/

namespace Sting

namespace Session

/-- The same session with older records in its journal. -/
def withPast (s : Session) (past : List Record) : Session :=
  { s with journal := s.journal ++ past }

/-- Statements take no notice of older records. -/
theorem passive_withPast (past : List Record) : Passive (·.withPast past) :=
  ⟨fun _ => rfl, fun _ _ => rfl, fun _ _ => rfl⟩

end Session

namespace Machine

/-- The same point of a run with older records in the journal. -/
def withPast (m : Machine) (past : List Record) : Machine :=
  m.mapSession (·.withPast past)

/-- Leaving a loop takes no notice of older records. -/
theorem leaveLoop_withPast (session : Session) (past : List Record) (frames : List Frame) :
    leaveLoop (session.withPast past) frames = (leaveLoop session frames).withPast past :=
  leaveLoop_mapSession (Session.passive_withPast past) session frames

/-- Writing a text takes no notice of older records. -/
theorem write_withPast (session : Session) (past : List Record) (text : String)
    (frames : List Frame) :
    write (session.withPast past) text frames = (write session text frames).withPast past := by
  unfold write Session.withPast
  dsimp only
  split <;> rfl

/-- Reading a line takes no notice of older records. -/
theorem answer_withPast (session : Session) (past : List Record) (name : String)
    (declared : TypeTag) (frames : List Frame) :
    answer (session.withPast past) name declared frames =
      (answer session name declared frames).withPast past := by
  unfold answer Session.withPast
  dsimp only
  split
  · rfl
  · rfl
  · rename_i console _
    exact update_mapSession (Session.passive_withPast past) { session with console } _ frames

/-- No statement takes notice of older records when it begins. -/
theorem begin_withPast (session : Session) (past : List Record) (frames : List Frame)
    (s : Statement) :
    begin (session.withPast past) frames s = (begin session frames s).withPast past := by
  cases s with
  | assign name declared e =>
      exact begin_assign_mapSession (Session.passive_withPast past) session frames name declared e
  | input name declared prompt => exact write_withPast session past _ _
  | output args => exact write_withPast session past _ _
  | conditional branches =>
      exact begin_conditional_mapSession (Session.passive_withPast past) session frames branches
  | loop condition body => rfl
  | stop => exact leaveLoop_withPast session past frames

/-- A step takes no notice of what was noted before. -/
theorem step_withPast (m : Machine) (past : List Record) :
    (m.withPast past).step = m.step.withPast past := by
  match m with
  | .halted session failure => rfl
  | .running session [] => rfl
  | .running session (.body [] :: frames) => rfl
  | .running session (.body (s :: rest) :: frames) =>
      exact begin_withPast (session.note (.executing s)) past (.body rest :: frames) s
  | .running session (.loop condition body :: frames) =>
      exact step_loop_mapSession (Session.passive_withPast past) session condition body frames
  | .running session (.answer name declared :: frames) =>
      exact answer_withPast session past name declared frames
  | .running session (.newline :: frames) => exact write_withPast session past "\n" frames

/-- A run takes no notice of what was noted before. -/
theorem run_withPast (n : Nat) (m : Machine) (past : List Record) :
    run n (m.withPast past) = (run n m).withPast past := by
  induction n with
  | zero => rfl
  | succ n ih => rw [run_succ, run_succ, ih, step_withPast]

end Machine

end Sting
