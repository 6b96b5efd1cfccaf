import Mathlib.Tactic.Common
import Sting.Proofs.Machine.Steps

/-!
# Work in front of other frames

A machine works on its innermost frames without a look at those behind them. Their work may never
end; where it does, it ends in a session with a result, and only then the frames behind it matter:
they are next, or a `stop` looks for a loop among them, or a failure ends the run. So the work of
some frames can be followed on its own, and work in front of work is done one after the other.
-/

namespace Sting

/-- How work ends that does not fail. -/
inductive Flow where
  /-- The frames behind it are next. -/
  | proceed
  /-- A `stop` leaves the innermost loop behind it. -/
  | leave
deriving DecidableEq, Repr

namespace Machine

/-- The machine that goes on with the frames behind some work when that has ended. -/
def resume (session : Session) (frames : List Frame) : Except Failure Flow → Machine
  | .ok .proceed => .running session frames
  | .ok .leave => leaveLoop session frames
  | .error failure => .halted session (some failure)

/-- After this many steps the work ends in this session and with this result, whatever frames wait
behind it. -/
def Ends (n : Nat) (work : List Frame → Machine) (session : Session)
    (result : Except Failure Flow) : Prop :=
  ∀ frames, run n (work frames) = resume session frames result

/-- Work that takes no notice of the frames behind it: it has frames of its own, or it is over. -/
inductive Confined (work : List Frame → Machine) : Prop
  | within (session : Session) (own : List Frame)
      (h : ∀ frames, work frames = .running session (own ++ frames))
  | ended (session : Session) (result : Except Failure Flow)
      (h : ∀ frames, work frames = resume session frames result)

variable {work : List Frame → Machine} {session session' : Session}
  {result result' : Except Failure Flow}

/-! ## Every step stays in front -/

/-- Leaving a loop of one's own takes no notice of the frames behind; if there is none, the work is
over. -/
theorem confined_leaveLoop (session : Session) (own : List Frame) :
    Confined fun frames => leaveLoop session (own ++ frames) := by
  induction own with
  | nil => exact .ended session (.ok .leave) fun _ => rfl
  | cons frame own ih =>
      cases frame with
      | loop condition body => exact .within _ own fun _ => rfl
      | body statements => exact ih
      | answer name declared => exact ih
      | newline => exact ih

/-- Going on with frames of one's own takes no notice of the frames behind them. -/
theorem confined_resume (session : Session) (own : List Frame) (result : Except Failure Flow) :
    Confined fun frames => resume session (own ++ frames) result := by
  match result with
  | .ok .proceed => exact .within session own fun _ => rfl
  | .ok .leave => exact confined_leaveLoop session own
  | .error failure => exact .ended session (.error failure) fun _ => rfl

/-- Confined work can be put in front of more frames. -/
theorem Confined.before (h : Confined work) (own : List Frame) :
    Confined fun frames => work (own ++ frames) := by
  cases h with
  | within session first h =>
      refine .within session (first ++ own) ?_
      intro frames
      rw [h, List.append_assoc]
  | ended session result h =>
      simp only [h]
      exact confined_resume session own result

/-- Work that is over at once and leaves no loop: the frames behind it are next, or it fails. -/
def IsPlain (work : List Frame → Machine) : Prop :=
  ∃ session result, result ≠ .ok .leave ∧ ∀ frames, work frames = resume session frames result

/-- Plain work takes no notice of the frames behind it. -/
theorem IsPlain.confined (h : IsPlain work) : Confined work := by
  obtain ⟨session, result, -, hwork⟩ := h
  exact .ended session result hwork

/-- Writing a text is plain work. -/
theorem isPlain_write (session : Session) (text : String) : IsPlain (write session text) := by
  cases h : session.console.write text with
  | ok console => exact ⟨_, .ok .proceed, nofun, fun frames => write_of_ok frames h⟩
  | error reason => exact ⟨_, .error _, nofun, fun frames => write_of_error frames h⟩

/-- A change of the environment is plain work. -/
theorem isPlain_update (session : Session) (bound : Except Failure Environment) :
    IsPlain (update session bound) := by
  cases bound with
  | ok environment => exact ⟨{ session with environment }, .ok .proceed, nofun, fun _ => rfl⟩
  | error failure => exact ⟨session, .error failure, nofun, fun _ => rfl⟩

/-- The answer to a request for input is plain work. -/
theorem isPlain_answer (session : Session) (name : String) (declared : TypeTag) :
    IsPlain (answer session name declared) := by
  unfold answer
  split
  · exact ⟨_, .error _, nofun, fun _ => rfl⟩
  · exact ⟨_, .error _, nofun, fun _ => rfl⟩
  · exact isPlain_update _ _

/-- An assignment is carried out in one step. -/
theorem isPlain_assign (session : Session) (name : String) (declared : Option TypeTag)
    (e : Expression) : IsPlain fun frames => begin session frames (.assign name declared e) :=
  isPlain_update _ _

/-- No statement takes notice of what stands behind it. -/
theorem confined_begin (session : Session) (s : Statement) :
    Confined fun frames => begin session frames s := by
  cases s with
  | assign name declared e => exact (isPlain_assign session name declared e).confined
  | input name declared prompt =>
      exact (isPlain_write session (promptText prompt)).confined.before [.answer name declared]
  | output args =>
      exact (isPlain_write session (session.environment.line args)).confined.before [.newline]
  | conditional branches => exact .within _ _ (begin_conditional session · branches)
  | loop condition body => exact .within session [.loop condition body] fun _ => rfl
  | stop => exact .ended session (.ok .leave) fun _ => rfl

/-- A step takes no notice of the frames behind the first one. -/
theorem confined_step (session : Session) (frame : Frame) (own : List Frame) :
    Confined fun frames => step (.running session (frame :: (own ++ frames))) := by
  match frame with
  | .body [] => exact .within session own fun _ => rfl
  | .body (s :: rest) =>
      exact (confined_begin (session.note (.executing s)) s).before (.body rest :: own)
  | .loop condition body =>
      simp only [step_loop]
      split
      · exact .within _ (.body body :: .loop condition body :: own) fun _ => rfl
      · exact .within _ own fun _ => rfl
  | .answer name declared => exact (isPlain_answer session name declared).confined.before own
  | .newline => exact (isPlain_write session "\n").confined.before own

/-! ## The end of work -/

/-- What still has frames of its own is not over. -/
theorem running_ne_resume (session session' : Session) (frame : Frame) (own : List Frame)
    (result : Except Failure Flow) :
    running session (frame :: own) ≠ resume session' [] result := by
  match result with
  | .ok .proceed => nofun
  | .ok .leave => nofun
  | .error failure => nofun

/-- After any number of steps confined work has ended, or it still has frames of its own. -/
theorem ends_or_running (h : Confined work) (n : Nat) :
    (∃ k ≤ n, ∃ session result, Ends k work session result) ∨
      ∃ session frame own, ∀ frames,
        run n (work frames) = .running session (frame :: (own ++ frames)) := by
  induction n generalizing work with
  | zero =>
      cases h with
      | ended session result h => exact .inl ⟨0, Nat.le_refl 0, session, result, h⟩
      | within session own h =>
          cases own with
          | nil => exact .inl ⟨0, Nat.le_refl 0, session, .ok .proceed, h⟩
          | cons frame own => exact .inr ⟨session, frame, own, h⟩
  | succ n ih =>
      cases h with
      | ended session result h => exact .inl ⟨0, Nat.zero_le _, session, result, h⟩
      | within session own h =>
          cases own with
          | nil => exact .inl ⟨0, Nat.zero_le _, session, .ok .proceed, h⟩
          | cons frame own =>
              have hstep (k : Nat) (frames : List Frame) : run (k + 1) (work frames) =
                  run k (step (.running session (frame :: (own ++ frames)))) := by
                rw [run_succ_eq, h]
                rfl
              rcases ih (confined_step session frame own) with
                ⟨k, hk, session', result, hends⟩ | ⟨session', frame', own', hrun⟩
              · refine .inl ⟨k + 1, Nat.succ_le_succ hk, session', result, ?_⟩
                intro frames
                rw [hstep, hends]
              · refine .inr ⟨session', frame', own', ?_⟩
                intro frames
                rw [hstep, hrun]

/-- With nothing behind it, every end of work shows its session and its result. -/
theorem eq_of_resume_nil (h : resume session [] result = resume session' [] result') :
    session' = session ∧ result' = result := by
  obtain ⟨environment, console, journal⟩ := session
  obtain ⟨environment', console', journal'⟩ := session'
  match result, result' with
  | .ok .proceed, .ok .proceed => cases h; exact ⟨rfl, rfl⟩
  | .ok .leave, .ok .leave => cases h; exact ⟨rfl, rfl⟩
  | .error failure, .error failure' => cases h; exact ⟨rfl, rfl⟩
  | .ok .proceed, .ok .leave => cases h
  | .ok .proceed, .error failure => cases h
  | .ok .leave, .ok .proceed => cases h
  | .ok .leave, .error failure => cases h
  | .error failure, .ok .proceed => cases h
  | .error failure, .ok .leave => cases h

/-- Work that is over stays over: no more steps turn one end into another. -/
theorem eq_of_ends_resume {n : Nat}
    (h : Ends n (fun frames => resume session frames result) session' result') :
    session' = session ∧ result' = result := by
  have hnone := h []
  dsimp only at hnone
  match result, n with
  | .error failure, n =>
      rw [run_of_isHalted rfl] at hnone
      exact eq_of_resume_nil hnone
  | .ok .leave, n =>
      rw [run_of_isHalted rfl] at hnone
      exact eq_of_resume_nil hnone
  | .ok .proceed, 0 => exact eq_of_resume_nil hnone
  | .ok .proceed, n + 1 =>
      -- Without frames the run is over in a step, as it would be after a `stop`. But a `stop`
      -- behind the work is still carried out.
      have hstop := h [.body [.stop]]
      dsimp only at hstop
      rw [run_succ_eq] at hnone hstop
      change run n (.halted session none) = _ at hnone
      change run n (.halted ((session.note (.executing .stop)).note .endedRun) none) = _ at hstop
      rw [run_of_isHalted rfl] at hnone hstop
      match result' with
      | .ok .proceed => cases hnone
      | .error failure => cases hnone
      | .ok .leave =>
          have hnoted := congrArg (·.session.journal.length) (hstop.trans hnone.symm)
          simp only [Machine.session, Session.note, List.length_cons] at hnoted
          omega

/-- Work ends in one way only. -/
theorem Ends.unique {n n' : Nat} (h : Ends n work session result)
    (h' : Ends n' work session' result') : session' = session ∧ result' = result := by
  have hlater {n n' : Nat} {session session' : Session} {result result' : Except Failure Flow}
      (hle : n ≤ n') (h : Ends n work session result) (h' : Ends n' work session' result') :
      session' = session ∧ result' = result := by
    obtain ⟨more, rfl⟩ := Nat.exists_eq_add_of_le hle
    refine eq_of_ends_resume (n := more) ?_
    intro frames
    dsimp only
    rw [← h frames, ← run_add, h' frames]
  rcases Nat.le_total n n' with hle | hle
  · exact hlater hle h h'
  · obtain ⟨rfl, rfl⟩ := hlater hle h' h
    exact ⟨rfl, rfl⟩

/-- Work that still has frames of its own takes a step before it ends. -/
theorem Ends.of_running {n : Nat} {start : Session} {frame : Frame} {own : List Frame}
    (h : Ends n work session result) (hwork : work [] = .running start (frame :: own)) :
    ∃ m, n = m + 1 ∧ Ends m (fun frames => (work frames).step) session result := by
  cases n with
  | zero => exact absurd (hwork.symm.trans (h [])) (running_ne_resume _ _ _ _ _)
  | succ m =>
      refine ⟨m, rfl, ?_⟩
      intro frames
      rw [← h frames, run_succ_eq]

/-- Work that ends after one step more ends one step later. -/
theorem Ends.of_step {n : Nat} (h : Ends n (fun frames => (work frames).step) session result) :
    Ends (n + 1) work session result := by
  intro frames
  rw [run_succ_eq, h]

/-- Work in front of other work ends first. -/
theorem Ends.split {n : Nat} {own : List Frame} (hwork : Confined work)
    (h : Ends n (fun frames => work (own ++ frames)) session result) :
    ∃ k l session₁ result₁, n = k + l ∧ Ends k work session₁ result₁ ∧
      Ends l (fun frames => resume session₁ (own ++ frames) result₁) session result := by
  rcases ends_or_running hwork n with
    ⟨k, hk, session₁, result₁, hends⟩ | ⟨session₁, frame, own', hrun⟩
  · obtain ⟨l, rfl⟩ := Nat.exists_eq_add_of_le hk
    refine ⟨k, l, session₁, result₁, rfl, hends, ?_⟩
    intro frames
    rw [← h frames, run_add, hends]
  · refine absurd (h []) ?_
    dsimp only
    rw [hrun]
    exact running_ne_resume _ _ _ _ _

/-- Work with frames of its own ends when its first part has, and then these frames. -/
theorem Ends.append {k l : Nat} {own : List Frame} {session₁ : Session}
    {result₁ : Except Failure Flow} (h : Ends k work session₁ result₁)
    (h' : Ends l (fun frames => resume session₁ (own ++ frames) result₁) session result) :
    Ends (k + l) (fun frames => work (own ++ frames)) session result := by
  intro frames
  rw [run_add, h, h']

end Machine

end Sting
