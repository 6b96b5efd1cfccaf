import Sting.Proofs.Machine.Frames
import Sting.Proofs.Machine.Interference
import Sting.Proofs.Machine.Journal

/-!
# Execution of statements

Statements are executed by a machine that works on them in front of other frames. What comes of it
depends on the environment and the console alone. The laws say what the parts contribute: statements
one after the other, a conditional, a `stop`, and a loop in terms of its body. A run of a program is
the execution of its statements with nothing behind them.
-/

namespace Sting

namespace Machine

/-- Statements in front of other frames. -/
def block (session : Session) (statements : List Statement) (frames : List Frame) : Machine :=
  .running session (.body statements :: frames)

/-- A loop in front of other frames, before its condition is tested. -/
def cycle (session : Session) (condition : Expression) (body : List Statement)
    (frames : List Frame) : Machine :=
  .running session (.loop condition body :: frames)

/-- In this environment and on this console the statements end in another environment, on a console
that was used, and with this result, whatever frames wait behind them. -/
def Executes (statements : List Statement) (env : Environment) (console : Console)
    (env' : Environment) (console' : Console) (result : Except Failure Flow) : Prop :=
  ∃ n journal, Ends n (block (.start env console) statements) ⟨env', console', journal⟩ result

variable {session session' : Session} {result : Except Failure Flow} {s : Statement}
  {statements rest : List Statement} {condition : Expression} {body : List Statement}
  {env env' : Environment} {console console' : Console}

/-! ## The parts of the work -/

/-- Statements take no notice of the frames behind them. -/
theorem confined_block (session : Session) (statements : List Statement) :
    Confined (block session statements) :=
  .within session [.body statements] fun _ => rfl

/-- A body that is not gone through to its end is given up with what stands in front of it. -/
theorem resume_body (h : result ≠ .ok .proceed) (session : Session) (rest : List Statement)
    (frames : List Frame) :
    resume session (.body rest :: frames) result = resume session frames result := by
  match result with
  | .ok .proceed => exact absurd rfl h
  | .ok .leave => rfl
  | .error failure => rfl

/-- A failure or the end of a loop passes the statements that are left. -/
theorem ends_resume_body (h : result ≠ .ok .proceed) (session : Session) (rest : List Statement) :
    Ends 0 (fun frames => resume session (.body rest :: frames) result) session result :=
  resume_body h session rest

/-- No statements end in one step. -/
theorem ends_block_nil (session : Session) : Ends 1 (block session []) session (.ok .proceed) :=
  fun _ => rfl

/-- A `stop` ends the statements around it, whatever is left of them. -/
theorem ends_block_stop (session : Session) (rest : List Statement) :
    Ends 1 (block session (.stop :: rest)) (session.note (.executing .stop)) (.ok .leave) :=
  fun _ => rfl

/-- A statement ends before the others behind it begin. -/
theorem Ends.of_cons {n : Nat} (h : Ends n (block session (s :: rest)) session' result) :
    ∃ k l session₁ result₁, n = k + l + 1 ∧
      Ends k (fun frames => begin (session.note (.executing s)) frames s) session₁ result₁ ∧
      Ends l (fun frames => resume session₁ (.body rest :: frames) result₁) session' result := by
  obtain ⟨m, rfl, hstep⟩ := h.of_running rfl
  have hbegin : Ends m (fun frames =>
      begin (session.note (.executing s)) ([.body rest] ++ frames) s) session' result := hstep
  obtain ⟨k, l, session₁, result₁, rfl, hfirst, hrest⟩ := Ends.split (confined_begin _ s) hbegin
  exact ⟨k, l, session₁, result₁, rfl, hfirst, hrest⟩

/-- The first statement is carried out and then the others, if it comes to them. -/
theorem ends_cons {k l : Nat} {session₁ : Session} {result₁ : Except Failure Flow}
    (hfirst : Ends k (fun frames => begin (session.note (.executing s)) frames s) session₁
      result₁)
    (hrest : Ends l (fun frames => resume session₁ (.body rest :: frames) result₁) session'
      result) :
    Ends (k + l + 1) (block session (s :: rest)) session' result := by
  have hbegin : Ends (k + l) (fun frames =>
      begin (session.note (.executing s)) ([.body rest] ++ frames) s) session' result :=
    hfirst.append hrest
  exact Ends.of_step hbegin

/-- A block of one statement ends as the statement does. -/
theorem exists_ends_singleton : (∃ n, Ends n (block session [s]) session' result) ↔
    ∃ n, Ends n (fun frames => begin (session.note (.executing s)) frames s) session' result := by
  constructor
  · rintro ⟨n, h⟩
    obtain ⟨k, l, session₁, result₁, -, hfirst, hrest⟩ := h.of_cons
    by_cases hproceed : result₁ = .ok .proceed
    · subst hproceed
      obtain ⟨rfl, rfl⟩ := (ends_block_nil session₁).unique hrest
      exact ⟨k, hfirst⟩
    · simp only [resume_body hproceed] at hrest
      obtain ⟨rfl, rfl⟩ := eq_of_ends_resume hrest
      exact ⟨k, hfirst⟩
  · rintro ⟨n, h⟩
    by_cases hproceed : result = .ok .proceed
    · subst hproceed
      exact ⟨_, ends_cons h (ends_block_nil session')⟩
    · exact ⟨_, ends_cons h (ends_resume_body hproceed session' [])⟩

/-- A loop tests its condition, and works on its body in front of itself if it holds. -/
theorem Ends.of_cycle {n : Nat} (h : Ends n (cycle session condition body) session' result) :
    (condition.holds session.environment = false ∧ session' = (session.test condition).2 ∧
        result = .ok .proceed) ∨
      (condition.holds session.environment = true ∧ ∃ k l session₁ result₁, n = k + l + 1 ∧
        Ends k (block (session.test condition).2 body) session₁ result₁ ∧
        Ends l (fun frames => resume session₁ (.loop condition body :: frames) result₁)
          session' result) := by
  obtain ⟨m, rfl, hstep⟩ := h.of_running rfl
  simp only [cycle, step_loop, Session.test_fst] at hstep
  cases hholds : condition.holds session.environment with
  | false =>
      rw [hholds] at hstep
      have hover : Ends m (fun frames => resume (session.test condition).2 frames (.ok .proceed))
          session' result := hstep
      obtain ⟨rfl, rfl⟩ := eq_of_ends_resume hover
      exact .inl ⟨rfl, rfl, rfl⟩
  | true =>
      rw [hholds] at hstep
      have hblock : Ends m (fun frames =>
          block (session.test condition).2 body ([.loop condition body] ++ frames))
          session' result := hstep
      obtain ⟨k, l, session₁, result₁, rfl, hbody, hloop⟩ :=
        Ends.split (confined_block _ body) hblock
      exact .inr ⟨rfl, k, l, session₁, result₁, rfl, hbody, hloop⟩

/-- A loop whose condition does not hold ends after the test. -/
theorem ends_cycle_of_not (h : condition.holds session.environment = false)
    (body : List Statement) :
    Ends 1 (cycle session condition body) (session.test condition).2 (.ok .proceed) := by
  refine Ends.of_step ?_
  simp only [cycle, step_loop, Session.test_fst, h]
  exact fun _ => rfl

/-- A loop whose condition holds goes through its body, and then to its condition again. -/
theorem ends_cycle {k l : Nat} {session₁ : Session} {result₁ : Except Failure Flow}
    (h : condition.holds session.environment = true)
    (hbody : Ends k (block (session.test condition).2 body) session₁ result₁)
    (hloop : Ends l (fun frames => resume session₁ (.loop condition body :: frames) result₁)
      session' result) :
    Ends (k + l + 1) (cycle session condition body) session' result := by
  have hblock : Ends (k + l) (fun frames =>
      block (session.test condition).2 body ([.loop condition body] ++ frames)) session' result :=
    hbody.append hloop
  refine Ends.of_step ?_
  simp only [cycle, step_loop, Session.test_fst, h]
  exact hblock

/-! ## The journal does not matter -/

/-- Going on does not look at older records. -/
theorem resume_withPast (session : Session) (past : List Record) (frames : List Frame)
    (result : Except Failure Flow) :
    resume (session.withPast past) frames result =
      (resume session frames result).withPast past := by
  match result with
  | .ok .proceed => rfl
  | .ok .leave => exact leaveLoop_withPast session past frames
  | .error failure => rfl

variable {work : List Frame → Machine}

/-- Work ends in the same way with older records in the journal. -/
theorem Ends.withPast {n : Nat} (h : Ends n work session result) (past : List Record) :
    Ends n (fun frames => (work frames).withPast past) (session.withPast past) result := by
  intro frames
  rw [run_withPast, h, resume_withPast]

/-- How confined work ends does not depend on what was noted before. -/
theorem exists_ends_withPast (hwork : Confined work) (past : List Record) :
    (∃ n journal, Ends n (fun frames => (work frames).withPast past) ⟨env', console', journal⟩
        result) ↔
      ∃ n journal, Ends n work ⟨env', console', journal⟩ result := by
  constructor
  · rintro ⟨n, journal, h⟩
    rcases ends_or_running hwork n with
      ⟨k, -, session₁, result₁, hends⟩ | ⟨session₁, frame, own, hrun⟩
    · obtain ⟨hsession, rfl⟩ := h.unique (hends.withPast past)
      cases hsession
      exact ⟨k, session₁.journal, hends⟩
    · have hnone := h []
      rw [run_withPast, hrun] at hnone
      exact absurd hnone (running_ne_resume _ _ _ _ _)
  · rintro ⟨n, journal, h⟩
    exact ⟨n, journal ++ past, h.withPast past⟩

/-- Work that is over ends as it has ended. -/
theorem exists_ends_resume {result₁ : Except Failure Flow} :
    (∃ n journal, Ends n (fun frames => resume session frames result₁) ⟨env', console', journal⟩
        result) ↔
      env' = session.environment ∧ console' = session.console ∧ result = result₁ := by
  constructor
  · rintro ⟨n, journal, h⟩
    obtain ⟨hsession, rfl⟩ := eq_of_ends_resume h
    cases hsession
    exact ⟨rfl, rfl, rfl⟩
  · rintro ⟨rfl, rfl, rfl⟩
    exact ⟨0, session.journal, fun _ => rfl⟩

/-- Every session with the environment and the console can tell how the statements end. -/
theorem executes_iff_ends (session : Session) :
    Executes statements session.environment session.console env' console' result ↔
      ∃ n journal, Ends n (block session statements) ⟨env', console', journal⟩ result :=
  (exists_ends_withPast (confined_block (.start session.environment session.console) statements)
    session.journal).symm

/-- The statements behind a test start from the session that the test leaves. -/
theorem executes_iff_ends_test (session : Session) (condition : Expression) :
    Executes statements session.environment session.console env' console' result ↔
      ∃ n journal, Ends n (block (session.test condition).2 statements)
        ⟨env', console', journal⟩ result := by
  rw [← executes_iff_ends, Session.environment_test, Session.console_test]

/-- Statements that end in some session are executed to its environment and console. -/
theorem Ends.executes {n : Nat} (h : Ends n (block session statements) session' result) :
    Executes statements session.environment session.console session'.environment session'.console
      result :=
  (executes_iff_ends session).mpr ⟨n, session'.journal, h⟩

/-- Where one way to end is known, it is the only one. -/
theorem Ends.executes_iff {n : Nat} {session₁ : Session} {result₁ : Except Failure Flow}
    (h : Ends n (block session statements) session₁ result₁) :
    Executes statements session.environment session.console env' console' result ↔
      env' = session₁.environment ∧ console' = session₁.console ∧ result = result₁ := by
  constructor
  · intro hexecutes
    obtain ⟨k, journal, hends⟩ := (executes_iff_ends session).mp hexecutes
    obtain ⟨rfl, rfl⟩ := h.unique hends
    exact ⟨rfl, rfl, rfl⟩
  · rintro ⟨rfl, rfl, rfl⟩
    exact h.executes

/-! ## Laws of execution -/

/-- No statements change nothing. -/
theorem executes_nil : Executes [] env console env' console' result ↔
    env' = env ∧ console' = console ∧ result = .ok .proceed :=
  (ends_block_nil (.start env console)).executes_iff

/-- A `stop` gives up what stands behind it. -/
theorem executes_stop : Executes (.stop :: rest) env console env' console' result ↔
    env' = env ∧ console' = console ∧ result = .ok .leave :=
  (ends_block_stop (.start env console) rest).executes_iff

/-- The first statement is executed, and then the others if it goes on. -/
theorem executes_cons : Executes (s :: rest) env console env' console' result ↔
    (∃ env₁ console₁, Executes [s] env console env₁ console₁ (.ok .proceed) ∧
        Executes rest env₁ console₁ env' console' result) ∨
      (result ≠ .ok .proceed ∧ Executes [s] env console env' console' result) := by
  constructor
  · rintro ⟨n, journal, h⟩
    obtain ⟨k, l, session₁, result₁, -, hfirst, hrest⟩ := h.of_cons
    obtain ⟨m, hsingle⟩ := exists_ends_singleton.mpr ⟨k, hfirst⟩
    by_cases hproceed : result₁ = .ok .proceed
    · subst hproceed
      exact .inl ⟨_, _, hsingle.executes, Ends.executes (n := l) hrest⟩
    · simp only [resume_body hproceed] at hrest
      obtain ⟨rfl, rfl⟩ := eq_of_ends_resume hrest
      exact .inr ⟨hproceed, hsingle.executes⟩
  · rintro (⟨env₁, console₁, ⟨n, journal, hsingle⟩, hrest⟩ | ⟨hproceed, n, journal, hsingle⟩)
    · obtain ⟨k, hfirst⟩ := exists_ends_singleton.mp ⟨n, hsingle⟩
      obtain ⟨l, journal', hends⟩ := (executes_iff_ends ⟨env₁, console₁, journal⟩).mp hrest
      exact (ends_cons hfirst hends).executes
    · obtain ⟨k, hfirst⟩ := exists_ends_singleton.mp ⟨n, hsingle⟩
      exact (ends_cons hfirst (ends_resume_body hproceed ⟨env', console', journal⟩ rest)).executes

/-- The first statements are executed, and then the others if they go on. -/
theorem executes_append (first second : List Statement) :
    Executes (first ++ second) env console env' console' result ↔
      (∃ env₁ console₁, Executes first env console env₁ console₁ (.ok .proceed) ∧
          Executes second env₁ console₁ env' console' result) ∨
        (result ≠ .ok .proceed ∧ Executes first env console env' console' result) := by
  induction first generalizing env console with
  | nil =>
      rw [List.nil_append]
      constructor
      · intro h
        exact .inl ⟨env, console, executes_nil.mpr ⟨rfl, rfl, rfl⟩, h⟩
      · rintro (⟨env₁, console₁, hnil, h⟩ | ⟨hproceed, hnil⟩)
        · obtain ⟨rfl, rfl, -⟩ := executes_nil.mp hnil
          exact h
        · exact absurd (executes_nil.mp hnil).2.2 hproceed
  | cons s first ih =>
      rw [List.cons_append, executes_cons]
      constructor
      · rintro (⟨env₁, console₁, hs, h⟩ | ⟨hproceed, hs⟩)
        · rcases ih.mp h with ⟨env₂, console₂, hfirst, hsecond⟩ | ⟨hproceed, hfirst⟩
          · refine .inl ⟨env₂, console₂, ?_, hsecond⟩
            exact executes_cons.mpr (.inl ⟨env₁, console₁, hs, hfirst⟩)
          · exact .inr ⟨hproceed, executes_cons.mpr (.inl ⟨env₁, console₁, hs, hfirst⟩)⟩
        · exact .inr ⟨hproceed, executes_cons.mpr (.inr ⟨hproceed, hs⟩)⟩
      · rintro (⟨env₂, console₂, h, hsecond⟩ | ⟨hproceed, h⟩)
        · rcases executes_cons.mp h with ⟨env₁, console₁, hs, hfirst⟩ | ⟨hne, -⟩
          · exact .inl ⟨env₁, console₁, hs, ih.mpr (.inl ⟨env₂, console₂, hfirst, hsecond⟩)⟩
          · exact absurd rfl hne
        · rcases executes_cons.mp h with ⟨env₁, console₁, hs, hfirst⟩ | ⟨hne, hs⟩
          · exact .inl ⟨env₁, console₁, hs, ih.mpr (.inr ⟨hproceed, hfirst⟩)⟩
          · exact .inr ⟨hne, hs⟩

/-- A statement is executed as it begins. -/
theorem executes_singleton : Executes [s] env console env' console' result ↔
    ∃ n journal, Ends n
      (fun frames => begin ((Session.start env console).note (.executing s)) frames s)
      ⟨env', console', journal⟩ result := by
  rw [Executes, exists_comm]
  simp only [exists_ends_singleton]
  rw [exists_comm]

/-- A conditional with one arm is its body where the condition holds, and nothing elsewhere. -/
theorem executes_conditional :
    Executes [.conditional [⟨some condition, body⟩]] env console env' console' result ↔
      (condition.holds env = true ∧ Executes body env console env' console' result) ∨
        (condition.holds env = false ∧ env' = env ∧ console' = console ∧
          result = .ok .proceed) := by
  rw [executes_singleton]
  obtain ⟨noted, hnoted, rfl, rfl⟩ : ∃ noted : Session,
      (Session.start env console).note (.executing (.conditional [⟨some condition, body⟩])) =
        noted ∧ noted.environment = env ∧ noted.console = console := ⟨_, rfl, rfl, rfl⟩
  have hbegin (frames : List Frame) : begin noted frames (.conditional [⟨some condition, body⟩]) =
      if condition.holds noted.environment then block (noted.test condition).2 body frames
        else resume (noted.test condition).2 frames (.ok .proceed) := by
    rw [begin, Session.choose, ← noted.test_fst]
    obtain ⟨holds, tester⟩ := noted.test condition
    cases holds <;> rfl
  simp only [hnoted, hbegin]
  cases condition.holds noted.environment with
  | true =>
      simp [executes_iff_ends_test noted condition]
  | false => simp [exists_ends_resume]

/-- Any session with the environment and the console can tell how a loop ends. -/
theorem executes_loop_iff_ends (session : Session) :
    Executes [.loop condition body] session.environment session.console env' console' result ↔
      ∃ n journal, Ends n (cycle session condition body) ⟨env', console', journal⟩ result := by
  have hcycle : Confined (cycle (.start session.environment session.console) condition body) :=
    .within _ [.loop condition body] fun _ => rfl
  rw [executes_singleton]
  exact (exists_ends_withPast hcycle [.executing (.loop condition body)]).trans
    (exists_ends_withPast hcycle session.journal).symm

/-- A loop that ends in some session is executed to its environment and console. -/
theorem Ends.executes_loop {n : Nat} (h : Ends n (cycle session condition body) session' result) :
    Executes [.loop condition body] session.environment session.console session'.environment
      session'.console result :=
  (executes_loop_iff_ends session).mpr ⟨n, session'.journal, h⟩

/-- A loop that its body leaves or fails in is over. -/
theorem exists_resume_loop {result₁ : Except Failure Flow} (h : result₁ ≠ .ok .proceed)
    (session : Session) (condition : Expression) (body : List Statement) :
    ∃ session₁ : Session, session₁.environment = session.environment ∧
      session₁.console = session.console ∧
      ∀ frames, resume session (.loop condition body :: frames) result₁ =
        resume session₁ frames (result₁.map fun _ => .proceed) := by
  match result₁ with
  | .ok .proceed => exact absurd rfl h
  | .ok .leave => exact ⟨session.note (.leftLoop condition.source), rfl, rfl, fun _ => rfl⟩
  | .error failure => exact ⟨session, rfl, rfl, fun _ => rfl⟩

/-- A loop is nothing where its condition fails. Where it holds, the loop is its body, and then the
loop again if the body goes on. A body that is left ends the loop, and the loop goes on. -/
theorem executes_loop :
    Executes [.loop condition body] env console env' console' result ↔
      (condition.holds env = false ∧ env' = env ∧ console' = console ∧ result = .ok .proceed) ∨
      (condition.holds env = true ∧ ∃ env₁ console₁ result₁,
        Executes body env console env₁ console₁ result₁ ∧
          ((result₁ = .ok .proceed ∧
              Executes [.loop condition body] env₁ console₁ env' console' result) ∨
            (result₁ ≠ .ok .proceed ∧ env' = env₁ ∧ console' = console₁ ∧
              result = result₁.map fun _ => .proceed))) := by
  obtain ⟨session, rfl, rfl⟩ : ∃ session : Session,
      session.environment = env ∧ session.console = console := ⟨.start env console, rfl, rfl⟩
  constructor
  · intro h
    obtain ⟨n, journal, hends⟩ := (executes_loop_iff_ends session).mp h
    rcases hends.of_cycle with
      ⟨hholds, hsession, rfl⟩ | ⟨hholds, k, l, session₁, result₁, -, hbody, hloop⟩
    · have henv := session.environment_test condition
      have hconsole := session.console_test condition
      rw [← hsession] at henv hconsole
      exact .inl ⟨hholds, henv, hconsole, rfl⟩
    · refine .inr ⟨hholds, session₁.environment, session₁.console, result₁,
        (executes_iff_ends_test session condition).mpr ⟨k, session₁.journal, hbody⟩, ?_⟩
      by_cases hproceed : result₁ = .ok .proceed
      · subst hproceed
        exact .inl ⟨rfl, (executes_loop_iff_ends session₁).mpr ⟨l, journal, hloop⟩⟩
      · obtain ⟨session₂, henv, hconsole, hresume⟩ :=
          exists_resume_loop hproceed session₁ condition body
        simp only [hresume] at hloop
        obtain ⟨henv', hconsole', hresult⟩ := exists_ends_resume.mp ⟨l, journal, hloop⟩
        exact .inr ⟨hproceed, henv'.trans henv, hconsole'.trans hconsole, hresult⟩
  · rintro (⟨hholds, rfl, rfl, rfl⟩ | ⟨hholds, env₁, console₁, result₁, hexecutes, hthen⟩)
    · have hloop := (ends_cycle_of_not hholds body).executes_loop
      rwa [Session.environment_test, Session.console_test] at hloop
    · obtain ⟨k, journal, hbody⟩ := (executes_iff_ends_test session condition).mp hexecutes
      rcases hthen with ⟨rfl, hloop⟩ | ⟨hproceed, rfl, rfl, rfl⟩
      · obtain ⟨l, journal', hends⟩ :=
          (executes_loop_iff_ends ⟨env₁, console₁, journal⟩).mp hloop
        exact (ends_cycle hholds hbody hends).executes_loop
      · obtain ⟨session₂, henv, hconsole, hresume⟩ :=
          exists_resume_loop hproceed ⟨env', console', journal⟩ condition body
        have hends : Ends 0 (fun frames => resume ⟨env', console', journal⟩
            (.loop condition body :: frames) result₁) session₂
            (result₁.map fun _ => .proceed) := hresume
        have hloop := (ends_cycle hholds hbody hends).executes_loop
        rwa [henv, hconsole] at hloop

/-! ## Runs of programs -/

/-- The failure that a result tells. -/
def failureOf : Except Failure Flow → Option Failure
  | .ok _ => none
  | .error failure => some failure

/-- With nothing behind it, work that is over ends the run. -/
theorem exists_endsWith_resume (session : Session) (result : Except Failure Flow) :
    ∃ session' : Session, (resume session [] result).EndsWith session' (failureOf result) ∧
      session'.environment = session.environment ∧ session'.console = session.console := by
  match result with
  | .ok .proceed => exact ⟨session, ⟨1, rfl⟩, rfl, rfl⟩
  | .ok .leave => exact ⟨session.note .endedRun, ⟨0, rfl⟩, rfl, rfl⟩
  | .error failure => exact ⟨session, ⟨0, rfl⟩, rfl, rfl⟩

/-- A run of a program ends as the execution of its statements does. -/
theorem endsWith_ofProgram_iff {program : List Statement} {failure : Option Failure} :
    (∃ journal, (ofProgram (.start env console) program).EndsWith ⟨env', console', journal⟩
        failure) ↔
      ∃ result, Executes program env console env' console' result ∧
        failureOf result = failure := by
  constructor
  · rintro ⟨journal, n, hn⟩
    rcases ends_or_running (confined_block (.start env console) program) n with
      ⟨k, hk, session₁, result, hends⟩ | ⟨session₁, frame, own, hrun⟩
    · obtain ⟨l, rfl⟩ := Nat.exists_eq_add_of_le hk
      have hrest : (resume session₁ [] result).EndsWith ⟨env', console', journal⟩ failure := by
        refine ⟨l, ?_⟩
        rw [← hends [], ← run_add]
        exact hn
      obtain ⟨session₂, hover, henv, hconsole⟩ := exists_endsWith_resume session₁ result
      obtain ⟨rfl, rfl⟩ := hrest.unique hover
      refine ⟨result, ⟨k, session₁.journal, ?_⟩, rfl⟩
      rw [show env' = session₁.environment from henv,
        show console' = session₁.console from hconsole]
      exact hends
    · have hrunning := (hrun []).symm.trans hn
      cases hrunning
  · rintro ⟨result, ⟨n, journal, hends⟩, rfl⟩
    obtain ⟨⟨env₁, console₁, journal₁⟩, ⟨l, hl⟩, rfl, rfl⟩ :=
      exists_endsWith_resume ⟨env', console', journal⟩ result
    refine ⟨journal₁, n + l, ?_⟩
    rw [run_add, ← hl, ← hends []]
    rfl

end Machine

end Sting
