import Sting.Proofs.Machine.Bindings

/-!
# Failures are atomic

A run that fails ends within its last statement, and that statement has bound nothing: the
environment holds what the statements before it have bound. A source that cannot be read does not
even touch the console.
-/

namespace Sting

namespace Machine

/-- The statement that a run is about to begin. -/
def beginning? : Machine → Option Statement
  | .running _ (.body (s :: _) :: _) => some s
  | _ => none

end Machine

namespace Frame

/-- Work inside a statement that has begun: its answer or the end of its line is due. -/
def isPart : Frame → Bool
  | .answer .. | .newline => true
  | _ => false

/-- All these frames wait for statements to be carried out. -/
def AreBlocks (frames : List Frame) : Prop :=
  ∀ frame ∈ frames, frame.isPart = false

/-- A block may be put in front of blocks. -/
theorem AreBlocks.cons {frame : Frame} {frames : List Frame} (h : frame.isPart = false)
    (hframes : AreBlocks frames) : AreBlocks (frame :: frames) :=
  List.forall_mem_cons.mpr ⟨h, hframes⟩

end Frame

namespace Machine

open Sting.Frame (AreBlocks)

/-- The frames of a run. -/
def frames : Machine → List Frame
  | .running _ frames => frames
  | .halted .. => []

/-- After a change of the environment the frames wait on, or the run is over. -/
theorem frames_update (session : Session) (result : Except Failure Environment)
    (frames : List Frame) :
    (update session result frames).frames = frames ∨
      (update session result frames).frames = [] := by
  cases result with
  | ok env => exact .inl rfl
  | error failure => exact .inr rfl

/-- After a text is written the frames wait on, or the run is over. -/
theorem frames_write (session : Session) (text : String) (frames : List Frame) :
    (write session text frames).frames = frames ∨ (write session text frames).frames = [] := by
  unfold write
  split
  · exact .inl rfl
  · exact .inr rfl

/-- After a line is read the frames wait on, or the run is over. -/
theorem frames_answer (session : Session) (name : String) (declared : TypeTag)
    (frames : List Frame) :
    (answer session name declared frames).frames = frames ∨
      (answer session name declared frames).frames = [] := by
  unfold answer
  split
  · exact .inr rfl
  · exact .inr rfl
  · exact frames_update _ _ frames

/-- Leaving a loop leaves blocks behind. -/
theorem areBlocks_leaveLoop (session : Session) {frames : List Frame} (h : AreBlocks frames) :
    AreBlocks (leaveLoop session frames).frames := by
  obtain ⟨record, rest, hrest, hleave⟩ | hleave := leaveLoop_cases frames
  · rw [hleave]
    exact fun frame hframe => h frame (hrest.subset hframe)
  · rw [hleave]
    exact nofun

/-- Blocks that wait on, or none, are blocks. -/
theorem areBlocks_of_eq_or_nil {frames frames' : List Frame} (h : AreBlocks frames)
    (heq : frames' = frames ∨ frames' = []) : AreBlocks frames' := by
  rcases heq with rfl | rfl
  · exact h
  · exact nofun

/-- A statement leaves only blocks behind as it begins, or it leaves a part of itself on top of them
and the environment as it was. -/
theorem areBlocks_begin (session : Session) {frames : List Frame} (h : AreBlocks frames)
    (s : Statement) :
    AreBlocks (begin session frames s).frames ∨
      AreBlocks (begin session frames s).frames.tail ∧
        (begin session frames s).environment = session.environment := by
  have hpart (text : String) (frame : Frame) :
      AreBlocks (write session text (frame :: frames)).frames.tail ∧
        (write session text (frame :: frames)).environment = session.environment := by
    refine ⟨?_, environment_write session text _⟩
    rcases frames_write session text (frame :: frames) with heq | heq
    · rw [heq]
      exact h
    · rw [heq]
      exact nofun
  cases s with
  | assign name declared e =>
      obtain ⟨noted, -, hbegin⟩ := exists_begin_assign session frames name declared e
      rw [hbegin]
      exact .inl (areBlocks_of_eq_or_nil h (frames_update noted _ frames))
  | input name declared prompt => exact .inr (hpart _ _)
  | output args => exact .inr (hpart _ _)
  | conditional branches =>
      rw [begin_conditional]
      refine .inl ?_
      cases (session.choose branches).1 with
      | none => exact h
      | some body => exact h.cons rfl
  | loop condition body => exact .inl (h.cons rfl)
  | stop => exact .inl (areBlocks_leaveLoop session h)

/-- So does every step: a part of a statement is on top only right after the statement began. -/
theorem areBlocks_step {m : Machine} (h : AreBlocks m.frames.tail) :
    AreBlocks m.step.frames ∨
      AreBlocks m.step.frames.tail ∧ m.beginning?.isSome = true ∧
        m.step.environment = m.environment := by
  match m with
  | .halted session failure => exact .inl nofun
  | .running session [] => exact .inl nofun
  | .running session (.body [] :: frames) => exact .inl h
  | .running session (.body (s :: rest) :: frames) =>
      have hframes : AreBlocks (.body rest :: frames) := AreBlocks.cons rfl h
      rcases areBlocks_begin (session.note (.executing s)) hframes s with hblocks | ⟨htail, henv⟩
      · exact .inl hblocks
      · exact .inr ⟨htail, rfl, henv⟩
  | .running session (.loop condition body :: frames) =>
      rw [step_loop]
      refine .inl ?_
      change AreBlocks (if _ then _ else _)
      split
      · exact AreBlocks.cons rfl (AreBlocks.cons rfl h)
      · exact h
  | .running session (.answer name declared :: frames) =>
      exact .inl (areBlocks_of_eq_or_nil h (frames_answer session name declared frames))
  | .running session (.newline :: frames) =>
      exact .inl (areBlocks_of_eq_or_nil h (frames_write session _ frames))

/-- In a run whose frames are blocks at first, a part of a statement is on top only right after the
statement began. -/
theorem areBlocks_run {m : Machine} (h : AreBlocks m.frames) (n : Nat) :
    AreBlocks (run n m).frames ∨
      AreBlocks (run n m).frames.tail ∧ ∃ k, n = k + 1 ∧ (run k m).beginning?.isSome = true ∧
        (run n m).environment = (run k m).environment := by
  induction n with
  | zero => exact .inl h
  | succ n ih =>
      have htail : AreBlocks (run n m).frames.tail := by
        rcases ih with hblocks | ⟨htail, -⟩
        · exact fun frame hframe => hblocks frame (List.mem_of_mem_tail hframe)
        · exact htail
      rw [run_succ]
      rcases areBlocks_step htail with hblocks | ⟨htail', hbegins, henv⟩
      · exact .inl hblocks
      · exact .inr ⟨htail', n, rfl, hbegins, henv⟩

/-! ## Steps that fail -/

/-- Binding fails because of types, not because of the program text. -/
theorem kind_of_bind {env : Environment} {name : String} {tag : TypeTag} {value : Value}
    {failure : Failure} (h : env.bind name tag value = .error failure) :
    failure.diagnostic.kind ≠ .syntaxError := by
  rcases env.bind_cases name tag value with ⟨hset, -⟩ | hretyped | hmistyped
  · cases h.symm.trans hset
  · cases h.symm.trans hretyped
    nofun
  · cases h.symm.trans hmistyped
    nofun

/-- An assignment fails because of types or because its expression has no value, not because of the
program text. -/
theorem kind_of_assign {env : Environment} {name : String} {declared : Option TypeTag}
    {e : Expression} {failure : Failure} (h : env.assign name declared e = .error failure) :
    failure.diagnostic.kind ≠ .syntaxError := by
  unfold Environment.assign at h
  split at h
  · exact kind_of_bind h
  · rename_i error _
    cases h
    cases error <;> nofun

/-- A run that ends with a change of the environment ends with the failure of this change. -/
theorem eq_error_of_update {session session' : Session} {result : Except Failure Environment}
    {frames : List Frame} {failure : Failure}
    (h : update session result frames = .halted session' (some failure)) :
    result = .error failure := by
  cases result with
  | ok env => cases h
  | error failure' =>
      cases h
      rfl

/-- Writing fails with the console. -/
theorem kind_of_write {session session' : Session} {text : String} {frames : List Frame}
    {failure : Failure} (h : write session text frames = .halted session' (some failure)) :
    failure.diagnostic.kind ≠ .syntaxError := by
  unfold write at h
  split at h
  · cases h
  · cases h
    nofun

/-- Reading a line fails with the console, with the end of the input, or with the line. -/
theorem kind_of_answer {session session' : Session} {name : String} {declared : TypeTag}
    {frames : List Frame} {failure : Failure}
    (h : answer session name declared frames = .halted session' (some failure)) :
    failure.diagnostic.kind ≠ .syntaxError := by
  unfold answer at h
  split at h
  · cases h
    nofun
  · cases h
    nofun
  · rename_i line console _
    have hresult := eq_error_of_update h
    cases hvalue : Value.ofTyped name declared line with
    | ok value =>
        rw [hvalue] at hresult
        exact kind_of_bind hresult
    | error failure' =>
        rw [hvalue] at hresult
        cases hresult
        unfold Value.ofTyped at hvalue
        split at hvalue
        · split at hvalue
          · cases hvalue
          · cases hvalue
            nofun
        · cases hvalue
        · cases hvalue

/-- A `stop` outside of all loops ends the run without a failure. -/
theorem failure?_leaveLoop (session : Session) (frames : List Frame) :
    (leaveLoop session frames).failure? = none := by
  obtain ⟨record, rest, -, hleave⟩ | hleave := leaveLoop_cases frames
  · rw [hleave]
    rfl
  · rw [hleave]
    rfl

/-- No statement fails because of the program text. -/
theorem kind_of_begin {session session' : Session} {frames : List Frame} {s : Statement}
    {failure : Failure} (h : begin session frames s = .halted session' (some failure)) :
    failure.diagnostic.kind ≠ .syntaxError := by
  cases s with
  | assign name declared e =>
      obtain ⟨noted, -, hbegin⟩ := exists_begin_assign session frames name declared e
      exact kind_of_assign (eq_error_of_update (hbegin.symm.trans h))
  | input name declared prompt => exact kind_of_write h
  | output args => exact kind_of_write h
  | conditional branches =>
      rw [begin_conditional] at h
      cases h
  | loop condition body => cases h
  | stop =>
      have hnone := failure?_leaveLoop session frames
      change leaveLoop session frames = _ at h
      rw [h] at hnone
      cases hnone

/-- A step that fails begins a statement or goes on with one. It never fails like a text that cannot
be read. -/
theorem failed_step {m : Machine} {session : Session} {failure : Failure}
    (hm : m.isHalted = false) (h : m.step = .halted session (some failure)) :
    failure.diagnostic.kind ≠ .syntaxError ∧
      (m.beginning?.isSome = true ∨ ∃ frame ∈ m.frames, frame.isPart = true) := by
  match m with
  | .halted session' failure' => cases hm
  | .running session' [] => cases h
  | .running session' (.body [] :: frames) => cases h
  | .running session' (.body (s :: rest) :: frames) => exact ⟨kind_of_begin h, .inl rfl⟩
  | .running session' (.loop condition body :: frames) =>
      rw [step_loop] at h
      cases h
  | .running session' (.answer name declared :: frames) =>
      exact ⟨kind_of_answer h, .inr ⟨.answer name declared, List.mem_cons_self, rfl⟩⟩
  | .running session' (.newline :: frames) =>
      exact ⟨kind_of_write h, .inr ⟨.newline, List.mem_cons_self, rfl⟩⟩

/-- A run that ends has a last step. -/
theorem exists_last_step {m : Machine} (hm : m.isHalted = false) {n : Nat}
    (hn : (run n m).isHalted = true) :
    ∃ i, (run i m).isHalted = false ∧ ∀ j, i < j → run j m = run n m := by
  induction n with
  | zero =>
      change m.isHalted = true at hn
      rw [hm] at hn
      cases hn
  | succ n ih =>
      by_cases hlast : (run n m).isHalted = true
      · obtain ⟨i, hi, hafter⟩ := ih hlast
        refine ⟨i, hi, ?_⟩
        intro j hj
        rw [hafter j hj, run_add, run_of_isHalted hlast]
      · refine ⟨n, by simpa using hlast, ?_⟩
        intro j hj
        obtain ⟨d, rfl⟩ := Nat.exists_eq_add_of_le hj
        rw [run_add, run_of_isHalted hn]

/-- The last statement to begin in a run that fails is the one that fails, and it leaves the
environment as it found it. -/
theorem exists_failed_statement {m : Machine} (hblocks : AreBlocks m.frames)
    (hm : m.isHalted = false) {n : Nat} {session : Session} {failure : Failure}
    (h : run n m = .halted session (some failure)) :
    failure.diagnostic.kind ≠ .syntaxError ∧
      ∃ k s, (run k m).beginning? = some s ∧ (∀ j, k < j → (run j m).beginning? = none) ∧
        session.environment = (run k m).environment := by
  have hhalted : (run n m).isHalted = true := by
    rw [h]
    rfl
  obtain ⟨i, hi, hafter⟩ := exists_last_step hm hhalted
  have hstep : (run i m).step = .halted session (some failure) := by
    rw [← run_succ, hafter (i + 1) (Nat.lt_succ_self i), h]
  have henv : session.environment = (run i m).environment := by
    have hbinds := stepBinds (run i m)
    rwa [StepBinds, completed?, hstep] at hbinds
  have hended : ∀ j, i < j → (run j m).beginning? = none := by
    intro j hj
    rw [hafter j hj, h]
    rfl
  obtain ⟨hkind, hplace⟩ := failed_step hi hstep
  refine ⟨hkind, ?_⟩
  cases hbegins : (run i m).beginning? with
  | some s => exact ⟨i, s, hbegins, hended, henv⟩
  | none =>
      -- The step that fails goes on with the statement that began one step before.
      rcases hplace with hsome | ⟨frame, hframe, hpart⟩
      · rw [hbegins] at hsome
        cases hsome
      · rcases areBlocks_run hblocks i with hall | ⟨-, k, rfl, hsome, hkept⟩
        · rw [hall frame hframe] at hpart
          cases hpart
        · obtain ⟨s, hs⟩ := Option.isSome_iff_exists.mp hsome
          refine ⟨k, s, hs, ?_, henv.trans hkept⟩
          intro j hj
          rcases Nat.eq_or_lt_of_le hj with rfl | hlt
          · exact hbegins
          · exact hended j hlt

/-- A run that fails has bound what the statements completed before the failure have bound. The
statement that fails, which is the last to begin, leaves the environment as it found it. If the
source cannot be read, environment and console are as before the run. -/
theorem failures_bind_nothing (start : Session) (source : String) (n : Nat) (session : Session)
    (failure : Failure) (h : run n (ofSource start source) = .halted session (some failure)) :
    session.environment = start.environment.setAll (completed n (ofSource start source)) ∧
    (failure.diagnostic.kind = .syntaxError →
      session.environment = start.environment ∧ session.console = start.console) ∧
    (failure.diagnostic.kind ≠ .syntaxError → ∃ k s,
      (run k (ofSource start source)).beginning? = some s ∧
      (∀ j, k < j → (run j (ofSource start source)).beginning? = none) ∧
      session.environment = (run k (ofSource start source)).environment) := by
  have hrun := environment_run n (ofSource start source)
  rw [h, environment_ofSource] at hrun
  refine ⟨hrun, ?_⟩
  rcases ofSource_cases start source with ⟨noted, error, hsource, henv, hconsole⟩ |
    ⟨noted, program, hsource, -⟩
  · rw [hsource, run_of_isHalted rfl] at h
    cases h
    refine ⟨fun _ => ⟨henv, hconsole⟩, ?_⟩
    intro hkind
    exact absurd rfl hkind
  · rw [hsource] at h ⊢
    have hblocks : AreBlocks (ofProgram noted program).frames := AreBlocks.cons rfl nofun
    obtain ⟨hkind, hlast⟩ := exists_failed_statement hblocks rfl h
    exact ⟨fun hsyntax => absurd hsyntax hkind, fun _ => hlast⟩

/-- A machine that has failed is halted. -/
theorem eq_halted_of_failure? {m : Machine} {failure : Failure} (h : m.failure? = some failure) :
    m = .halted m.session (some failure) := by
  cases m with
  | running session frames => cases h
  | halted session failure' =>
      cases h
      rfl

/-- A loop that binds one variable and then fails to bind another to a value of another type. -/
theorem failures_bind_nothing_loop :
    (run 9 (ofSource (.start .empty (.ofLines []))
        "x = 'a' | loop (true) : y = x + 'b' | bln(x) = true | y = 'c' |")).environment =
      Environment.empty.setAll [("x", .text "a"), ("y", .text "ab")] := by
  have hfailure : (run 9 (ofSource (.start .empty (.ofLines []))
      "x = 'a' | loop (true) : y = x + 'b' | bln(x) = true | y = 'c' |")).failure? =
        some (.retyped "x" .boolean) := by decide +kernel
  have hcompleted : completed 9 (ofSource (.start .empty (.ofLines []))
      "x = 'a' | loop (true) : y = x + 'b' | bln(x) = true | y = 'c' |") =
        [("x", .text "a"), ("y", .text "ab")] := by decide +kernel
  rw [← hcompleted]
  exact (failures_bind_nothing _ _ 9 _ _ (eq_halted_of_failure? hfailure)).1

end Machine

end Sting
