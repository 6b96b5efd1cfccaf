import Sting.Proofs.Machine.Bindings
import Sting.Proofs.Statement.Names

/-!
# Names that a program does not mention

Two runs of a program in environments that agree on the names of the program go in parallel: after
every step they have the same frames, the same console and the same journal, and their environments
agree. Names that the program does not mention are neither read nor bound.
-/

namespace Sting

open Statement (bodyNames armNames)
open Environment (AgreeOn)

/-- The names that a frame mentions. -/
def Frame.names : Frame → List String
  | .body statements => bodyNames statements
  | .loop condition statements => condition.names ++ bodyNames statements
  | .answer name _ => [name]
  | .newline => []

/-- Frames that mention no names but these. -/
def Frame.Mention (names : List String) (frames : List Frame) : Prop :=
  ∀ frame ∈ frames, frame.names ⊆ names

variable {names : List String}

/-- A frame in front adds the names that it mentions. -/
theorem Frame.Mention.cons {frame : Frame} {frames : List Frame} (hframes : Mention names frames)
    (h : frame.names ⊆ names) : Mention names (frame :: frames) :=
  List.forall_mem_cons.mpr ⟨h, hframes⟩

namespace Session

/-- Sessions that differ at most in the values of names other than these. -/
structure Parallel (names : List String) (s s' : Session) : Prop where
  agree : AgreeOn names s.environment s'.environment
  console : s.console = s'.console
  journal : s.journal = s'.journal

variable {s s' : Session}

/-- Both sessions note the same. -/
theorem Parallel.note (h : s.Parallel names s') (r : Record) :
    (s.note r).Parallel names (s'.note r) :=
  ⟨h.agree, h.console, congrArg (r :: ·) h.journal⟩

/-- Both may be put on one console. -/
theorem Parallel.withConsole (h : s.Parallel names s') (console : Console) :
    (s.withConsole console).Parallel names (s'.withConsole console) :=
  ⟨h.agree, rfl, h.journal⟩

/-- A condition that mentions no other names is tested with the same outcome. -/
theorem Parallel.test (h : s.Parallel names s') {condition : Expression}
    (hnames : condition.names ⊆ names) :
    (s.test condition).1 = (s'.test condition).1 ∧
      (s.test condition).2.Parallel names (s'.test condition).2 := by
  unfold Session.test
  rw [Expression.evaluate_congr (h.agree.mono hnames)]
  split
  · exact ⟨rfl, h⟩
  · exact ⟨rfl, h.note _⟩

/-- Where the arms mention no other names, the same arm is taken in both. -/
theorem Parallel.choose (h : s.Parallel names s') {branches : List (Branch Statement)}
    (hnames : armNames branches ⊆ names) :
    (s.choose branches).1 = (s'.choose branches).1 ∧
      (s.choose branches).2.Parallel names (s'.choose branches).2 ∧
        ∀ body ∈ (s.choose branches).1, bodyNames body ⊆ names := by
  induction branches generalizing s s' with
  | nil => exact ⟨rfl, h, nofun⟩
  | cons branch branches ih =>
      obtain ⟨condition, body⟩ := branch
      rw [armNames, List.append_subset, List.append_subset] at hnames
      obtain ⟨⟨hcondition, hbody⟩, hrest⟩ := hnames
      cases condition with
      | none =>
          refine ⟨rfl, h, ?_⟩
          rintro _ ⟨⟩
          exact hbody
      | some condition =>
          have htest := h.test hcondition
          cases hs : s.test condition with
          | mk holds tester =>
              cases hs' : s'.test condition with
              | mk holds' tester' =>
                  rw [hs, hs'] at htest
                  obtain ⟨rfl, htested⟩ := htest
                  simp only [Session.choose, hs, hs']
                  cases holds with
                  | true =>
                      refine ⟨rfl, htested, ?_⟩
                      rintro _ ⟨⟩
                      exact hbody
                  | false => exact ih htested hrest

end Session

namespace Machine

open Sting.Frame (Mention)

/-- The machine mentions no names but these. -/
def Mentions (names : List String) : Machine → Prop
  | .running _ frames => Mention names frames
  | .halted .. => True

/-- Runs at the same point that differ at most in the values of names other than these. -/
inductive Parallel (names : List String) : Machine → Machine → Prop
  | running {s s' : Session} {frames : List Frame} (h : s.Parallel names s')
      (hframes : Mention names frames) : Parallel names (.running s frames) (.running s' frames)
  | halted {s s' : Session} (failure : Option Failure) (h : s.Parallel names s') :
      Parallel names (.halted s failure) (.halted s' failure)

variable {s s' : Session} {frames : List Frame}

/-- A text is written in both, or neither run goes on. -/
theorem parallel_write (h : s.Parallel names s') (text : String) (hframes : Mention names frames) :
    Parallel names (write s text frames) (write s' text frames) := by
  unfold write
  rw [← h.console]
  split
  · exact .running (h.withConsole _) hframes
  · exact .halted _ h

/-- Outcomes that agree on the names lead to runs that do. -/
theorem parallel_update (h : s.Parallel names s') {result result' : Except Failure Environment}
    (hresult : Environment.SameOutcome names result result') (hframes : Mention names frames) :
    Parallel names (update s result frames) (update s' result' frames) := by
  cases hresult with
  | ok hagree => exact .running ⟨hagree, h.console, h.journal⟩ hframes
  | error failure => exact .halted _ h

/-- Both runs read the same line, and make the same of the variable. -/
theorem parallel_answer (h : s.Parallel names s') {name : String} (hname : name ∈ names)
    (declared : TypeTag) (hframes : Mention names frames) :
    Parallel names (answer s name declared frames) (answer s' name declared frames) := by
  unfold answer
  rw [← h.console]
  split
  · exact .halted _ h
  · exact .halted _ (h.withConsole _)
  · rename_i line console _
    refine parallel_update (h.withConsole console) ?_ hframes
    cases Value.ofTyped name declared line with
    | error failure => exact .error failure
    | ok value => exact Environment.sameOutcome_bind h.agree hname declared value

/-- Both runs leave the same loop. -/
theorem parallel_leaveLoop (h : s.Parallel names s') (hframes : Mention names frames) :
    Parallel names (leaveLoop s frames) (leaveLoop s' frames) := by
  obtain ⟨record, rest, hrest, hleave⟩ | hleave := leaveLoop_cases frames
  · rw [hleave, hleave]
    exact .running (h.note record) fun frame hframe => hframes frame (hrest.subset hframe)
  · rw [hleave, hleave]
    exact .halted none (h.note .endedRun)

/-- A statement that mentions no other names is begun alike. -/
theorem parallel_begin (h : s.Parallel names s') (hframes : Mention names frames)
    {statement : Statement} (hnames : statement.names ⊆ names) :
    Parallel names (begin s frames statement) (begin s' frames statement) := by
  cases statement with
  | assign name declared e =>
      have houtcome := Environment.sameOutcome_assign h.agree hnames declared
      have he : e.names ⊆ names := (List.cons_subset.mp hnames).2
      by_cases hdeclared : declared = some .boolean
      · simp only [begin, if_pos hdeclared, Session.environment_test]
        exact parallel_update (h.test he).2 houtcome hframes
      · simp only [begin, if_neg hdeclared]
        exact parallel_update h houtcome hframes
  | input name declared prompt => exact parallel_write h _ (hframes.cons hnames)
  | output args =>
      have hline : s.environment.line args = s'.environment.line args :=
        Environment.line_congr (h.agree.mono hnames)
      rw [begin, begin, hline]
      exact parallel_write h _ (hframes.cons (List.nil_subset _))
  | conditional branches =>
      obtain ⟨hchosen, hchooser, hbody⟩ := h.choose hnames
      rw [begin_conditional, begin_conditional, ← hchosen]
      refine .running hchooser ?_
      cases hbranch : (s.choose branches).1 with
      | none => exact hframes
      | some body => exact hframes.cons (hbody body hbranch)
  | loop condition body => exact .running h (hframes.cons hnames)
  | stop => exact parallel_leaveLoop h hframes

/-- Runs in parallel take the same step. -/
theorem Parallel.step {m m' : Machine} (h : Parallel names m m') :
    Parallel names m.step m'.step := by
  cases h with
  | halted failure h => exact .halted failure h
  | @running s s' frames h hframes =>
      match frames with
      | [] => exact .halted none h
      | .body [] :: frames => exact .running h (List.forall_mem_cons.mp hframes).2
      | .body (statement :: rest) :: frames =>
          obtain ⟨hbody, hframes⟩ := List.forall_mem_cons.mp hframes
          obtain ⟨hstatement, hrest⟩ := List.append_subset.mp hbody
          have hframes' : Mention names (.body rest :: frames) := Mention.cons hframes hrest
          exact parallel_begin (h.note _) hframes' hstatement
      | .loop condition body :: frames =>
          obtain ⟨hloop, hframes⟩ := List.forall_mem_cons.mp hframes
          obtain ⟨hcondition, hbody⟩ := List.append_subset.mp hloop
          obtain ⟨hholds, htested⟩ := h.test hcondition
          rw [step_loop, step_loop, ← hholds]
          refine .running htested ?_
          split
          · exact Mention.cons (Mention.cons hframes hloop) hbody
          · exact hframes
      | .answer name declared :: frames =>
          obtain ⟨hanswer, hframes⟩ := List.forall_mem_cons.mp hframes
          exact parallel_answer h (hanswer List.mem_cons_self) declared hframes
      | .newline :: frames => exact parallel_write h _ (List.forall_mem_cons.mp hframes).2

/-- Runs that start in parallel stay so, by induction on the steps. -/
theorem Parallel.run {m m' : Machine} (h : Parallel names m m') (n : Nat) :
    Parallel names (Machine.run n m) (Machine.run n m') := by
  induction n with
  | zero => exact h
  | succ n ih =>
      rw [run_succ, run_succ]
      exact ih.step

/-- Runs in parallel mention no other names. -/
theorem Parallel.mentions {m m' : Machine} (h : Parallel names m m') :
    m.Mentions names ∧ m'.Mentions names := by
  cases h with
  | running h hframes => exact ⟨hframes, hframes⟩
  | halted failure h => exact ⟨trivial, trivial⟩

/-- A step binds none but the names that the machine mentions. -/
theorem Mentions.of_completed? {m : Machine} (h : m.Mentions names) {name : String} {value : Value}
    (hcompleted : m.completed? = some (name, value)) : name ∈ names := by
  have hoffered : m.offered? = some (name, value) := by
    rw [completed?] at hcompleted
    split at hcompleted
    · cases hcompleted
    · exact hcompleted
  unfold offered? at hoffered
  split at hoffered
  · obtain ⟨_, -, heq⟩ := Option.map_eq_some_iff.mp hoffered
    cases heq
    exact h _ List.mem_cons_self List.mem_cons_self
  · split at hoffered
    · obtain ⟨_, -, heq⟩ := Option.map_eq_some_iff.mp hoffered
      cases heq
      exact h _ List.mem_cons_self List.mem_cons_self
    · cases hoffered
  · cases hoffered

/-- Other names keep what they are bound to. -/
theorem Mentions.get?_step {m : Machine} (h : m.Mentions names) {name : String}
    (hname : name ∉ names) : m.step.environment.get? name = m.environment.get? name := by
  rw [stepBinds]
  cases hcompleted : m.completed? with
  | none => rfl
  | some binding =>
      obtain ⟨bound, value⟩ := binding
      have hne : bound ≠ name := by
        rintro rfl
        exact hname (h.of_completed? hcompleted)
      change (m.environment.set bound value).get? name = _
      rw [Environment.get?_set, if_neg hne]

/-- A run in parallel with another leaves names alone that it does not mention. -/
theorem Parallel.get?_run {m m' : Machine} (h : Parallel names m m') {name : String}
    (hname : name ∉ names) (n : Nat) :
    (Machine.run n m).environment.get? name = m.environment.get? name ∧
      (Machine.run n m').environment.get? name = m'.environment.get? name := by
  induction n with
  | zero => exact ⟨rfl, rfl⟩
  | succ n ih =>
      obtain ⟨hm, hm'⟩ := (h.run n).mentions
      rw [run_succ, run_succ, hm.get?_step hname, hm'.get?_step hname]
      exact ih

/-- The run ends in this session, with this failure if it fails. -/
def EndsWith (m : Machine) (session : Session) (failure : Option Failure) : Prop :=
  ∃ n, Machine.run n m = .halted session failure

/-- A run ends in one way only. -/
theorem EndsWith.unique {m : Machine} {session session' : Session}
    {failure failure' : Option Failure} (h : m.EndsWith session failure)
    (h' : m.EndsWith session' failure') : session = session' ∧ failure = failure' := by
  obtain ⟨n, hn⟩ := h
  obtain ⟨n', hn'⟩ := h'
  have heq : Machine.halted session failure = .halted session' failure' := by
    rw [← run_of_isHalted (m := .halted session failure) rfl n', ← hn, ← run_add, Nat.add_comm,
      run_add, hn', run_of_isHalted rfl]
  cases heq
  exact ⟨rfl, rfl⟩

/-- A run in parallel with one that ends also ends, in a parallel session and with the same
failure. -/
theorem Parallel.endsWith {m m' : Machine} (h : Parallel names m m') {session : Session}
    {failure : Option Failure} (hends : m.EndsWith session failure) :
    ∃ session', m'.EndsWith session' failure ∧ session.Parallel names session' ∧
      ∀ name ∉ names, session.environment.get? name = m.environment.get? name ∧
        session'.environment.get? name = m'.environment.get? name := by
  obtain ⟨n, hn⟩ := hends
  have hrun := h.run n
  have hother (name : String) (hname : name ∉ names) := h.get?_run hname n
  rw [hn] at hrun hother
  cases hm' : Machine.run n m' with
  | running session' frames' =>
      rw [hm'] at hrun
      cases hrun
  | halted session' failure' =>
      rw [hm'] at hrun hother
      cases hrun with
      | halted _ hsession => exact ⟨session', ⟨n, hm'⟩, hsession, hother⟩

/-- The names that a program does not mention do not matter to it. In two environments that agree on
the others it ends or goes on forever alike; where it ends, it does so with the same failure or
none, on the same console, and in environments that agree again; and the other names are bound as
they were. -/
theorem unmentioned_names_are_inert (program : List Statement) (env env' : Environment)
    (console : Console) (h : AgreeOn (bodyNames program) env env') :
    ((∃ session failure, (ofProgram (.start env console) program).EndsWith session failure) ↔
      ∃ session failure, (ofProgram (.start env' console) program).EndsWith session failure) ∧
    ∀ session session' failure failure',
      (ofProgram (.start env console) program).EndsWith session failure →
      (ofProgram (.start env' console) program).EndsWith session' failure' →
        failure = failure' ∧ session.console = session'.console ∧
        AgreeOn (bodyNames program) session.environment session'.environment ∧
        ∀ name ∉ bodyNames program, session.environment.get? name = env.get? name ∧
          session'.environment.get? name = env'.get? name := by
  have hparallel {env env' : Environment} (h : AgreeOn (bodyNames program) env env') :
      Parallel (bodyNames program) (ofProgram (.start env console) program)
        (ofProgram (.start env' console) program) :=
    .running ⟨h, rfl, rfl⟩ (Mention.cons nofun (List.Subset.refl _))
  refine ⟨⟨?_, ?_⟩, ?_⟩
  · rintro ⟨session, failure, hends⟩
    obtain ⟨session', hends', -⟩ := (hparallel h).endsWith hends
    exact ⟨session', failure, hends'⟩
  · rintro ⟨session', failure, hends'⟩
    obtain ⟨session, hends, -⟩ := (hparallel h.symm).endsWith hends'
    exact ⟨session, failure, hends⟩
  · intro session session' failure failure' hends hends'
    obtain ⟨session'', hends'', hsession, hother⟩ := (hparallel h).endsWith hends
    obtain ⟨rfl, rfl⟩ := hends''.unique hends'
    exact ⟨rfl, hsession.console, hsession.agree, hother⟩

/-- A run that is halted has ended. -/
theorem exists_endsWith {m : Machine} {n : Nat} (h : (run n m).isHalted = true) :
    ∃ session failure, m.EndsWith session failure := by
  cases hm : run n m with
  | running session frames =>
      rw [hm] at h
      cases h
  | halted session failure => exact ⟨session, failure, n, hm⟩

/-- A variable does not matter to a loop that only shows a quoted text like its name. -/
theorem unmentioned_names_are_inert_quoted :
    let program : List Statement :=
      [.loop (.compile "x == 'a'") [.assign "x" none (.compile "y"), .output ["x", "'z'"]]]
    let env := (Environment.empty.set "x" (.text "a")).set "y" (.text "b")
    ∃ session session' failure,
      (ofProgram (.start env (.ofLines [])) program).EndsWith session failure ∧
      (ofProgram (.start (env.set "z" (.text "c")) (.ofLines [])) program).EndsWith
        session' failure ∧
      session.console = session'.console ∧
      session'.environment.get? "z" = some (.text "c") := by
  intro program env
  have hagree : AgreeOn (bodyNames program) env (env.set "z" (.text "c")) := by
    unfold AgreeOn
    decide +kernel
  obtain ⟨hiff, hall⟩ :=
    unmentioned_names_are_inert program env (env.set "z" (.text "c")) (.ofLines []) hagree
  have hhalted : (run 9 (ofProgram (.start env (.ofLines [])) program)).isHalted = true := by
    decide +kernel
  obtain ⟨session, failure, hends⟩ := exists_endsWith hhalted
  obtain ⟨session', failure', hends'⟩ := hiff.mp ⟨session, failure, hends⟩
  obtain ⟨rfl, hconsole, -, hother⟩ := hall session session' failure failure' hends hends'
  refine ⟨session, session', failure, hends, hends', hconsole, ?_⟩
  rw [(hother "z" (by decide +kernel)).2, Environment.get?_set_self]

end Machine

end Sting
