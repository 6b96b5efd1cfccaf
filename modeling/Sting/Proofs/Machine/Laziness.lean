import Sting.Proofs.Machine.Faults
import Sting.Proofs.Machine.Interference

/-!
# Lines are read when they are asked for

A run that does not run out of input depends on the lines that it reads and on nothing else about
the console: on any other console where these lines come first it takes the same steps, adds the
same text to what was shown before, and leaves the lines behind them.
-/

namespace Sting

/-- The call took a line. -/
def Exchange.isLine : Exchange → Bool
  | .typed (some _) => true
  | _ => false

namespace Console

/-- How many lines were typed so far. -/
def linesTyped (c : Console) : Nat :=
  c.transcript.countP Exchange.isLine

/-- What is written comes behind what was shown before. -/
theorem output_wrote (c : Console) (text : String) : (c.wrote text).output = c.output ++ text := by
  simp [output, wrote, Exchange.output, String.join]

/-- Typing a line shows nothing. -/
theorem output_typed (c : Console) : c.typed.output = c.output := by
  simp [output, typed, Exchange.output, String.join]

/-- How a console has changed when these lines were typed on it and this text was shown. -/
structure Served (lines : List String) (text : String) (c c' : Console) : Prop where
  intact : c'.Intact
  input : c.input = lines ++ c'.input
  output : c'.output = c.output ++ text
  counts : c'.linesTyped = c.linesTyped + lines.length

/-- A console that is not used is served with nothing. -/
theorem Served.refl {c : Console} (h : c.Intact) : Served [] "" c c :=
  ⟨h, rfl, String.append_empty.symm, rfl⟩

/-- Lines and texts of two stretches are put together. -/
theorem Served.trans {lines lines' : List String} {text text' : String} {c c' c'' : Console}
    (h : Served lines text c c') (h' : Served lines' text' c' c'') :
    Served (lines ++ lines') (text ++ text') c c'' where
  intact := h'.intact
  input := by rw [h.input, h'.input, List.append_assoc]
  output := by rw [h'.output, h.output, String.append_assoc]
  counts := by rw [h'.counts, h.counts, List.length_append, Nat.add_assoc]

/-- Writing takes no line. -/
theorem served_wrote {c : Console} (h : c.Intact) (text : String) :
    Served [] text c (c.wrote text) where
  intact := h.wrote text
  input := rfl
  output := output_wrote c text
  counts := List.countP_cons_of_neg nofun

/-- Reading takes the first line and shows nothing. -/
theorem served_typed {c : Console} (h : c.Intact) {line : String} {rest : List String}
    (hinput : c.input = line :: rest) : Served [line] "" c c.typed where
  intact := h.typed
  input := by rw [typed, hinput]; rfl
  output := by rw [output_typed, String.append_empty]
  counts := by
    rw [linesTyped, typed, hinput]
    exact List.countP_cons_of_pos rfl

end Console

namespace Machine

open Console

/-- What comes of some steps wherever these lines come first: they take the lines, show this text,
and are the same otherwise. -/
def Follows (steps : Machine → Machine) (m : Machine) (lines : List String) (text : String) :
    Prop :=
  ∀ c : Console, c.Intact → lines <+: c.input →
    ∃ c', Served lines text c c' ∧ steps (m.withConsole c) = (steps m).withConsole c'

variable {steps steps' : Machine → Machine} {m : Machine} {lines lines' : List String}
  {text text' : String}

/-- On its own console a machine does what it does. -/
theorem Follows.served (h : Follows steps m lines text) (hm : m.console.Intact)
    (hlines : lines <+: m.console.input) : Served lines text m.console (steps m).console := by
  obtain ⟨c, hserved, hsteps⟩ := h m.console hm hlines
  rw [console, withConsole_self] at hsteps
  have hc : (steps m).console = c := by
    rw [hsteps]
    exact console_withConsole _ c
  rwa [hc]

/-- Steps that follow steps take their lines behind them. -/
theorem Follows.trans (h : Follows steps m lines text)
    (h' : Follows steps' (steps m) lines' text') :
    Follows (fun m => steps' (steps m)) m (lines ++ lines') (text ++ text') := by
  intro c hc hlines
  obtain ⟨c', hserved, hsteps⟩ := h c hc ((List.prefix_append _ _).trans hlines)
  have hlines' : lines' <+: c'.input := by
    rwa [hserved.input, List.prefix_append_right_inj] at hlines
  obtain ⟨c'', hserved', hsteps'⟩ := h' c' hserved.intact hlines'
  refine ⟨c'', hserved.trans hserved', ?_⟩
  dsimp only
  rw [hsteps, hsteps']

/-- A line was asked for when none was left. -/
def Starved (m : Machine) : Prop :=
  ∃ name, m.failure? = some (.noInput name)

/-- A run that starved stays as it is. -/
theorem Starved.run {m : Machine} (h : m.Starved) (n : Nat) : (Machine.run n m).Starved := by
  cases m with
  | running session frames =>
      obtain ⟨name, hname⟩ := h
      cases hname
  | halted session failure => rwa [run_of_isHalted rfl]

/-- A step that is not left without a line depends on the line that it reads, if any. -/
theorem exists_follows_step (hm : m.console.Intact) (h : ¬ m.step.Starved) :
    ∃ lines text, lines <+: m.console.input ∧ Follows step m lines text := by
  cases m.asks with
  | nothing hstep =>
      refine ⟨[], "", List.nil_prefix, ?_⟩
      intro c hc _
      exact ⟨c, .refl hc, hstep c⟩
  | write session text frames henv hstep =>
      refine ⟨[], text, List.nil_prefix, ?_⟩
      have hwrites {c : Console} (hc : c.Intact) : (m.withConsole c).step =
          (Machine.running session frames).withConsole (c.wrote text) := by
        rw [hstep]
        exact write_of_ok frames (hc.write_eq text)
      have hself := hwrites hm
      rw [console, withConsole_self] at hself
      intro c hc _
      refine ⟨c.wrote text, served_wrote hc text, ?_⟩
      rw [hwrites hc, hself, withConsole_withConsole]
  | line session name declared frames henv hstep =>
      have hanswers {c : Console} (hc : c.Intact) : (m.withConsole c).step =
          (answered session name declared frames c.input.head?).withConsole c.typed := by
        rw [hstep, answer_of_ok name declared frames hc.readLine_eq, answered_withConsole,
          withConsole_withConsole]
      have hself := hanswers hm
      rw [console, withConsole_self, ← console] at hself
      cases hinput : m.console.input with
      | nil =>
          refine absurd ⟨name, ?_⟩ h
          rw [hself, hinput]
          rfl
      | cons line rest =>
          refine ⟨[line], "", List.prefix_append [line] rest, ?_⟩
          rintro c hc ⟨more, hmore⟩
          refine ⟨c.typed, served_typed hc hmore.symm, ?_⟩
          rw [hanswers hc, hself, hinput, ← hmore, withConsole_withConsole]
          rfl

/-- A run that is not left without a line depends on the lines that it reads. -/
theorem exists_follows_run (hm : m.console.Intact) {n : Nat} (h : ¬ (run n m).Starved) :
    ∃ lines text, lines <+: m.console.input ∧ Follows (run n) m lines text := by
  induction n generalizing m with
  | zero => exact ⟨[], "", List.nil_prefix, fun c hc _ => ⟨c, .refl hc, rfl⟩⟩
  | succ n ih =>
      rw [run_succ_eq] at h
      obtain ⟨lines, text, hlines, hstep⟩ :=
        exists_follows_step hm fun hstarved => h (hstarved.run n)
      have hserved := hstep.served hm hlines
      obtain ⟨lines', text', hlines', hrun⟩ := ih hserved.intact h
      refine ⟨lines ++ lines', text ++ text', ?_, ?_⟩
      · rw [hserved.input, List.prefix_append_right_inj]
        exact hlines'
      · have hsteps : run (n + 1) = fun m => run n m.step := funext (run_succ_eq n)
        rw [hsteps]
        exact hstep.trans hrun

/-- A run that ends without being left without a line depends on the lines that it reads. They are
the first ones, the others are left, and what it shows is added to what was shown before. Wherever
the same lines come first the program ends alike, leaves what follows them, and shows the same. -/
theorem runs_depend_on_lines_read (program : List Statement) (env : Environment)
    (console : Console) (hconsole : console.Intact) (session : Session) (failure : Option Failure)
    (hends : (ofProgram (.start env console) program).EndsWith session failure)
    (hfailure : ∀ name, failure ≠ some (.noInput name)) :
    ∃ k text, session.console.linesTyped = console.linesTyped + k ∧ k ≤ console.input.length ∧
      session.console.output = console.output ++ text ∧
      session.console.input = console.input.drop k ∧
      ∀ console' more, console'.Intact → console'.input = console.input.take k ++ more →
        ∃ session', (ofProgram (.start env console') program).EndsWith session' failure ∧
          session'.environment = session.environment ∧
          session'.console.output = console'.output ++ text ∧ session'.console.input = more := by
  obtain ⟨n, hn⟩ := hends
  have hintact : (ofProgram (.start env console) program).console.Intact := hconsole
  have hfed : ¬ (run n (ofProgram (.start env console) program)).Starved := by
    rintro ⟨name, hname⟩
    rw [hn] at hname
    exact hfailure name hname
  obtain ⟨lines, text, hlines, hrun⟩ := exists_follows_run hintact hfed
  have hserved := hrun.served hintact hlines
  rw [hn] at hserved
  have hinput : console.input = lines ++ session.console.input := hserved.input
  refine ⟨lines.length, text, hserved.counts, hlines.length_le, hserved.output, ?_, ?_⟩
  · rw [hinput, List.drop_left]
  · intro console' more hconsole' hinput'
    rw [hinput, List.take_left] at hinput'
    obtain ⟨c', hserved', hends'⟩ := hrun console' hconsole' ⟨more, hinput'.symm⟩
    rw [hn] at hends'
    refine ⟨session.withConsole c', ⟨n, hends'⟩, rfl, hserved'.output, ?_⟩
    have hrest := hserved'.input
    rw [hinput'] at hrest
    exact (List.append_cancel_left hrest).symm

/-- A machine that is halted is so with its failure, if it has one. -/
theorem eq_halted_of_isHalted (h : m.isHalted = true) : m = .halted m.session m.failure? := by
  cases m with
  | running session frames => cases h
  | halted session failure => rfl

/-- A loop that asks again as long as the answer is `a` takes two lines and leaves the third. -/
theorem runs_depend_on_lines_read_loop :
    let program : List Statement :=
      [.input "x" .text "'?'", .loop (.compile "x == 'a'") [.input "x" .text "'again'"]]
    ∃ session, (ofProgram (.start .empty (.ofLines ["a", "b", "c"])) program).EndsWith
        session none ∧
      session.console.input = ["c"] ∧ session.console.output = "?again" ∧
      ∀ more, ∃ session', (ofProgram (.start .empty (.ofLines ("a" :: "b" :: more)))
          program).EndsWith session' none ∧ session'.environment = session.environment ∧
        session'.console.output = "?again" ∧ session'.console.input = more := by
  intro program
  have hrun : (run 12 (ofProgram (.start .empty (.ofLines ["a", "b", "c"])) program)).isHalted =
        true ∧
      (run 12 (ofProgram (.start .empty (.ofLines ["a", "b", "c"])) program)).failure? = none ∧
      (run 12 (ofProgram (.start .empty (.ofLines ["a", "b", "c"])) program)).console.linesTyped =
        2 ∧
      (run 12 (ofProgram (.start .empty (.ofLines ["a", "b", "c"])) program)).console.output =
        "?again" := by
    decide +kernel
  obtain ⟨hhalted, hfailure, hlines, houtput⟩ := hrun
  have hends := eq_halted_of_isHalted hhalted
  rw [hfailure] at hends
  obtain ⟨k, text, hk, -, htext, hrest, hsame⟩ := runs_depend_on_lines_read program .empty
    (.ofLines ["a", "b", "c"]) ⟨rfl, rfl⟩ _ none ⟨12, hends⟩ nofun
  have hfresh (lines : List String) : (Console.ofLines lines).output = "" := rfl
  obtain rfl : 2 = k := hlines.symm.trans (hk.trans (Nat.zero_add k))
  obtain rfl : "?again" = text := by
    rw [← houtput]
    refine htext.trans ?_
    rw [hfresh, String.empty_append]
  refine ⟨_, ⟨12, hends⟩, hrest, htext, ?_⟩
  intro more
  exact hsame (.ofLines ("a" :: "b" :: more)) more ⟨rfl, rfl⟩ rfl

end Machine

end Sting
