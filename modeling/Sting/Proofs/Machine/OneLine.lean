import Sting.Proofs.Machine.Atomicity
import Sting.Proofs.Machine.Loops
import Sting.Proofs.Machine.Single
import Sting.Proofs.Statement.EndOfInput
import Sting.Proofs.Statement.OneLine

/-!
# Failures on one line

A run shows, binds and quotes what it finds in its source, in the variables and on the lines that
are typed, and what evaluation makes of it. Where none of these has a newline in it, every step
keeps it so, and a failure is reported on one line. Otherwise its JSON is on one line all the same,
and its plain report need not be: a quoted text that goes on to another line is quoted as it is.
-/

namespace Sting

open Text
open Statement (bodyParts)

/-- All that the failure quotes is on one line. -/
def Failure.OneLine (failure : Failure) : Prop :=
  ∀ text ∈ failure.quotes, Text.OneLine text

/-! ## Bindings -/

/-- A value that is typed shows what the line does; a line that does not fit is not quoted. -/
theorem Value.meets_ofTyped {name line : String} (hname : Text.OneLine name)
    (hline : Text.OneLine line) (tag : TypeTag) :
    Meets Value.OneLine Failure.OneLine (Value.ofTyped name tag line) := by
  unfold ofTyped
  split
  · split
    · exact oneLine_number _
    · exact List.forall_mem_singleton.mpr hname
  · exact oneLine_boolean _
  · exact hline

namespace Environment

variable {env : Environment} {name : String} {value : Value}

/-- A binding to a value on one line keeps the variables on one line. -/
theorem OneLine.set (h : env.OneLine) (hvalue : value.OneLine) : (env.set name value).OneLine := by
  intro other bound hbound
  rw [get?_set] at hbound
  split at hbound
  · cases hbound
    exact hvalue
  · exact h other bound hbound

/-- Binding quotes the name only. -/
theorem OneLine.meets_bind (h : env.OneLine) (hname : Text.OneLine name) (hvalue : value.OneLine)
    (tag : TypeTag) : Meets OneLine Failure.OneLine (env.bind name tag value) := by
  have hquoted : ∀ text ∈ [name], Text.OneLine text := List.forall_mem_singleton.mpr hname
  rcases env.bind_cases name tag value with ⟨hset, -⟩ | hretyped | hmistyped
  · rw [hset]
    exact h.set hvalue
  · rw [hretyped]
    exact hquoted
  · rw [hmistyped]
    exact hquoted

/-- What is assigned is the value of the expression, or whether it holds. -/
theorem OneLine.meets_assigned (h : env.OneLine) (declared : Option TypeTag) {e : Expression}
    (he : Text.OneLine e.source) :
    Meets Value.OneLine EvalError.OneLine (env.assigned declared e) := by
  have hvalue := Expression.meets_evaluate h he
  unfold assigned
  split
  · exact hvalue.bind fun _ hshown => hshown
  · exact Value.oneLine_boolean _
  · exact hvalue
  · exact hvalue

/-- An assignment quotes its name, or what the evaluation quotes. -/
theorem OneLine.meets_assign (h : env.OneLine) (declared : Option TypeTag) {e : Expression}
    (hname : Text.OneLine name) (he : Text.OneLine e.source) :
    Meets OneLine Failure.OneLine (env.assign name declared e) := by
  have hassigned := h.meets_assigned declared he
  unfold assign
  split
  · rename_i hvalue
    rw [hvalue] at hassigned
    exact h.meets_bind hname hassigned _
  · rename_i herror
    rw [herror] at hassigned
    exact hassigned

end Environment

/-! ## Steps -/

/-- The variables and the lines still to be typed are on one line, and the console does not fail. -/
structure Session.OneLine (s : Session) : Prop where
  environment : s.environment.OneLine
  intact : s.console.Intact
  input : ∀ line ∈ s.console.input, Text.OneLine line

/-- What a failure of the frame can quote is on one line. -/
def Frame.OneLine : Frame → Prop
  | .body statements => ∀ s ∈ bodyParts statements, s.OneLine
  | .loop _ statements => ∀ s ∈ bodyParts statements, s.OneLine
  | .answer name _ => Text.OneLine name
  | .newline => True

/-- The same for several frames. -/
def Frame.OneLines (frames : List Frame) : Prop :=
  ∀ frame ∈ frames, frame.OneLine

/-- A frame may be put in front of others. -/
theorem Frame.OneLines.cons {frame : Frame} {frames : List Frame} (hframes : OneLines frames)
    (h : frame.OneLine) : OneLines (frame :: frames) :=
  List.forall_mem_cons.mpr ⟨h, hframes⟩

/-- Choosing an arm does not use the console. -/
theorem Session.console_choose (s : Session) (branches : List (Branch Statement)) :
    (s.choose branches).2.console = s.console :=
  congrArg (·.2.console) ((passive_withConsole s.console).choose s branches)

namespace Machine

/-- Everything that the run goes on with is on one line, or everything that its failure quotes. -/
def OneLine : Machine → Prop
  | .running session frames => session.OneLine ∧ Frame.OneLines frames
  | .halted _ failure => ∀ f ∈ failure, f.OneLine

section

variable {session : Session} {frames : List Frame} (h : session.OneLine)
  (hframes : Frame.OneLines frames)
include h hframes

/-- Noting something makes no difference. -/
theorem oneLine_running {session' : Session} (henv : session'.environment = session.environment)
    (hconsole : session'.console = session.console) : (running session' frames).OneLine := by
  refine ⟨⟨?_, ?_, ?_⟩, hframes⟩
  · rw [henv]
    exact h.environment
  · rw [hconsole]
    exact h.intact
  · rw [hconsole]
    exact h.input

/-- What is written may have any number of lines: no failure quotes it. -/
theorem oneLine_write (text : String) : (write session text frames).OneLine := by
  rw [write_of_ok frames (h.intact.write_eq text)]
  exact ⟨⟨h.environment, h.intact.wrote text, h.input⟩, hframes⟩

/-- An outcome that is on one line leaves the run so. -/
theorem oneLine_update {result : Except Failure Environment}
    (hresult : Meets Environment.OneLine Failure.OneLine result) :
    (update session result frames).OneLine := by
  cases result with
  | ok env => exact ⟨⟨hresult, h.intact, h.input⟩, hframes⟩
  | error failure =>
      rintro _ ⟨⟩
      exact hresult

/-- A line that is read is bound, or its variable is quoted. -/
theorem oneLine_answer {name : String} (hname : Text.OneLine name) (declared : TypeTag) :
    (answer session name declared frames).OneLine := by
  have htyped : (session.withConsole session.console.typed).OneLine :=
    ⟨h.environment, h.intact.typed, fun line hline => h.input line (List.mem_of_mem_tail hline)⟩
  rw [answer_of_ok name declared frames h.intact.readLine_eq, ← answered_withConsole]
  cases hline : session.console.input.head? with
  | none =>
      rintro _ ⟨⟩
      exact List.forall_mem_singleton.mpr hname
  | some line =>
      have hshort : Text.OneLine line := h.input line (List.mem_of_head? hline)
      refine oneLine_update htyped hframes ?_
      exact (Value.meets_ofTyped hname hshort declared).bind fun _ hvalue =>
        htyped.environment.meets_bind hname hvalue declared

/-- Leaving a loop goes on with frames that were there, or ends without a failure. -/
theorem oneLine_leaveLoop : (leaveLoop session frames).OneLine := by
  obtain ⟨record, rest, hrest, hleave⟩ | hleave := leaveLoop_cases frames
  · rw [hleave]
    exact oneLine_running h (fun frame hframe => hframes frame (hrest.subset hframe)) rfl rfl
  · rw [hleave]
    exact nofun

/-- A statement goes on with its parts, or fails with what it quotes. -/
theorem oneLine_begin {s : Statement} (hs : ∀ part ∈ s.parts, part.OneLine) :
    (begin session frames s).OneLine := by
  cases s with
  | assign name declared e =>
      obtain ⟨hname, he⟩ := List.forall_mem_cons.mp (hs _ List.mem_cons_self)
      have hassign := h.environment.meets_assign declared hname (List.forall_mem_singleton.mp he)
      have htested : (session.test e).2.OneLine :=
        (oneLine_running h hframes (session.environment_test e) (session.console_test e)).1
      by_cases hdeclared : declared = some .boolean
      · simp only [begin, if_pos hdeclared, Session.environment_test]
        exact oneLine_update htested hframes hassign
      · simp only [begin, if_neg hdeclared]
        exact oneLine_update h hframes hassign
  | input name declared prompt =>
      have hname : Text.OneLine name := List.forall_mem_singleton.mp (hs _ List.mem_cons_self)
      have hanswer : Frame.OneLine (.answer name declared) := hname
      exact oneLine_write h (hframes.cons hanswer) _
  | output args =>
      have hnewline : Frame.OneLine .newline := trivial
      exact oneLine_write h (hframes.cons hnewline) _
  | conditional branches =>
      have harms := (List.forall_mem_cons.mp hs).2
      rw [begin_conditional]
      refine oneLine_running h ?_ (environment_choose session branches)
        (session.console_choose branches)
      cases hbody : (session.choose branches).1 with
      | none => exact hframes
      | some body =>
          obtain ⟨branch, hbranch, rfl⟩ := Session.exists_of_choose hbody
          refine hframes.cons fun s hs => harms s ?_
          rw [Statement.armParts_eq, List.mem_flatMap]
          exact ⟨branch, hbranch, hs⟩
  | loop condition body =>
      have hloop : Frame.OneLine (.loop condition body) := (List.forall_mem_cons.mp hs).2
      exact oneLine_running h (hframes.cons hloop) rfl rfl
  | stop => exact oneLine_leaveLoop h hframes

end

/-- A step makes up no newline. -/
theorem OneLine.step {m : Machine} (h : m.OneLine) : m.step.OneLine := by
  match m with
  | .halted session failure => exact h
  | .running session [] => exact nofun
  | .running session (.body [] :: frames) => exact ⟨h.1, (List.forall_mem_cons.mp h.2).2⟩
  | .running session (.body (s :: rest) :: frames) =>
      obtain ⟨hbody, hframes⟩ := List.forall_mem_cons.mp h.2
      obtain ⟨hs, hrest⟩ := List.forall_mem_append.mp hbody
      have hnoted : (session.note (.executing s)).OneLine :=
        ⟨h.1.environment, h.1.intact, h.1.input⟩
      have hframes' : Frame.OneLines (.body rest :: frames) := Frame.OneLines.cons hframes hrest
      exact oneLine_begin hnoted hframes' hs
  | .running session (.loop condition body :: frames) =>
      obtain ⟨hbody, hframes⟩ := List.forall_mem_cons.mp h.2
      rw [step_loop]
      refine oneLine_running h.1 ?_ (session.environment_test condition)
        (session.console_test condition)
      split
      · exact h.2.cons hbody
      · exact hframes
  | .running session (.answer name declared :: frames) =>
      obtain ⟨hname, hframes⟩ := List.forall_mem_cons.mp h.2
      exact oneLine_answer h.1 hframes hname declared
  | .running session (.newline :: frames) =>
      exact oneLine_write h.1 (List.forall_mem_cons.mp h.2).2 _

/-- A run makes up no newline, by induction on its steps. -/
theorem OneLine.run {m : Machine} (h : m.OneLine) (n : Nat) : (Machine.run n m).OneLine := by
  induction n with
  | zero => exact h
  | succ n ih =>
      rw [run_succ]
      exact ih.step

/-! ## Reports -/

/-- A source that is no program ends the run with the error of the reader. -/
theorem exists_ofSource_eq_halted {source : String} {e : SyntaxError}
    (h : Statement.read (Token.scan source) = .error e) (session : Session) :
    ∃ noted, ofSource session source = .halted noted (some (.malformed e)) := by
  have hprogram : (Reading.ofTokens (Token.scan source)).program = .error e := h
  unfold ofSource
  dsimp only
  rw [hprogram]
  exact ⟨_, rfl⟩

/-- A run starts on one line if its source, its variables and its lines do; a source that cannot be
read is quoted by its tokens. -/
theorem oneLine_ofSource {source : String} {env : Environment} {lines : List String}
    (hsource : Token.OneLines (Token.scan source)) (henv : env.OneLine)
    (hlines : ∀ line ∈ lines, Text.OneLine line) :
    (ofSource (.start env (.ofLines lines)) source).OneLine := by
  cases hread : Statement.read (Token.scan source) with
  | error e =>
      obtain ⟨noted, heq⟩ := exists_ofSource_eq_halted hread (.start env (.ofLines lines))
      rw [heq]
      rintro _ ⟨⟩
      exact SyntaxError.oneLine_of_read hsource hread
  | ok program =>
      obtain ⟨noted, hnoted, hconsole, heq⟩ := exists_ofSource_eq hread env (.ofLines lines)
      have hstart : (Session.start env (.ofLines lines)).OneLine := ⟨henv, ⟨rfl, rfl⟩, hlines⟩
      have hbody : Frame.OneLine (.body program) := Statement.oneLine_of_read hsource hread
      have hnone : Frame.OneLines [] := nofun
      rw [heq]
      exact oneLine_running hstart (hnone.cons hbody) hnoted hconsole

/-- The JSON of a failure is on one line. Its plain report is exactly if all that it quotes is; if
not, then a quoted text of the source goes on to another line, or the value of a variable before the
run or a line that was to be typed has a newline in it. -/
theorem failure_reported_on_one_line {source : String} {env : Environment} {lines : List String}
    {session : Session} {failure : Failure}
    (hends : (ofSource (.start env (.ofLines lines)) source).EndsWith session (some failure)) :
    Text.OneLine (failure.diagnostic.json.render .compact) ∧
    (Text.OneLine failure.diagnostic.render ↔ ∀ text ∈ failure.quotes, Text.OneLine text) ∧
    (¬ Text.OneLine failure.diagnostic.render →
      (∃ t ∈ Token.scan source, t.kind = .text ∧ ¬ Text.OneLine t.text) ∨
      (∃ name content, env.get? name = some (.text content) ∧ ¬ Text.OneLine content) ∨
      ∃ line ∈ lines, ¬ Text.OneLine line) := by
  refine ⟨failure.diagnostic.wellFormed_json.oneLine_compact, failure.oneLine_render, ?_⟩
  intro hreport
  by_contra hnone
  rw [not_or, not_or] at hnone
  obtain ⟨htexts, hvalues, htyped⟩ := hnone
  have hsource : Token.OneLines (Token.scan source) := by
    intro t ht hnewline
    have hkind : t.kind = .text := (Token.genuine_of_mem_scan ht).kind_eq_text hnewline
    exact htexts ⟨t, ht, hkind, not_not.mpr hnewline⟩
  have henv : env.OneLine := by
    intro name value hvalue
    cases value with
    | number x => exact Value.oneLine_number x
    | boolean truth => exact Value.oneLine_boolean truth
    | text content => exact fun hnewline => hvalues ⟨name, content, hvalue, not_not.mpr hnewline⟩
  have hlines : ∀ line ∈ lines, Text.OneLine line :=
    fun line hline hnewline => htyped ⟨line, hline, not_not.mpr hnewline⟩
  obtain ⟨n, hn⟩ := hends
  have hrun := (oneLine_ofSource hsource henv hlines).run n
  rw [hn] at hrun
  exact hreport (failure.oneLine_render.mpr (hrun failure rfl))

/-- A source on two lines without a quoted text that goes on to another line. -/
theorem failure_reported_on_one_line_compared :
    ∃ session failure,
      (ofSource (.start .empty (.ofLines [])) "x = 'a' |\nx = x < 'b'").EndsWith session
        (some failure) ∧
      failure.diagnostic.render = "Cannot compare a and b with '<' (operand-error)" ∧
      Text.OneLine failure.diagnostic.render := by
  have hfailure : (Machine.run 5 (ofSource (.start .empty (.ofLines []))
      "x = 'a' |\nx = x < 'b'")).failure? =
        some (.valueless (.incomparable (.text "a") (.text "b") (.binary .lt))) := by
    decide +kernel
  have hends := eq_halted_of_failure? hfailure
  obtain ⟨-, -, hsources⟩ := failure_reported_on_one_line ⟨5, hends⟩
  refine ⟨_, _, ⟨5, hends⟩, by decide +kernel, ?_⟩
  by_contra hreport
  rcases hsources hreport with htext | ⟨name, content, hvalue, -⟩ | ⟨line, hline, -⟩
  · exact absurd htext (by decide +kernel)
  · rw [Environment.get?_empty] at hvalue
    cases hvalue
  · cases hline

/-- A quoted text of two lines in the wrong place is reported on two lines. -/
theorem failure_reported_on_two_lines :
    ∃ session failure,
      (ofSource (.start .empty (.ofLines [])) "show 'a\nb'").EndsWith session (some failure) ∧
      failure.diagnostic.render = "1:6: Expected '(' but got ''a\nb'' (syntax-error)" ∧
      '\n' ∈ failure.diagnostic.render.toList := by
  have hfailure : (ofSource (.start .empty (.ofLines [])) "show 'a\nb'").failure? =
      some (.malformed ⟨.symbol "(", some "'a\nb'", ⟨0, 5, 5⟩⟩) := by decide +kernel
  exact ⟨_, _, ⟨0, eq_halted_of_failure? hfailure⟩, by decide +kernel, by decide +kernel⟩

end Machine

end Sting
