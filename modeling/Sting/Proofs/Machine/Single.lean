import Sting.Proofs.Machine.Laziness
import Sting.Proofs.Statement.Accumulation

/-!
# Programs of one statement

How a source is read and run that consists of one declaration, one request for input or one output.
The run always ends: an assignment in the environment that it gives, a request for input with what
the line that is typed for it makes of the environment, an output with the line that it shows.
-/

namespace Sting

open Token Text

/-! ## Reading -/

namespace Clause

/-- A source that nothing ends goes up to the end of the input. -/
theorem takeSource_all {tokens : List Token} (h : ∀ t ∈ tokens, continuesExpression t = true) :
    takeSource tokens = (join tokens, []) := by
  have hdrop : tokens.dropWhile continuesExpression = [] := List.dropWhile_eq_nil_iff.mpr h
  rw [takeSource, List.takeWhile_eq_self_iff.mpr h, hdrop]
  rfl

end Clause

namespace Statement

variable {name : String}

/-- A source that is one clause without a body is one statement. -/
theorem read_scan_of_spelled {source : String} {t : Token} {tokens : List Token} {s : Statement}
    (hsource : spelled source.toList = t :: tokens)
    (hread : Clause.read t tokens = .ok (.simple s, []))
    (hends : Reader.endsBranch t.text = false) : Statement.read (Token.scan source) = .ok [s] := by
  rw [← read_eq_ok_unplaced, map_unplaced_scan, hsource]
  exact read_of_simple hread hends

/-- A declaration with one token behind the equals sign assigns what this token spells. -/
theorem read_declaration (tag : TypeTag) (hname : IsToken name) {kind : Kind} {source : String}
    (hsource : IsSpelling kind source.toList)
    (hcontinues : Clause.continuesExpression (bare kind source.toList) = true) :
    Statement.read (Token.scan (tag.keyword ++ "(" ++ name ++ ") = " ++ source)) =
      .ok [.assign name (some tag) (.compile source)] := by
  obtain ⟨n, rfl, hspelled⟩ := exists_spelled_declaration tag hname
  have htoken : spelled source.toList = [bare kind source.toList] := by
    have hspelling := spelled_spelling hsource breaks_nil
    rwa [List.append_nil, spelled_nil] at hspelling
  have hjoin : Clause.join [bare kind source.toList] = source := by
    rw [Clause.join, List.map_singleton, String.intercalate_singleton, text_bare,
      String.ofList_toList]
  have htake := Clause.takeSource_all (List.forall_mem_singleton.mpr hcontinues)
  have hroi : ∀ t ∈ [bare kind source.toList].head?, t.text ≠ "roi" := by
    rintro _ ⟨⟩
    exact Clause.ne_roi_of_continuesExpression hcontinues
  have hread := Clause.read_declared tag n hroi htake
  rw [hjoin] at hread
  refine read_scan_of_spelled ?_ hread (Reader.endsBranch_keyword tag)
  rw [String.toList_append, hspelled, htoken]

/-- A request for input without a prompt. -/
theorem read_request (tag : TypeTag) (hname : IsToken name) :
    Statement.read (Token.scan (tag.keyword ++ "(" ++ name ++ ") = roi()")) =
      .ok [.input name tag ""] := by
  obtain ⟨n, rfl, hspelled⟩ := exists_spelled_declaration tag hname
  have hroi : spelled ("roi".toList ++ ['(', ')']) = [reserved "roi", sign '(', sign ')'] := by
    rw [spelled_reserved (by decide) (breaks_cons rfl _), spelled_sign rfl, spelled_sign rfl,
      spelled_nil]
  have hnone : ∀ t ∈ ([] : List Token), (t.text != ")") = true := nofun
  refine read_scan_of_spelled ?_ (Clause.read_input tag n hnone []) (Reader.endsBranch_keyword tag)
  have htext : (tag.keyword ++ "(" ++ n.text ++ ") = roi()").toList =
      (tag.keyword ++ "(" ++ n.text ++ ") = ").toList ++ ("roi".toList ++ ['(', ')']) := by
    simp only [String.toList_append, List.append_assoc]
    rfl
  rw [htext, hspelled, hroi, List.nil_append]

/-- An output of one argument. -/
theorem read_show (hname : Clause.IsArgument name) :
    Statement.read (Token.scan ("show(" ++ name ++ ")")) = .ok [.output [name]] := by
  obtain ⟨n, rfl, hspelled⟩ := hname.token.exists_spelled
  have hclosing : ∀ t ∈ [n], (t.text != ")") = true :=
    List.forall_mem_singleton.mpr (bne_iff_ne.mpr hname.ne_closing)
  have hread := Clause.read_output hclosing []
  have hkept : [n.text].filter (· != ",") = [n.text] :=
    List.filter_cons_of_pos (bne_iff_ne.mpr hname.ne_comma)
  rw [List.map_singleton, hkept] at hread
  refine read_scan_of_spelled ?_ hread rfl
  have htext : ("show(" ++ n.text ++ ")").toList =
      "show".toList ++ '(' :: (n.text.toList ++ [')']) := by
    simp only [String.toList_append, List.append_assoc]
    rfl
  rw [htext, spelled_reserved (by decide) (breaks_cons rfl _), spelled_sign rfl,
    hspelled _ (breaks_cons rfl _), spelled_sign rfl, spelled_nil, List.singleton_append]

end Statement

/-! ## Running -/

/-- The failure of a change of environments. -/
def Failure.of? : Except Failure Environment → Option Failure
  | .ok _ => none
  | .error failure => some failure

namespace Machine

variable {source name : String} {console : Console}

/-- A source that can be read is run as the program that it spells, with some records before. -/
theorem exists_ofSource_eq {program : List Statement}
    (h : Statement.read (Token.scan source) = .ok program) (env : Environment)
    (console : Console) :
    ∃ noted : Session, noted.environment = env ∧ noted.console = console ∧
      ofSource (.start env console) source = ofProgram noted program := by
  have hprogram : (Reading.ofTokens (Token.scan source)).program = .ok program := h
  obtain ⟨henv, hconsole⟩ := foldl_skipped (Reading.ofTokens (Token.scan source)).skipped
    ((Session.start env console).note (.scanned source.utf8ByteSize (Token.scan source).length))
  refine ⟨Session.note _ (.read (Token.scan source).length program.length), henv, hconsole, ?_⟩
  unfold ofSource
  dsimp only
  rw [hprogram]

/-- A run ends as a later point of it does. -/
theorem EndsWith.of_run {m : Machine} {session : Session} {failure : Option Failure} (k : Nat)
    (h : (run k m).EndsWith session failure) : m.EndsWith session failure := by
  obtain ⟨n, hn⟩ := h
  exact ⟨k + n, by rw [run_add, hn]⟩

/-- A change of the environment at the end of a program. -/
theorem exists_endsWith_update (session : Session) (result : Except Failure Environment) :
    ∃ session', (update session result [.body []]).EndsWith session' (Failure.of? result) ∧
      session'.environment = result.toOption.getD session.environment := by
  cases result with
  | ok env => exact ⟨{ session with environment := env }, ⟨2, rfl⟩, rfl⟩
  | error failure => exact ⟨session, ⟨0, rfl⟩, rfl⟩

/-- A source that is one assignment ends with the outcome of the assignment. -/
theorem exists_endsWith_assign {declared : Option TypeTag} {e : Expression}
    (h : Statement.read (Token.scan source) = .ok [.assign name declared e]) (env : Environment)
    (console : Console) :
    ∃ session, (ofSource (.start env console) source).EndsWith session
        (Failure.of? (env.assign name declared e)) ∧
      session.environment = (env.assign name declared e).toOption.getD env := by
  obtain ⟨noted, henv, -, hsource⟩ := exists_ofSource_eq h env console
  obtain ⟨noted', henv', hbegin⟩ := exists_begin_assign
    (noted.note (.executing (.assign name declared e))) [.body []] name declared e
  rw [Session.environment_note, henv] at henv' hbegin
  obtain ⟨session, hends, hsession⟩ :=
    exists_endsWith_update noted' (env.assign name declared e)
  rw [henv'] at hsession
  refine ⟨session, ?_, hsession⟩
  rw [hsource]
  refine EndsWith.of_run 1 ?_
  rw [← hbegin] at hends
  exact hends

/-- A source that is one request for input ends with what becomes of the first line. -/
theorem exists_endsWith_input {tag : TypeTag} {prompt line : String} {more : List String}
    (h : Statement.read (Token.scan source) = .ok [.input name tag prompt])
    (hconsole : console.Intact) (hinput : console.input = line :: more) (env : Environment) :
    ∃ session, (ofSource (.start env console) source).EndsWith session
        (Failure.of? (do env.bind name tag (← Value.ofTyped name tag line))) ∧
      session.environment =
        (do env.bind name tag (← Value.ofTyped name tag line)).toOption.getD env := by
  obtain ⟨noted, henv, hnoted, hsource⟩ := exists_ofSource_eq h env console
  have hwrite : run 1 (ofSource (.start env console) source) =
      .running ((noted.note (.executing (.input name tag prompt))).withConsole
        (console.wrote (promptText prompt))) [.answer name tag, .body []] := by
    rw [hsource]
    refine write_of_ok _ ?_
    rw [Session.console_note, hnoted]
    exact hconsole.write_eq _
  let answering := (noted.note (.executing (.input name tag prompt))).withConsole
    (console.wrote (promptText prompt)).typed
  have hanswer : run 2 (ofSource (.start env console) source) =
      update answering (do env.bind name tag (← Value.ofTyped name tag line)) [.body []] := by
    have hline : (console.wrote (promptText prompt)).input.head? = some line := by
      change console.input.head? = some line
      rw [hinput]
      rfl
    rw [run_succ, hwrite, step, answer_of_ok _ _ _ (hconsole.wrote _).readLine_eq,
      ← answered_withConsole, hline, ← henv]
    rfl
  obtain ⟨session, hends, hsession⟩ := exists_endsWith_update answering
    (do env.bind name tag (← Value.ofTyped name tag line))
  rw [← hanswer] at hends
  refine ⟨session, EndsWith.of_run 2 hends, ?_⟩
  rw [hsession]
  exact congrArg _ henv

/-- A source that is one output ends with its line shown. -/
theorem exists_endsWith_output {args : List String}
    (h : Statement.read (Token.scan source) = .ok [.output args]) (hconsole : console.Intact)
    (env : Environment) :
    ∃ session, (ofSource (.start env console) source).EndsWith session none ∧
      session.environment = env ∧
      session.console.output = console.output ++ (env.line args ++ "\n") := by
  obtain ⟨noted, henv, hnoted, hsource⟩ := exists_ofSource_eq h env console
  let shown := (noted.note (.executing (.output args))).withConsole (console.wrote (env.line args))
  have hwrite : run 1 (ofSource (.start env console) source) =
      .running shown [.newline, .body []] := by
    rw [hsource]
    change write (noted.note (.executing (.output args)))
      ((noted.note (.executing (.output args))).environment.line args) [.newline, .body []] = _
    rw [Session.environment_note, henv]
    refine write_of_ok _ ?_
    rw [Session.console_note, hnoted]
    exact hconsole.write_eq _
  have hnewline : run 2 (ofSource (.start env console) source) =
      .running (shown.withConsole ((console.wrote (env.line args)).wrote "\n")) [.body []] := by
    rw [run_succ, hwrite]
    exact write_of_ok _ ((hconsole.wrote _).write_eq "\n")
  refine ⟨shown.withConsole ((console.wrote (env.line args)).wrote "\n"), ?_, henv, ?_⟩
  · refine EndsWith.of_run 2 ?_
    rw [hnewline]
    exact ⟨2, rfl⟩
  · change ((console.wrote (env.line args)).wrote "\n").output = _
    rw [Console.output_wrote, Console.output_wrote, String.append_assoc]

end Machine

end Sting
