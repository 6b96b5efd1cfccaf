import Sting.Proofs.Machine.Single

/-!
# Variables read back

After an assignment two places look the variable up: an expression that consists of its name, and an
output of it. The output looks for a variable first, so it shows the value that was assigned. In an
expression a word that is a truth value comes before the variables, so there a variable that is
called like one is out of reach; any other reads back.
-/

namespace Sting

open Token

/-- The truth value that a word is, in capital or small letters. -/
def Text.truth? (word : String) : Option Bool :=
  if sameLetters word "true" then some true
  else if sameLetters word "false" then some false
  else none

/-- A bound word has its value, unless it is a truth value. -/
theorem Environment.lookup_of_get? {env : Environment} {word : String} {value : Value}
    (h : env.get? word = some value) :
    env.lookup word = .ok ((Text.truth? word).elim value .boolean) := by
  unfold lookup Text.truth?
  rw [h]
  split
  · rfl
  · split <;> rfl

/-- A token that is no symbol is an expression of its own. -/
theorem Lexeme.scan_token {kind : Kind} {text : List Char} (h : IsSpelling kind text)
    (hkind : kind ≠ .symbol) : scan text = ofToken kind text := by
  have hbar : text ≠ ['|'] := by
    rintro rfl
    exact hkind (h.kind_eq (.delimiter rfl))
  have happend := scan_append h hbar breaks_nil
  rwa [List.append_nil, scan_nil, List.append_nil] at happend

section

variable {name : String} (h : IsSpelling .identifier name.toList)
include h

/-- The expression that is the name of a variable looks it up. -/
theorem Expression.evaluate_name (env : Environment) :
    (compile name).evaluate env = env.lookup name := by
  have hcode : (compile name).code = (Tree.word name).postorder := by
    rw [code_eq, source_compile, Lexeme.scan_token h nofun, Lexeme.ofToken, String.ofList_toList]
    rfl
  exact Tree.evaluate_of_code_eq hcode env

/-- What a variable can be called is no symbol. -/
theorem Token.ne_symbol_of_identifier {symbol : String}
    (hsymbol : IsSpelling .symbol symbol.toList) : name ≠ symbol := by
  rintro rfl
  cases h.kind_eq hsymbol

/-- What a variable can be called can be shown. -/
theorem Clause.isArgument_of_identifier : IsArgument name where
  token := ⟨.identifier, h⟩
  ne_closing := ne_symbol_of_identifier h (.delimiter rfl)
  ne_comma := ne_symbol_of_identifier h (.delimiter rfl)

end

namespace Machine

variable {source name : String} {e : Expression} {env : Environment} {console : Console}
  {session : Session}

/-- An assignment that succeeds binds the variable to the value of the expression. -/
theorem exists_value_of_assign
    (hread : Statement.read (Token.scan source) = .ok [.assign name none e])
    (hends : (ofSource (.start env console) source).EndsWith session none) :
    ∃ value, e.evaluate env = .ok value ∧ session.environment = env.set name value := by
  obtain ⟨session', hends', hsession⟩ := exists_endsWith_assign hread env console
  obtain ⟨rfl, hfailure⟩ := hends.unique hends'
  rw [hsession]
  unfold Environment.assign Environment.assigned at hfailure ⊢
  cases hvalue : e.evaluate env with
  | error error =>
      rw [hvalue] at hfailure
      cases hfailure
  | ok value =>
      rw [hvalue] at hfailure
      refine ⟨value, rfl, ?_⟩
      cases hbind : env.bind name value.tag value with
      | error failure =>
          simp only [Option.getD_none, hbind] at hfailure
          cases hfailure
      | ok env' =>
          simp only [Option.getD_none, hbind]
          exact Environment.eq_set_of_bind hbind

/-- After an assignment without a declared type that succeeds, the variable is bound to the value of
the expression. The expression made of its name has this value, unless the name is a truth value:
then it has that truth value. An output of it shows this value in either case. -/
theorem assigned_variable_reads_back
    (hread : Statement.read (Token.scan source) = .ok [.assign name none e])
    (hends : (ofSource (.start env console) source).EndsWith session none) :
    ∃ value, e.evaluate env = .ok value ∧ session.environment = env.set name value ∧
      (Expression.compile name).evaluate session.environment =
        .ok ((Text.truth? name).elim value .boolean) ∧
      ∀ screen : Console, screen.Intact → ∃ shown,
        (ofSource (.start session.environment screen) ("show(" ++ name ++ ")")).EndsWith
          shown none ∧
        shown.environment = session.environment ∧
        shown.console.output = screen.output ++ (value.render ++ "\n") := by
  obtain ⟨⟨hname, -⟩, -⟩ := Statement.readable_of_read hread
  obtain ⟨value, hvalue, hsession⟩ := exists_value_of_assign hread hends
  have hget : session.environment.get? name = some value := by
    rw [hsession, Environment.get?_set_self]
  refine ⟨value, hvalue, hsession, ?_, ?_⟩
  · rw [Expression.evaluate_name hname, Environment.lookup_of_get? hget]
  · intro screen hscreen
    have hline : session.environment.line [name] = value.render := by
      rw [Environment.line, List.map_singleton, Environment.argument, hget]
      simp [String.join]
    have hshow := Statement.read_show (Clause.isArgument_of_identifier hname)
    obtain ⟨shown, hshown, henv, houtput⟩ :=
      exists_endsWith_output hshow hscreen session.environment
    rw [hline] at houtput
    exact ⟨shown, hshown, henv, houtput⟩

/-- A variable called by two digits of another script reads back in a combined assignment. -/
theorem assigned_variable_reads_back_digits :
    let env := Environment.empty.set "٤٢" (.text "a")
    ∃ session, (ofSource (.start env (.ofLines [])) "٤٢ += 'b'").EndsWith session none ∧
      (Expression.compile "٤٢").evaluate session.environment = .ok (.text "ab") ∧
      ∃ shown, (ofSource (.start session.environment (.ofLines [])) "show(٤٢)").EndsWith
        shown none ∧ shown.console.output = "ab\n" := by
  intro env
  have hread : Statement.read (Token.scan "٤٢ += 'b'") =
      .ok [.assign "٤٢" none (.compile "٤٢ + ( 'b' )")] := by decide +kernel
  have hvalue : (Expression.compile "٤٢ + ( 'b' )").evaluate env = .ok (.text "ab") := by
    decide +kernel
  obtain ⟨session, hends, -⟩ := exists_endsWith_assign hread env (.ofLines [])
  have hfailure : Failure.of? (env.assign "٤٢" none (.compile "٤٢ + ( 'b' )")) = none := by
    rw [Environment.assign, Environment.assigned, hvalue]
    rfl
  rw [hfailure] at hends
  obtain ⟨value, hvalue', -, heval, hshow⟩ := assigned_variable_reads_back hread hends
  obtain rfl : Value.text "ab" = value := Except.ok.inj (hvalue.symm.trans hvalue')
  obtain ⟨shown, hshown, -, houtput⟩ := hshow (.ofLines []) ⟨rfl, rfl⟩
  exact ⟨session, hends, heval, shown, hshown, houtput⟩

/-- A variable can be called `true`. An output shows its value, and the expression made of its name
does not have it. -/
theorem truth_hides_variable :
    ∃ session, (ofSource (.start .empty (.ofLines [])) "true = 5").EndsWith session none ∧
      session.environment.get? "true" = some (.number 5) ∧
      (Expression.compile "true").evaluate session.environment = .ok (.boolean true) ∧
      session.environment.argument "true" = "5" := by
  have hread : Statement.read (Token.scan "true = 5") =
      .ok [.assign "true" none (.compile "5")] := by decide +kernel
  obtain ⟨session, hends, hsession⟩ := exists_endsWith_assign hread .empty (.ofLines [])
  have hfailure : Failure.of? (Environment.empty.assign "true" none (.compile "5")) = none := by
    decide +kernel
  rw [hfailure] at hends
  refine ⟨session, hends, ?_⟩
  rw [hsession]
  decide +kernel

end Machine

end Sting
