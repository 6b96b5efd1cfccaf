import Mathlib.Logic.Relation
import Sting.Proofs.Machine.Steps

/-!
# Types of variables

A variable keeps the type of its first binding for life. Three kinds of statements reach the
environment, all of them through `Environment.bind`; every other step leaves it alone.
-/

namespace Sting

namespace Environment

/-- Every name of the first environment is bound in the second, to a value of the same type. -/
def Keeps (env env' : Environment) : Prop :=
  ∀ name value, env.get? name = some value →
    ∃ value', env'.get? name = some value' ∧ value'.tag = value.tag

/-- An environment keeps its own variables. -/
theorem Keeps.refl (env : Environment) : env.Keeps env :=
  fun _ value h => ⟨value, h, rfl⟩

/-- What is kept twice is kept. -/
theorem Keeps.trans {env₁ env₂ env₃ : Environment} (h : env₁.Keeps env₂) (h' : env₂.Keeps env₃) :
    env₁.Keeps env₃ := by
  intro name value hvalue
  obtain ⟨value', hvalue', htag⟩ := h name value hvalue
  obtain ⟨value'', hvalue'', htag'⟩ := h' name value' hvalue'
  exact ⟨value'', hvalue'', htag'.trans htag⟩

/-- A name can be bound anew to a value of the type that it has. -/
theorem keeps_set {env : Environment} {name : String} {value : Value}
    (h : ∀ bound, env.get? name = some bound → value.tag = bound.tag) :
    env.Keeps (env.set name value) := by
  intro other bound hbound
  by_cases hname : name = other
  · subst hname
    exact ⟨value, get?_set_self env name value, h bound hbound⟩
  · refine ⟨bound, ?_, rfl⟩
    rw [get?_set, if_neg hname, hbound]

/-- Binding sets the name to the value if both are of the type, and quotes the name otherwise. -/
theorem bind_cases (env : Environment) (name : String) (tag : TypeTag) (value : Value) :
    (env.bind name tag value = .ok (env.set name value) ∧ value.tag = tag ∧
      ∀ bound, env.get? name = some bound → bound.tag = tag) ∨
    env.bind name tag value = .error (.retyped name tag) ∨
    env.bind name tag value = .error (.mistyped name tag) := by
  unfold bind
  cases hname : env.get? name with
  | none =>
      by_cases hvalue : value.tag = tag
      · exact .inl ⟨if_neg (not_not.mpr hvalue), hvalue, nofun⟩
      · exact .inr (.inr (if_pos hvalue))
  | some bound =>
      by_cases hbound : bound.tag = tag
      · by_cases hvalue : value.tag = tag
        · refine .inl ⟨?_, hvalue, ?_⟩
          · exact (if_neg (not_not.mpr hbound)).trans (if_neg (not_not.mpr hvalue))
          · rintro _ ⟨⟩
            exact hbound
        · exact .inr (.inr ((if_neg (not_not.mpr hbound)).trans (if_pos hvalue)))
      · exact .inr (.inl (if_pos hbound))

/-- Where binding succeeds, it binds this name to this value and does nothing else. -/
theorem eq_set_of_bind {env env' : Environment} {name : String} {tag : TypeTag} {value : Value}
    (h : env.bind name tag value = .ok env') : env' = env.set name value := by
  rcases bind_cases env name tag value with ⟨hset, -⟩ | hretyped | hmistyped
  · exact Except.ok.inj (h.symm.trans hset)
  · cases h.symm.trans hretyped
  · cases h.symm.trans hmistyped

/-- Binding succeeds only with the type that the name has. -/
theorem keeps_of_bind {env env' : Environment} {name : String} {tag : TypeTag} {value : Value}
    (h : env.bind name tag value = .ok env') : env.Keeps env' := by
  obtain rfl := eq_set_of_bind h
  rcases bind_cases env name tag value with ⟨-, hvalue, hname⟩ | hretyped | hmistyped
  · exact keeps_set fun bound hbound => hvalue.trans (hname bound hbound).symm
  · cases h.symm.trans hretyped
  · cases h.symm.trans hmistyped

/-- An assignment that succeeds keeps the types of all variables. -/
theorem keeps_of_assign {env env' : Environment} {name : String} {declared : Option TypeTag}
    {e : Expression} (h : env.assign name declared e = .ok env') : env.Keeps env' := by
  unfold assign at h
  split at h
  · exact keeps_of_bind h
  · cases h

end Environment

namespace Machine

/-- The variables of a run. -/
def environment (m : Machine) : Environment :=
  m.session.environment

/-- The console has nothing to do with the variables. -/
theorem environment_withConsole (m : Machine) (console : Console) :
    (m.withConsole console).environment = m.environment := by
  cases m <;> rfl

/-- Leaving a loop changes no variable. -/
theorem environment_leaveLoop (session : Session) (frames : List Frame) :
    (leaveLoop session frames).environment = session.environment := by
  obtain ⟨record, rest, -, hleave⟩ | hleave := leaveLoop_cases frames
  · rw [hleave]
    rfl
  · rw [hleave]
    rfl

/-- Writing changes no variable. -/
theorem environment_write (session : Session) (text : String) (frames : List Frame) :
    (write session text frames).environment = session.environment := by
  unfold write
  split <;> rfl

/-- A change of the environment keeps what its outcome keeps, or does not take place. -/
theorem keeps_update (session : Session) {result : Except Failure Environment}
    (h : ∀ env, result = .ok env → session.environment.Keeps env) (frames : List Frame) :
    session.environment.Keeps (update session result frames).environment := by
  cases result with
  | ok env => exact h env rfl
  | error failure => exact .refl _

/-- Choosing an arm changes no variable. -/
theorem environment_choose (session : Session) (branches : List (Branch Statement)) :
    (session.choose branches).2.environment = session.environment := by
  induction branches generalizing session with
  | nil => rfl
  | cons branch branches ih =>
      obtain ⟨condition, body⟩ := branch
      cases condition with
      | none => rfl
      | some c =>
          have htest := session.environment_test c
          unfold Session.choose
          split
          · rename_i heq
            rw [heq] at htest
            exact htest
          · rename_i heq
            rw [heq] at htest
            rw [ih]
            exact htest

/-- Only an assignment changes the environment as it begins. -/
theorem environment_begin (session : Session) (frames : List Frame) {s : Statement}
    (h : ∀ name declared e, s ≠ .assign name declared e) :
    (begin session frames s).environment = session.environment := by
  cases s with
  | assign name declared e => exact absurd rfl (h name declared e)
  | input name declared prompt => exact environment_write session _ _
  | output args => exact environment_write session _ _
  | conditional branches =>
      rw [begin_conditional]
      exact environment_choose session branches
  | loop condition body => rfl
  | stop => exact environment_leaveLoop session frames

/-- An assignment goes on in a session that has at most one more record. -/
theorem exists_begin_assign (session : Session) (frames : List Frame) (name : String)
    (declared : Option TypeTag) (e : Expression) :
    ∃ noted : Session, noted.environment = session.environment ∧
      begin session frames (.assign name declared e) =
        update noted (session.environment.assign name declared e) frames := by
  by_cases hdeclared : declared = some .boolean
  · refine ⟨(session.test e).2, session.environment_test e, ?_⟩
    simp only [begin, if_pos hdeclared, Session.environment_test]
  · refine ⟨session, rfl, ?_⟩
    simp only [begin, if_neg hdeclared]

/-- Beginning a statement keeps the variables, and only an assignment changes any. -/
theorem keeps_begin (session : Session) (frames : List Frame) (s : Statement) :
    session.environment.Keeps (begin session frames s).environment := by
  by_cases hassign : ∃ name declared e, s = .assign name declared e
  · obtain ⟨name, declared, e, rfl⟩ := hassign
    obtain ⟨noted, henv, hbegin⟩ := exists_begin_assign session frames name declared e
    rw [hbegin, ← henv]
    exact keeps_update noted (fun env h => Environment.keeps_of_assign h) frames
  · rw [environment_begin session frames]
    · exact .refl _
    · intro name declared e hs
      exact hassign ⟨name, declared, e, hs⟩

/-- A line that is typed keeps the variables, whether it fits or not. -/
theorem keeps_answered (session : Session) (name : String) (declared : TypeTag)
    (frames : List Frame) (line : Option String) :
    session.environment.Keeps (answered session name declared frames line).environment := by
  cases line with
  | none => exact .refl _
  | some line =>
      refine keeps_update session ?_ frames
      intro env henv
      cases hvalue : Value.ofTyped name declared line with
      | error failure =>
          rw [hvalue] at henv
          cases henv
      | ok value =>
          rw [hvalue] at henv
          exact Environment.keeps_of_bind henv

/-- A request for input keeps the variables, also when the console fails. -/
theorem keeps_answer (session : Session) (name : String) (declared : TypeTag)
    (frames : List Frame) :
    session.environment.Keeps (answer session name declared frames).environment := by
  cases hread : session.console.readLine with
  | error reason =>
      rw [answer_of_error name declared frames hread]
      exact .refl _
  | ok read =>
      rw [answer_of_ok name declared frames hread, environment_withConsole]
      exact keeps_answered session name declared frames read.1

/-- A step keeps the types of all variables. -/
theorem keeps_step (m : Machine) : m.environment.Keeps m.step.environment := by
  match m with
  | .halted session failure => exact .refl _
  | .running session [] => exact .refl _
  | .running session (.body [] :: frames) => exact .refl _
  | .running session (.body (s :: rest) :: frames) =>
      exact keeps_begin (session.note (.executing s)) (.body rest :: frames) s
  | .running session (.loop condition body :: frames) =>
      have htest := session.environment_test condition
      rw [step_loop, environment, Machine.session, ← htest]
      exact .refl _
  | .running session (.answer name declared :: frames) =>
      exact keeps_answer session name declared frames
  | .running session (.newline :: frames) =>
      rw [step, environment_write]
      exact .refl _

/-- Records of skipped tokens change nothing else. -/
theorem foldl_skipped (tokens : List Token) (session : Session) :
    (tokens.foldl (fun s t => s.note (.skipped t)) session).environment = session.environment ∧
      (tokens.foldl (fun s t => s.note (.skipped t)) session).console = session.console := by
  induction tokens generalizing session with
  | nil => exact ⟨rfl, rfl⟩
  | cons t tokens ih => exact ih (session.note (.skipped t))

/-- A source that cannot be read ends the run before it begins. -/
theorem ofSource_cases (session : Session) (source : String) :
    (∃ noted error, ofSource session source = .halted noted (some (.malformed error)) ∧
      noted.environment = session.environment ∧ noted.console = session.console) ∨
    ∃ noted program, ofSource session source = ofProgram noted program ∧
      noted.environment = session.environment := by
  unfold ofSource
  dsimp only
  split
  · exact .inr ⟨_, _, rfl, (foldl_skipped _ _).1⟩
  · exact .inl ⟨_, _, rfl, foldl_skipped _ _⟩

/-- Reading the program changes no variable. -/
theorem environment_ofSource (session : Session) (source : String) :
    (ofSource session source).environment = session.environment := by
  rcases ofSource_cases session source with ⟨noted, error, h, henv, -⟩ | ⟨noted, program, h, henv⟩
  · rw [h]
    exact henv
  · rw [h]
    exact henv

/-- What can happen to a machine in the course of several runs. -/
inductive Moves : Machine → Machine → Prop
  /-- The run takes a step. -/
  | step (m : Machine) : Moves m m.step
  /-- Lines are typed, or a device breaks or is mended. -/
  | console (m : Machine) (console : Console) : Moves m (m.withConsole console)
  /-- After the end of a run another source is run in the same environment. -/
  | call (session : Session) (failure : Option Failure) (console : Console) (journal : List Record)
      (source : String) :
      Moves (.halted session failure) (ofSource ⟨session.environment, console, journal⟩ source)

/-- Whatever happens to a machine, it keeps its variables. -/
theorem Moves.keeps {m m' : Machine} (h : Moves m m') : m.environment.Keeps m'.environment := by
  cases h with
  | step => exact keeps_step m
  | console console =>
      rw [environment_withConsole]
      exact .refl _
  | call session failure console journal source =>
      rw [environment_ofSource]
      exact .refl _

/-- A run reaches its later states. -/
theorem reaches_run (fuel : Nat) (m : Machine) : Relation.ReflTransGen Moves m (run fuel m) := by
  induction fuel with
  | zero => exact .refl
  | succ fuel ih =>
      rw [run_succ]
      exact ih.tail (.step _)

/-- Whatever happens, a bound name stays bound to a value of the same type: in a run of any program
in any session, and over any number of runs in one environment. -/
theorem variables_keep_their_types :
    (∀ (session : Session) (program : List Statement) (i j : Nat), i ≤ j →
      (run i (ofProgram session program)).environment.Keeps
        (run j (ofProgram session program)).environment) ∧
    ∀ m m' : Machine, Relation.ReflTransGen Moves m m' → m.environment.Keeps m'.environment := by
  have hmoves (m m' : Machine) (h : Relation.ReflTransGen Moves m m') :
      m.environment.Keeps m'.environment := by
    induction h with
    | refl => exact .refl _
    | tail _ hmove ih => exact ih.trans hmove.keeps
  refine ⟨?_, hmoves⟩
  intro session program i j hij
  obtain ⟨n, rfl⟩ := Nat.exists_eq_add_of_le hij
  rw [run_add]
  exact hmoves _ _ (reaches_run n _)

/-- A text variable stays one when a later source declares it as a truth value. -/
theorem variables_keep_their_types_redeclared :
    ∃ value, (run 5 (ofSource ⟨Environment.empty.set "x" (.text "a"), .ofLines [], []⟩
      "bln(x) = true |")).environment.get? "x" = some value ∧ value.tag = .text := by
  have hcall := Moves.call ⟨Environment.empty.set "x" (.text "a"), .ofLines [], []⟩ none
    (.ofLines []) [] "bln(x) = true |"
  have hreach := Relation.ReflTransGen.trans (.single hcall) (reaches_run 5 _)
  exact variables_keep_their_types.2 _ _ hreach "x" (.text "a") (Environment.get?_set_self _ _ _)

end Machine

end Sting
