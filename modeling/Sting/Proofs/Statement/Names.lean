import Mathlib.Data.List.Basic
import Sting.Proofs.Expression.Tree
import Sting.Session

/-!
# Names of a program

The names that a program mentions: the variables that it binds, the words of its expressions, and
the arguments that it shows. Environments that agree on these names give every expression the same
value, every argument the same text and every binding the same outcome.
-/

namespace Sting

/-- The name that an instruction looks up. -/
def Instruction.name? : Instruction → Option String
  | .word name => some name
  | _ => none

/-- The words of an expression. -/
def Expression.names (e : Expression) : List String :=
  e.code.filterMap Instruction.name?

namespace Statement

mutual

/-- The names that a statement mentions at any depth. -/
def names : Statement → List String
  | .assign name _ e => name :: e.names
  | .input name _ _ => [name]
  | .output args => args
  | .conditional branches => armNames branches
  | .loop condition body => condition.names ++ bodyNames body
  | .stop => []

/-- The names that the statements of a body mention. -/
def bodyNames : List Statement → List String
  | [] => []
  | s :: rest => names s ++ bodyNames rest

/-- The names that the arms of a conditional mention in conditions and bodies. -/
def armNames : List (Branch Statement) → List String
  | [] => []
  | ⟨condition, body⟩ :: rest =>
    (condition.map Expression.names).getD [] ++ bodyNames body ++ armNames rest

end

end Statement

namespace Environment

/-- The same values for these names, and the same of them unbound. -/
def AgreeOn (names : List String) (env env' : Environment) : Prop :=
  ∀ name ∈ names, env.get? name = env'.get? name

variable {names : List String} {env env' : Environment}

/-- Agreement goes both ways. -/
theorem AgreeOn.symm (h : AgreeOn names env env') : AgreeOn names env' env :=
  fun name hname => (h name hname).symm

/-- Who agrees on more names agrees on fewer. -/
theorem AgreeOn.mono {fewer : List String} (h : AgreeOn names env env') (hsub : fewer ⊆ names) :
    AgreeOn fewer env env' :=
  fun name hname => h name (hsub hname)

/-- Environments that agree go on to agree when a name is bound in both. -/
theorem AgreeOn.set (h : AgreeOn names env env') (name : String) (value : Value) :
    AgreeOn names (env.set name value) (env'.set name value) := by
  intro other hother
  rw [get?_set, get?_set, h other hother]

/-- A word is looked up by its own binding alone. -/
theorem lookup_congr {word : String} (h : env.get? word = env'.get? word) :
    env.lookup word = env'.lookup word := by
  rw [lookup, lookup, h]

end Environment

open Environment

variable {names : List String} {env env' : Environment}

/-- An instruction reads the environment only to look up its name. -/
theorem Instruction.step_congr {i : Instruction}
    (h : ∀ name ∈ i.name?, env.get? name = env'.get? name) (stack : List Value) :
    step env stack i = step env' stack i := by
  cases i with
  | word name => rw [step, step, lookup_congr (h name rfl)]
  | number value => rfl
  | text content => rfl
  | apply op => cases op <;> rfl
  | unclosed => rfl

/-- Code runs the same where its words have the same values. -/
theorem Instruction.run_congr {code : List Instruction}
    (h : AgreeOn (code.filterMap Instruction.name?) env env') (stack : List Value) :
    run env stack code = run env' stack code := by
  induction code generalizing stack with
  | nil => rfl
  | cons i code ih =>
      have hhead : ∀ name ∈ i.name?, env.get? name = env'.get? name := by
        intro name hname
        exact h name (List.mem_filterMap.mpr ⟨i, List.mem_cons_self, hname⟩)
      have htail : AgreeOn (code.filterMap Instruction.name?) env env' :=
        h.mono ((List.sublist_cons_self i code).filterMap _).subset
      have hrest : (fun stack => run env stack code) = fun stack => run env' stack code :=
        funext fun stack => ih htail stack
      rw [run_cons, run_cons, step_congr hhead, hrest]

/-- The value of an expression depends on its words alone. -/
theorem Expression.evaluate_congr {e : Expression} (h : AgreeOn e.names env env') :
    e.evaluate env = e.evaluate env' := by
  rw [evaluate, evaluate, Instruction.run_congr h]

namespace Environment

/-- What is assigned depends on the words of the expression. -/
theorem assigned_congr {e : Expression} (declared : Option TypeTag)
    (h : AgreeOn e.names env env') : env.assigned declared e = env'.assigned declared e := by
  unfold assigned Expression.holds
  rw [Expression.evaluate_congr h]

/-- What an argument shows depends on its own binding. -/
theorem argument_congr {arg : String} (h : env.get? arg = env'.get? arg) :
    env.argument arg = env'.argument arg := by
  rw [argument, argument, h]

/-- The line of an output statement depends on its arguments alone. -/
theorem line_congr {args : List String} (h : AgreeOn args env env') :
    env.line args = env'.line args := by
  have hargs : args.map env.argument = args.map env'.argument :=
    List.map_congr_left fun arg harg => argument_congr (h arg harg)
  rw [line, line, hargs]

/-- The same failure, or environments that agree. -/
inductive SameOutcome (names : List String) :
    Except Failure Environment → Except Failure Environment → Prop
  | ok {env env' : Environment} (h : AgreeOn names env env') :
      SameOutcome names (.ok env) (.ok env')
  | error (failure : Failure) : SameOutcome names (.error failure) (.error failure)

/-- Whether a name can be bound depends on what it is bound to, and on no other name. -/
theorem sameOutcome_bind (h : AgreeOn names env env') {name : String} (hname : name ∈ names)
    (tag : TypeTag) (value : Value) :
    SameOutcome names (env.bind name tag value) (env'.bind name tag value) := by
  have hset := h.set name value
  unfold bind
  rw [h name hname]
  split
  · split
    · exact .error _
    · split
      · exact .error _
      · exact .ok hset
  · split
    · exact .error _
    · exact .ok hset

/-- An assignment comes out the same where its variable and the words of its expression agree. -/
theorem sameOutcome_assign (h : AgreeOn names env env') {name : String} {e : Expression}
    (hnames : name :: e.names ⊆ names) (declared : Option TypeTag) :
    SameOutcome names (env.assign name declared e) (env'.assign name declared e) := by
  obtain ⟨hname, hsub⟩ := List.cons_subset.mp hnames
  unfold assign
  rw [assigned_congr declared (h.mono hsub)]
  split
  · exact sameOutcome_bind h hname _ _
  · exact .error _

end Environment

end Sting
