import Std.Data.ExtTreeMap
import Sting.Value

/-!
# Environments

The variables of a run with their values, in the order of their names. Two environments with the
same bindings are equal.
-/

namespace Sting

/-- The bound names with their values. -/
structure Environment where
  /-- The bindings, ordered by the code points of the names. -/
  bindings : Std.ExtTreeMap String Value

namespace Environment

/-- The environment without bindings. -/
def empty : Environment :=
  ⟨∅⟩

instance : Inhabited Environment :=
  ⟨empty⟩

/-- The value of a name. -/
def get? (env : Environment) (name : String) : Option Value :=
  env.bindings[name]?

/-- Binds a name, in place of any earlier binding. -/
def set (env : Environment) (name : String) (value : Value) : Environment :=
  ⟨env.bindings.insert name value⟩

/-- No name is bound. -/
def isEmpty (env : Environment) : Bool :=
  env.bindings.isEmpty

/-- The bindings in the order of the names. -/
def toList (env : Environment) : List (String × Value) :=
  env.bindings.toList

/-- The environment that binds each name of a list, later entries last. -/
def ofList (entries : List (String × Value)) : Environment :=
  entries.foldl (fun env entry => env.set entry.1 entry.2) empty

/-- At first no variable is bound. -/
@[simp] theorem get?_empty (name : String) : empty.get? name = none := by
  simp [get?, empty]

/-- A binding is read back, and every other name keeps its value. -/
theorem get?_set (env : Environment) (name other : String) (value : Value) :
    (env.set name value).get? other = if name = other then some value else env.get? other := by
  simp [get?, set, Std.ExtTreeMap.getElem?_insert]

/-- A variable that was just bound has its value. -/
@[simp] theorem get?_set_self (env : Environment) (name : String) (value : Value) :
    (env.set name value).get? name = some value := by
  simp [get?_set]

/-- An environment is what its names are bound to. -/
@[ext] theorem ext {env₁ env₂ : Environment} (h : ∀ name, env₁.get? name = env₂.get? name) :
    env₁ = env₂ := by
  cases env₁
  cases env₂
  exact congrArg mk (Std.ExtTreeMap.ext_getElem? h)

end Environment

end Sting
