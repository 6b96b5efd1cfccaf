import Sting.Number

/-!
# Values

A value is a number, a text or a truth value; there is no other. Its tag is what a variable keeps
for life.
-/

namespace Sting

/-- The three types of values. -/
inductive TypeTag where
  | number
  | text
  | boolean
deriving DecidableEq, Repr

namespace TypeTag

/-- The keyword that declares a variable of this type. -/
def keyword : TypeTag → String
  | .number => "num"
  | .text => "str"
  | .boolean => "bln"

/-- The type that a keyword declares. -/
def ofKeyword? : String → Option TypeTag
  | "num" => some .number
  | "str" => some .text
  | "bln" => some .boolean
  | _ => none

/-- The type as a phrase of a message. -/
def describe : TypeTag → String
  | .number => "a number"
  | .text => "a string"
  | .boolean => "a boolean"

end TypeTag

/-- What a variable holds and an expression yields. -/
inductive Value where
  | number (value : Float)
  | text (content : String)
  | boolean (truth : Bool)
deriving DecidableEq, Repr

namespace Value

/-- The type of a value. -/
def tag : Value → TypeTag
  | .number _ => .number
  | .text _ => .text
  | .boolean _ => .boolean

/-- The text of a value as it is shown and joined: texts stand for themselves. -/
def render : Value → String
  | .number value => Number.render value
  | .text content => content
  | .boolean truth => if truth then "true" else "false"

/-- The number that a value is. -/
def asNumber? : Value → Option Float
  | .number value => some value
  | _ => none

/-- The truth value that a value is. -/
def asBoolean? : Value → Option Bool
  | .boolean truth => some truth
  | _ => none

/-- Whether a value lets a branch or a loop go on: a number does unless it is zero, a text never
does. -/
def isTrue : Value → Bool
  | .number value => Number.isNonzero value
  | .text _ => false
  | .boolean truth => truth

end Value

end Sting
