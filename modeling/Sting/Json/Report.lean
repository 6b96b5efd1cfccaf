import Sting.Diagnostic
import Sting.Environment
import Sting.Json
import Sting.Token

/-!
# JSON reports

Environments, tokens and diagnostics as JSON.
-/

namespace Sting

/-- JSON has no infinities and no NaN; they become `null`. -/
def Value.json : Value → Json
  | .number value => if Number.isFinite value then .number (Number.render value) else .null
  | .text content => .string content
  | .boolean truth => .boolean truth

/-- An object with a field for each variable, in the order of the names. -/
def Environment.json (env : Environment) : Json :=
  .object (env.toList.map fun (name, value) => (name, value.json))

/-- A count as JSON. -/
def Json.ofNat (n : Nat) : Json :=
  .number (toString n)

/-- Kind, text and place of a token; the place without the offset. -/
def Token.json (t : Token) : Json :=
  .object
    [("kind", .string t.kind.name), ("text", .string t.text), ("line", .ofNat t.position.line),
     ("column", .ofNat t.position.column)]

/-- An array of tokens. -/
def Token.jsonList (tokens : List Token) : Json :=
  .array (tokens.map Token.json)

/-- A place in full. -/
def Position.json (p : Position) : Json :=
  .object [("line", .ofNat p.line), ("column", .ofNat p.column), ("offset", .ofNat p.offset)]

/-- Code and message, and the place if there is one. -/
def Diagnostic.json (d : Diagnostic) : Json :=
  let place :=
    match d.position with
    | some p => [("position", p.json)]
    | none => []
  .object ([("code", .string d.kind.code), ("message", .string d.message)] ++ place)

end Sting
