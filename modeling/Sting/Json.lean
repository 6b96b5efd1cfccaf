/-!
# JSON

Trees of JSON and their texts. A number is kept as the literal that is written for it. The compact
style has no blanks at all. The pretty style puts each entry of the outermost array or object on a
line of its own; what is inside an entry stays on its line.
-/

namespace Sting

/-- A JSON tree. -/
inductive Json where
  | null
  | boolean (truth : Bool)
  | number (literal : String)
  | string (content : String)
  | array (items : List Json)
  | object (fields : List (String × Json))

namespace Json

/-- How a tree is laid out. -/
inductive Style where
  | compact
  | pretty
deriving DecidableEq, Repr

/-- The lower-case hexadecimal digit of a number below sixteen. -/
def hexDigit (n : Nat) : Char :=
  Nat.digitChar n

/-- A character as it is written between double quotes. The control characters without an escape of
their own are written by number. -/
def escape (c : Char) : List Char :=
  match c with
  | '"' => ['\\', '"']
  | '\\' => ['\\', '\\']
  | '\n' => ['\\', 'n']
  | '\r' => ['\\', 'r']
  | '\t' => ['\\', 't']
  | '\x08' => ['\\', 'b']
  | '\x0c' => ['\\', 'f']
  | c =>
    if c.toNat < 0x20 then
      ['\\', 'u', '0', '0', hexDigit (c.toNat / 16), hexDigit (c.toNat % 16)]
    else [c]

/-- A text between double quotes. -/
def quoted (text : String) : String :=
  String.ofList ('"' :: text.toList.flatMap escape ++ ['"'])

/-- A key with its colon. -/
def keyed (style : Style) (key : String) : String :=
  quoted key ++ (if style = .pretty then ": " else ":")

mutual

/-- A tree on one line. -/
def inline (style : Style) : Json → String
  | .null => "null"
  | .boolean truth => if truth then "true" else "false"
  | .number literal => literal
  | .string content => quoted content
  | .array items => "[" ++ ",".intercalate (inlineItems style items) ++ "]"
  | .object fields => "\x7b" ++ ",".intercalate (inlineFields style fields) ++ "\x7d"

/-- The items of an array, each on one line. -/
def inlineItems (style : Style) : List Json → List String
  | [] => []
  | item :: rest => inline style item :: inlineItems style rest

/-- The fields of an object, each on one line. -/
def inlineFields (style : Style) : List (String × Json) → List String
  | [] => []
  | (key, value) :: rest => (keyed style key ++ inline style value) :: inlineFields style rest

end

/-- Entries between brackets, laid out as an outermost array or object. -/
def container (style : Style) (opening closing : String) (entries : List String) : String :=
  match style, entries with
  | .pretty, entry :: rest =>
    opening ++ "\n  " ++ ",\n  ".intercalate (entry :: rest) ++ "\n" ++ closing
  | _, entries => opening ++ ",".intercalate entries ++ closing

/-- The text of a tree. -/
def render (style : Style) : Json → String
  | .array items => container style "[" "]" (inlineItems style items)
  | .object fields => container style "\x7b" "\x7d" (inlineFields style fields)
  | value => inline style value

end Json

end Sting
