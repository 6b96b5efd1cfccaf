import Sting.Position

/-!
# Tokens

A token is a classified stretch of the source text with the place where it begins.
-/

namespace Sting

/-- What a token is. -/
inductive Token.Kind where
  | keyword
  | identifier
  /-- Quoted text, with its quotes. -/
  | text
  | number
  | symbol
  /-- What a source says to its readers only: no token that is cut out of a source is one. -/
  | comment
deriving DecidableEq, Repr

/-- A unit of the program text. -/
structure Token where
  kind : Token.Kind
  text : String
  /-- Where the text begins. -/
  position : Position
deriving DecidableEq, Repr

namespace Token

/-- The name of a kind. -/
def Kind.name : Kind → String
  | .keyword => "Keyword"
  | .identifier => "Identifier"
  | .text => "Text"
  | .number => "Number"
  | .symbol => "Symbol"
  | .comment => "Comment"

/-- The words that are never variables. -/
def keywords : List String :=
  ["show", "roi", "if", "elseif", "else", "loop", "str", "num", "bln", "stop"]

/-- The kind of a word. -/
def wordKind (word : List Char) : Kind :=
  if keywords.contains (String.ofList word) then .keyword else .identifier

/-- The kind of a run of digits: only ASCII digits make a number. -/
def digitsKind (digits : List Char) : Kind :=
  if digits.all fun c => c.isDigit || c == '.' then .number else .identifier

/-- Kind and text, as the journal names a token. -/
def render (t : Token) : String :=
  "[" ++ t.kind.name ++ ": " ++ t.text ++ "]"

/-- The place just past a token, on the line where it begins. -/
def finish (t : Token) : Position where
  line := t.position.line
  column := t.position.column + t.text.length
  offset := t.position.offset + t.text.utf8ByteSize

/-- The place just past the last token: where the end of the input is reported. -/
def endPosition (tokens : List Token) : Position :=
  match tokens.getLast? with
  | some last => last.finish
  | none => .start

end Token

end Sting
