/-!
# Lines of a text

A newline ends a line, and a carriage return right before it belongs to the ending. A last line
without a newline is kept as it is.
-/

namespace Sting.Text

/-- Splits after every newline; the line being collected has its latest character first. -/
def splitLines (current : List Char) : List Char → List (List Char)
  | [] => if current.isEmpty then [] else [current.reverse]
  | '\n' :: rest =>
    let line :=
      match current with
      | '\r' :: line => line
      | line => line
    line.reverse :: splitLines [] rest
  | c :: rest => splitLines (c :: current) rest

/-- The lines of a text without their endings. -/
def lines (text : String) : List String :=
  (splitLines [] text.toList).map String.ofList

end Sting.Text
