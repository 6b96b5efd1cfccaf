import Sting.Statement

/-!
# Writing programs

The canonical text of a program: every statement on lines of its own, bodies indented by four
blanks, a bar at the end of every statement, arm and loop.
-/

namespace Sting

namespace Statement

/-- A line of a body at the given depth. -/
def indented (depth : Nat) (text : String) : String :=
  String.ofList (List.replicate (4 * depth) ' ') ++ text

mutual

/-- The lines of a statement. -/
def lines (depth : Nat) : Statement → List String
  | .assign name (some tag) expression =>
    [indented depth (tag.keyword ++ "(" ++ name ++ ") = " ++ expression.source ++ " |")]
  | .assign name none expression => [indented depth (name ++ " = " ++ expression.source ++ " |")]
  | .input name tag prompt =>
    [indented depth (tag.keyword ++ "(" ++ name ++ ") = roi(" ++ prompt ++ ") |")]
  | .output args => [indented depth ("show(" ++ ", ".intercalate args ++ ") |")]
  | .conditional branches => branchLines depth "if" branches
  | .loop condition body =>
    indented depth ("loop (" ++ condition.source ++ ") :") ::
      (bodyLines (depth + 1) body ++ [indented depth "|"])
  | .stop => [indented depth "stop |"]

/-- The lines of a body. -/
def bodyLines (depth : Nat) : List Statement → List String
  | [] => []
  | s :: rest => lines depth s ++ bodyLines depth rest

/-- The lines of the arms of a conditional, the first one introduced by the given keyword. -/
def branchLines (depth : Nat) (keyword : String) : List (Branch Statement) → List String
  | [] => []
  | ⟨condition, body⟩ :: rest =>
    let header :=
      match condition with
      | some condition => keyword ++ " (" ++ condition.source ++ ") :"
      | none => "else :"
    indented depth header ::
      (bodyLines (depth + 1) body ++ indented depth "|" :: branchLines depth "elseif" rest)

end

/-- The text of a statement. -/
def render (s : Statement) : String :=
  "\n".intercalate (s.lines 0)

/-- The text of a program; every line is ended. -/
def renderProgram (program : List Statement) : String :=
  String.join ((bodyLines 0 program).map (· ++ "\n"))

end Statement

end Sting
