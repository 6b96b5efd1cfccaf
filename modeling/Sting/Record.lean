import Sting.Expression.Evaluation
import Sting.Statement
import Sting.Token

/-!
# Journal records

What a run notes about itself. The records of level `trace` follow single tokens and statements; the
others are of level `debug`.
-/

namespace Sting

/-- A line of the journal. -/
inductive Record where
  /-- A source of this many bytes was cut into this many tokens. -/
  | scanned (bytes tokens : Nat)
  /-- A token began no statement. -/
  | skipped (token : Token)
  /-- This many tokens were read into this many statements outside of all blocks. -/
  | read (tokens statements : Nat)
  /-- A statement begins. -/
  | executing (statement : Statement)
  /-- A condition has no value and counts as false. -/
  | assumedFalse (source : String) (error : EvalError)
  /-- A `stop` left the loop with this condition. -/
  | leftLoop (condition : String)
  /-- A `stop` outside of all loops ended the run. -/
  | endedRun

namespace Record

/-- How detailed a record is. -/
inductive Level where
  | debug
  | trace
deriving DecidableEq, Repr

/-- The name that opens a line of the journal. -/
def Level.name : Level → String
  | .debug => "DEBUG"
  | .trace => "TRACE"

/-- The level of a record. -/
def level : Record → Level
  | .skipped _ => .trace
  | .executing _ => .trace
  | _ => .debug

/-- What a record says. -/
def text : Record → String
  | .scanned bytes tokens =>
    "tokenized " ++ toString bytes ++ " bytes into " ++ toString tokens ++ " tokens"
  | .skipped token => "skipping token " ++ token.render
  | .read tokens statements =>
    "parsed " ++ toString tokens ++ " tokens into " ++ toString statements ++
      " top-level statements"
  | .executing statement => "executing " ++ statement.label
  | .assumedFalse source error =>
    "condition '" ++ source ++ "' treated as false: " ++ error.diagnostic.render
  | .leftLoop condition => "loop (" ++ condition ++ ") exited by stop"
  | .endedRun => "stop outside of a loop ended the run"

/-- The level and the text on one line. -/
def render (r : Record) : String :=
  r.level.name ++ " " ++ r.text

/-- The records that a reader at this level sees. -/
def visible (level : Level) (r : Record) : Bool :=
  level == .trace || r.level == .debug

end Record

end Sting
