import Sting.Session
import Sting.Token.Piece

/-!
# Execution

A machine runs a program step by step. It keeps the work that is left as a list of frames, innermost
first, and each step makes at most one call to the console.
-/

namespace Sting

/-- Work that is left to do. -/
inductive Frame where
  /-- The rest of a body. -/
  | body (statements : List Statement)
  /-- A loop whose condition is tested next. -/
  | loop (condition : Expression) (body : List Statement)
  /-- An input statement whose prompt is shown and whose line is read next. -/
  | answer (name : String) (declared : TypeTag)
  /-- An output statement whose line is still to be ended. -/
  | newline

/-- A run in progress, or its end: without a failure it succeeded. -/
inductive Machine where
  | running (session : Session) (frames : List Frame)
  | halted (session : Session) (failure : Option Failure)

namespace Machine

/-- The session of a run. -/
def session : Machine → Session
  | .running session _ => session
  | .halted session _ => session

/-- The run is over. -/
def isHalted : Machine → Bool
  | .running .. => false
  | .halted .. => true

/-- How a run ended. -/
def failure? : Machine → Option Failure
  | .running .. => none
  | .halted _ failure => failure

/-- The next step reads a line from the console. -/
def awaitsLine : Machine → Bool
  | .running _ (.answer .. :: _) => true
  | _ => false

/-- The same point of a run in another session. -/
def withSession (session : Session) : Machine → Machine
  | .running _ frames => .running session frames
  | .halted _ failure => .halted session failure

/-- Leaves the innermost loop, or ends the run if there is none. -/
def leaveLoop (session : Session) : List Frame → Machine
  | [] => .halted (session.note .endedRun) none
  | .loop condition _ :: rest => .running (session.note (.leftLoop condition.source)) rest
  | _ :: rest => leaveLoop session rest

/-- Writes a text and goes on, or fails. -/
def write (session : Session) (text : String) (frames : List Frame) : Machine :=
  match session.console.write text with
  | .ok console => .running { session with console } frames
  | .error reason => .halted session (some (.device reason))

/-- Changes the environment and goes on, or fails. -/
def update (session : Session) (result : Except Failure Environment) (frames : List Frame) :
    Machine :=
  match result with
  | .ok environment => .running { session with environment } frames
  | .error failure => .halted session (some failure)

/-- Begins a statement, with the frames of what follows it. -/
def begin (session : Session) (frames : List Frame) : Statement → Machine
  | .assign name declared e =>
    let session := if declared = some .boolean then (session.test e).2 else session
    update session (session.environment.assign name declared e) frames
  | .input name declared prompt =>
    write session (promptText prompt) (.answer name declared :: frames)
  | .output args => write session (session.environment.line args) (.newline :: frames)
  | .conditional branches =>
    match session.choose branches with
    | (some body, session) => .running session (.body body :: frames)
    | (none, session) => .running session frames
  | .loop condition body => .running session (.loop condition body :: frames)
  | .stop => leaveLoop session frames

/-- Reads the line for an input statement and binds its variable. -/
def answer (session : Session) (name : String) (declared : TypeTag) (frames : List Frame) :
    Machine :=
  match session.console.readLine with
  | .error reason => .halted session (some (.device reason))
  | .ok (none, console) => .halted { session with console } (some (.noInput name))
  | .ok (some line, console) =>
    let result := do session.environment.bind name declared (← Value.ofTyped name declared line)
    update { session with console } result frames

/-- One step of a run. A run that is over stays as it is. -/
def step : Machine → Machine
  | .halted session failure => .halted session failure
  | .running session [] => .halted session none
  | .running session (.body [] :: frames) => .running session frames
  | .running session (.body (s :: rest) :: frames) =>
    begin (session.note (.executing s)) (.body rest :: frames) s
  | .running session (.loop condition body :: frames) =>
    match session.test condition with
    | (true, session) => .running session (.body body :: .loop condition body :: frames)
    | (false, session) => .running session frames
  | .running session (.answer name declared :: frames) => answer session name declared frames
  | .running session (.newline :: frames) => write session "\n" frames

/-- At most `fuel` steps; it stops when the run is over. -/
def run : (fuel : Nat) → Machine → Machine
  | 0, m => m
  | _ + 1, .halted session failure => .halted session failure
  | fuel + 1, .running session frames => run fuel (step (.running session frames))

/-- The machine that will execute a program. -/
def ofProgram (session : Session) (program : List Statement) : Machine :=
  .running session [.body program]

/-- The machine that will execute a source text: it is cut and read first, and a text that is no
program ends the run before it begins. -/
def ofSource (session : Session) (source : String) : Machine :=
  let tokens := Token.scan source
  let reading := Reading.ofTokens tokens
  let session := session.note (.scanned source.utf8ByteSize tokens.length)
  let session := reading.skipped.foldl (fun s t => s.note (.skipped t)) session
  match reading.program with
  | .ok program => ofProgram (session.note (.read tokens.length program.length)) program
  | .error error => .halted session (some (.malformed error))

end Machine

end Sting
