import Sting.Text.Lines

/-!
# Consoles

A console takes texts and gives lines. It is a value: the lines still to be typed, the calls made so
far, and for each direction the call, if any, that will fail.
-/

namespace Sting

/-- A call that succeeded. -/
inductive Exchange where
  | wrote (text : String)
  /-- The line that was typed; none when no line was left. -/
  | typed (line : Option String)
deriving DecidableEq, Repr

/-- The text that a call put out. -/
def Exchange.output : Exchange → String
  | .wrote text => text
  | .typed _ => ""

/-- A device that fails after some more calls. -/
structure Breakdown where
  /-- How many calls still succeed. -/
  after : Nat
  reason : String
deriving DecidableEq, Repr

/-- A console with its past and its future. -/
structure Console where
  /-- The lines still to be typed. -/
  input : List String
  /-- The calls so far, latest first. -/
  transcript : List Exchange
  /-- Whether and when reading fails. -/
  reading : Option Breakdown
  /-- Whether and when writing fails. -/
  writing : Option Breakdown
deriving DecidableEq, Repr

namespace Console

/-- A console that has not been used, on which these lines will be typed. -/
def ofLines (input : List String) : Console :=
  ⟨input, [], none, none⟩

/-- Everything written so far. -/
def output (c : Console) : String :=
  String.join (c.transcript.reverse.map Exchange.output)

/-- Everything written so far, line by line. -/
def outputLines (c : Console) : List String :=
  Text.lines c.output

/-- Writes a text, or gives the reason why it cannot be written. -/
def write (c : Console) (text : String) : Except String Console :=
  match c.writing with
  | some ⟨0, reason⟩ => .error reason
  | some ⟨n + 1, reason⟩ =>
    .ok { c with transcript := .wrote text :: c.transcript, writing := some ⟨n, reason⟩ }
  | none => .ok { c with transcript := .wrote text :: c.transcript }

/-- Takes a line, none if no line is left, or gives the reason why it cannot be read. -/
def readLine (c : Console) : Except String (Option String × Console) :=
  let taken (reading : Option Breakdown) : Option String × Console :=
    (c.input.head?,
      { c with
        input := c.input.tail
        transcript := .typed c.input.head? :: c.transcript
        reading := reading })
  match c.reading with
  | some ⟨0, reason⟩ => .error reason
  | some ⟨n + 1, reason⟩ => .ok (taken (some ⟨n, reason⟩))
  | none => .ok (taken none)

end Console

end Sting
