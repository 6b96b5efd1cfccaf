import Sting.Console

/-!
# Streams of bytes

Bytes become texts and typed lines. A line that is no text does no harm until it is read.
-/

namespace Sting

/-- The reason given for bytes that are no text. -/
def invalidText : String :=
  "stream did not contain valid UTF-8"

/-- The text that bytes encode, or the reason why they encode none. -/
def decodeText (bytes : List UInt8) : Except String String :=
  match String.fromUTF8? (ByteArray.mk bytes.toArray) with
  | some text => .ok text
  | none => .error invalidText

/-- Splits bytes behind every newline; the line being collected has its latest byte first. -/
def splitBytes (current : List UInt8) : List UInt8 → List (List UInt8)
  | [] => if current.isEmpty then [] else [current.reverse]
  | b :: rest =>
    if b = 0x0A then (b :: current).reverse :: splitBytes [] rest
    else splitBytes (b :: current) rest

/-- A line without the newlines and carriage returns at its end. -/
def chopLine (line : String) : String :=
  String.ofList (line.toList.reverse.dropWhile fun c => c == '\n' || c == '\r').reverse

/-- A console on which the lines of a stream of bytes are typed. Reading fails at the first line
that is no text. -/
def Console.ofLineBytes : List (List UInt8) → Console
  | [] => .ofLines []
  | bytes :: rest =>
    match decodeText bytes with
    | .ok line =>
      let console := Console.ofLineBytes rest
      { console with
        input := chopLine line :: console.input
        reading := console.reading.map fun b => ⟨b.after + 1, b.reason⟩ }
    | .error reason => { Console.ofLines [] with reading := some ⟨0, reason⟩ }

/-- A console on which a stream of bytes is typed. -/
def Console.ofBytes (bytes : List UInt8) : Console :=
  .ofLineBytes (splitBytes [] bytes)

end Sting
