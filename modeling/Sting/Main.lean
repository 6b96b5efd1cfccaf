import Sting.Command.Report

/-!
# The command line program

The outer layer: it fetches bytes, prints texts and steps the machine. What it prints is decided by
`Sting.Command`.
-/

namespace Sting.Command

/-- Everything that is left on a stream. -/
partial def readAll (stream : IO.FS.Stream) (bytes : ByteArray) : IO ByteArray := do
  let chunk ← stream.read 65536
  if chunk.isEmpty then return bytes else readAll stream (bytes ++ chunk)

/-- The bytes of the next line, with its newline; none at the end of the stream. -/
partial def readLineBytes (stream : IO.FS.Stream) (bytes : ByteArray) : IO ByteArray := do
  let byte ← stream.read 1
  if byte.isEmpty || byte.toList == [0x0A] then return bytes ++ byte
  else readLineBytes stream (bytes ++ byte)

/-- The bytes of a file, or the reason why they cannot be read. -/
def readFile (path : String) : IO (Except String (List UInt8)) := do
  try
    return .ok (← IO.FS.readBinFile path).toList
  catch e =>
    match e with
    | .noFileOrDirectory .. => return .error "No such file or directory (os error 2)"
    | .inappropriateType .. => return .error "Is a directory (os error 21)"
    | e => return .error (toString e)

/-- Runs a machine to its end. Texts are printed as soon as they are written, and a line is fetched
only when it is read. -/
partial def drive (input output : IO.FS.Stream) (m : Machine) : IO Machine := do
  let session := m.session
  let text := session.console.output
  unless text.isEmpty do
    output.putStr text
    output.flush
  let console := { session.console with transcript := [] }
  let console ←
    if m.awaitsLine && console.input.isEmpty then do
      let bytes ← readLineBytes input .empty
      let typed := Console.ofBytes bytes.toList
      pure { console with input := typed.input, reading := typed.reading }
    else pure console
  let m := m.withSession { session with console, journal := [] }
  if m.isHalted then return m else drive input output m.step

/-- Reports a failure. -/
def fail (o : Options) (failure : Failure) : IO UInt32 := do
  (← IO.getStderr).putStr (o.describe failure)
  return 1

/-- Carries out options. -/
def start (o : Options) : IO UInt32 := do
  let input ← IO.getStdin
  let output ← IO.getStdout
  let bytes ← if o.source.isNone && o.file.isNone then readAll input .empty else pure .empty
  let file ←
    match o.file with
    | some path => readFile path
    | none => pure (.ok [])
  match o.load (fun _ => file) bytes.toList with
  | .error failure => fail o failure
  | .ok (source, _) =>
    match o.listing? source with
    | some (.ok text) =>
      output.putStr text
      return 0
    | some (.error failure) => fail o failure
    | none =>
      let m ← drive input output (Machine.ofSource (.start .empty (.ofLines [])) source)
      match m.failure? with
      | some failure => fail o failure
      | none =>
        (← IO.getStderr).putStr (o.epilogue m.session.environment)
        return 0

end Sting.Command

/-- Carries out a command line. -/
def main (args : List String) : IO UInt32 := do
  match Sting.Command.Request.ofCommandLine args with
  | .help =>
    (← IO.getStdout).putStr Sting.Command.usageText
    return 0
  | .version =>
    (← IO.getStdout).putStr Sting.Command.versionText
    return 0
  | .misuse =>
    (← IO.getStderr).putStr Sting.Command.usageText
    return 2
  | .start options => Sting.Command.start options
