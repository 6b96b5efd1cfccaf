import Sting.Command.Options
import Sting.Console.Stream
import Sting.Json.Report
import Sting.Machine
import Sting.Statement.Printer

/-!
# Carrying out a command line

What a command line puts out and with which code it ends, as a function of its arguments, of the
files that it can see and of the bytes on its input.
-/

namespace Sting

namespace Command

/-- What a command leaves behind. -/
structure Report where
  /-- The code it ends with: `0` for success, `1` for a failure, `2` for misuse. -/
  code : Nat
  output : String
  errors : String
deriving DecidableEq, Repr

/-- How a failure is reported. -/
def Options.describe (o : Options) (failure : Failure) : String :=
  if o.jsonErrors then failure.diagnostic.json.render .compact ++ "\n"
  else "error: " ++ failure.diagnostic.render ++ "\n"

/-- What is printed instead of running a source text, if that was asked for. -/
def Options.listing? (o : Options) (source : String) : Option (Except Failure String) :=
  let tokens := Token.scan source
  if o.tokens then some (.ok ((Token.jsonList tokens).render .pretty ++ "\n"))
  else if o.program then
    match Statement.read tokens with
    | .ok program => some (.ok (Statement.renderProgram program))
    | .error error => some (.error (.malformed error))
  else none

/-- What is printed about the variables after a successful run. -/
def Options.epilogue (o : Options) (env : Environment) : String :=
  if o.dumpEnvironment then env.json.render .pretty ++ "\n" else ""

/-- The version as it is printed. -/
def versionText : String :=
  "sting 0.1.0\n"

/-- How the command is used. -/
def usageText : String :=
  "Run a Sting program.\n\n" ++
  "Usage: sting [OPTIONS] [FILE]\n\n" ++
  "Arguments:\n" ++
  "  [FILE]  Program file. Read from stdin when omitted\n\n" ++
  "Options:\n" ++
  "  -e, --eval <SOURCE>  Run the given source text instead of a file\n" ++
  "      --tokens         Print the token stream as JSON and exit\n" ++
  "      --ast            Print the parsed program in canonical form and exit\n" ++
  "      --dump-env       Print the final variables as JSON to stderr after a successful run\n" ++
  "      --json-errors    Report a failure on stderr as a single JSON object\n" ++
  "  -h, --help           Print help\n" ++
  "  -V, --version        Print version\n"

/-- The report of a failure after some output. -/
def Report.failed (o : Options) (output : String) (failure : Failure) : Report :=
  ⟨1, output, o.describe failure⟩

/-- The report of a run that is over. -/
def Report.ofMachine (o : Options) (m : Machine) : Report :=
  let output := m.session.console.output
  match m.failure? with
  | none => ⟨0, output, o.epilogue m.session.environment⟩
  | some failure => .failed o output failure

/-- The source text and the lines left to be typed. A program that is read from the input leaves
nothing of it. -/
def Options.load (o : Options) (files : String → Except String (List UInt8)) (input : List UInt8) :
    Except Failure (String × Console) :=
  let loaded : Except String (String × Console) :=
    match o.source, o.file with
    | some source, _ => .ok (source, .ofBytes input)
    | none, some path => do return (← decodeText (← files path), .ofBytes input)
    | none, none => do return (← decodeText input, .ofLines [])
  loaded.mapError .device

/-- Carries out options, with at most `fuel` steps of execution. -/
def Report.ofOptions (fuel : Nat) (o : Options) (files : String → Except String (List UInt8))
    (input : List UInt8) : Report :=
  match o.load files input with
  | .error failure => .failed o "" failure
  | .ok (source, console) =>
    match o.listing? source with
    | some (.ok text) => ⟨0, text, ""⟩
    | some (.error failure) => .failed o "" failure
    | none => .ofMachine o ((Machine.ofSource (.start .empty console) source).run fuel)

/-- Carries out a command line. -/
def Report.ofCommandLine (fuel : Nat) (args : List String)
    (files : String → Except String (List UInt8)) (input : List UInt8) : Report :=
  match Request.ofCommandLine args with
  | .help => ⟨0, usageText, ""⟩
  | .version => ⟨0, versionText, ""⟩
  | .misuse => ⟨2, "", usageText⟩
  | .start o => .ofOptions fuel o files input

end Command

end Sting
