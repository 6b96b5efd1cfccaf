/-!
# Options of the command line

The arguments are taken from left to right, and the first one that does not fit ends the reading.
A request for help or the version is answered as soon as it is met; whether the options go together
is asked only at the end.
-/

namespace Sting.Command

/-- What the arguments ask for. -/
structure Options where
  /-- The program file. -/
  file : Option String
  /-- The program text given as an argument. -/
  source : Option String
  /-- Print the tokens instead of running. -/
  tokens : Bool
  /-- Print the program instead of running. -/
  program : Bool
  /-- Print the variables after a successful run. -/
  dumpEnvironment : Bool
  /-- Report a failure as JSON. -/
  jsonErrors : Bool
deriving DecidableEq, Repr

/-- What is to be done. -/
inductive Request where
  | help
  | version
  /-- The arguments do not fit. -/
  | misuse
  | start (options : Options)
deriving DecidableEq, Repr

namespace Options

/-- No arguments. -/
def unset : Options :=
  ⟨none, none, false, false, false, false⟩

/-- Takes the program text, once. -/
def giveSource (o : Options) (text : String) : Option Options :=
  if o.source.isSome then none else some { o with source := some text }

/-- Takes the program file, once; its name is not empty. -/
def giveFile (o : Options) (path : String) : Option Options :=
  if o.file.isSome || path.isEmpty then none else some { o with file := some path }

/-- Sets a flag, once. -/
def giveFlag (o : Options) : String → Option Options
  | "tokens" => if o.tokens then none else some { o with tokens := true }
  | "ast" => if o.program then none else some { o with program := true }
  | "dump-env" => if o.dumpEnvironment then none else some { o with dumpEnvironment := true }
  | "json-errors" => if o.jsonErrors then none else some { o with jsonErrors := true }
  | _ => none

/-- The options go together: one kind of output, and one source. -/
def isConsistent (o : Options) : Bool :=
  !(o.tokens && o.program) && !(o.source.isSome && o.file.isSome)

end Options

/-- How an argument is written. -/
inductive Argument where
  /-- Two dashes alone: everything behind is a file. -/
  | endOfOptions
  /-- Two dashes and a name, with the value behind an equals sign. -/
  | long (name : String) (value : Option String)
  /-- One dash and letters. -/
  | short (letter : Char) (rest : List Char)
  /-- Anything else; a single dash is a plain argument. -/
  | plain (text : String)
deriving DecidableEq, Repr

namespace Argument

/-- The form of an argument. -/
def ofString (text : String) : Argument :=
  match text.toList with
  | ['-', '-'] => .endOfOptions
  | '-' :: '-' :: rest =>
    let name := String.ofList (rest.takeWhile (· != '='))
    match rest.dropWhile (· != '=') with
    | [] => .long name none
    | _ :: value => .long name (some (String.ofList value))
  | '-' :: letter :: rest => .short letter rest
  | _ => .plain text

end Argument

/-- What an argument leads to. -/
inductive Step where
  /-- The reading goes on with these options. -/
  | next (options : Options)
  /-- The next argument is the program text. -/
  | awaitSource
  /-- Only files are left. -/
  | onlyFiles
  /-- The reading is over. -/
  | done (request : Request)
deriving DecidableEq, Repr

namespace Step

/-- Goes on if the options could take the argument. -/
def ofOptions? : Option Options → Step
  | some o => .next o
  | none => .done .misuse

/-- What an option or a file leads to. A short option takes the rest of its argument as its value,
with or without an equals sign in front. -/
def ofArgument (o : Options) : Argument → Step
  | .endOfOptions => .onlyFiles
  | .long "help" none | .short 'h' _ => .done .help
  | .long "version" none | .short 'V' _ => .done .version
  | .long "eval" none | .short 'e' [] => .awaitSource
  | .long "eval" (some text) => ofOptions? (o.giveSource text)
  | .short 'e' ('=' :: text) => ofOptions? (o.giveSource (String.ofList text))
  | .short 'e' text => ofOptions? (o.giveSource (String.ofList text))
  | .long name none => ofOptions? (o.giveFlag name)
  | .long _ (some _) | .short _ _ => .done .misuse
  | .plain path => ofOptions? (o.giveFile path)

end Step

namespace Request

/-- The request of arguments that have all been taken. -/
def ofOptions (o : Options) : Request :=
  if o.isConsistent then .start o else .misuse

/-- Takes arguments that are all files. -/
def ofFiles (o : Options) : List String → Request
  | [] => ofOptions o
  | path :: rest =>
    match o.giveFile path with
    | some o => ofFiles o rest
    | none => .misuse

/-- Takes arguments from left to right. While the program text is awaited, only a plain argument
fits. -/
def ofArguments (o : Options) (awaiting : Bool) : List String → Request
  | [] => if awaiting then .misuse else ofOptions o
  | text :: rest =>
    let step : Step :=
      match awaiting, Argument.ofString text with
      | true, .plain source => .ofOptions? (o.giveSource source)
      | true, _ => .done .misuse
      | false, argument => .ofArgument o argument
    match step with
    | .next o => ofArguments o false rest
    | .awaitSource => ofArguments o true rest
    | .onlyFiles => ofFiles o rest
    | .done request => request

/-- The request of a command line. -/
def ofCommandLine (args : List String) : Request :=
  ofArguments .unset false args

end Request

end Sting.Command
