/-!
# Arguments of the command line

The four commands with their options.  The option that names a configuration
may stand before or behind the command; behind it, it counts more.  An option
is given at most once at each of the two places, and its value follows it or
stands behind an equals sign.
-/

namespace Workflow.CommandLine

inductive Command where
  | check (file : String) (json : Bool)
  | compile (file : String) (output : Option String)
  | tools (file : String)
  | format (file : String)
  deriving DecidableEq, Repr

/-- A command with the configuration it names. -/
structure Invocation where
  config : Option String
  command : Command
  deriving DecidableEq, Repr

inductive Request where
  | run (invocation : Invocation)
  | version
  | help
  deriving DecidableEq, Repr

/-- Why arguments are not understood. -/
inductive UsageError where
  | noCommand
  | unknownCommand (name : String)
  | unexpected (argument : String)
  | repeated (option : String)
  | noValue (option : String)
  | noFile
  deriving DecidableEq, Repr

def UsageError.message : UsageError → String
  | .noCommand => "a command is required: check, compile, tools or fmt"
  | .unknownCommand name => "unrecognized command '" ++ name ++ "'"
  | .unexpected argument => "unexpected argument '" ++ argument ++ "'"
  | .repeated option =>
      "the option '" ++ option ++ "' cannot be used multiple times"
  | .noValue option => "a value is required for '" ++ option ++ "'"
  | .noFile => "a workflow document is required"

inductive CommandName where
  | check
  | compile
  | tools
  | format
  deriving DecidableEq, Repr

def CommandName.ofText? : String → Option CommandName
  | "check" => some .check
  | "compile" => some .compile
  | "tools" => some .tools
  | "fmt" => some .format
  | _ => none

/-- What has been read behind a command. -/
structure Gathered where
  config : Option String := none
  file : Option String := none
  output : Option String := none
  json : Bool := false

inductive ValueOption where
  | config
  | output
  deriving DecidableEq, Repr

/-- How an option is called in messages. -/
def ValueOption.text : ValueOption → String
  | .config => "--config"
  | .output => "--output"

/-- Whether a text starts like an option. -/
def isOption (argument : String) : Bool :=
  argument.startsWith "-" && argument != "-"

/-- What stands behind a given start of a text. -/
def behind? (start argument : String) : Option String :=
  if start.toList.isPrefixOf argument.toList then
    some (String.ofList (argument.toList.drop start.length))
  else none

/-- An argument that is an option with a value, and the value if it is part of
the argument. -/
def valueOption? (commandName : Option CommandName) (argument : String) :
    Option (ValueOption × Option String) :=
  if argument = "--config" then some (.config, none)
  else
    match behind? "--config=" argument with
    | some value => some (.config, some value)
    | none =>
        if commandName = some .compile then
          if argument = "--output" || argument = "-o" then some (.output, none)
          else
            ((behind? "--output=" argument <|> behind? "-o=" argument <|>
                behind? "-o" argument).map fun value => (.output, some value))
        else none

/-- Sets an option that has no value yet, to a value that is not empty. -/
def setOption (option : ValueOption) (value : String) (gathered : Gathered) :
    Except UsageError Gathered :=
  if value = "" then .error (.noValue option.text)
  else
    match option with
    | .config =>
        if gathered.config.isSome then .error (.repeated option.text)
        else .ok { gathered with config := some value }
    | .output =>
        if gathered.output.isSome then .error (.repeated option.text)
        else .ok { gathered with output := some value }

/-- Sets the file, which is given once. -/
def setFile (argument : String) (gathered : Gathered) :
    Except UsageError Gathered :=
  if gathered.file.isSome then .error (.unexpected argument)
  else if argument = "" then .error .noFile
  else .ok { gathered with file := some argument }

/-- The command of what has been gathered. -/
def finish (name : CommandName) (gathered : Gathered) :
    Except UsageError Request :=
  match gathered.file with
  | none => .error .noFile
  | some file =>
      .ok (.run ⟨gathered.config,
        match name with
        | .check => .check file gathered.json
        | .compile => .compile file gathered.output
        | .tools => .tools file
        | .format => .format file⟩)

/-- Reads arguments of which none is an option. -/
def readPlain (name : CommandName) (gathered : Gathered) :
    List String → Except UsageError Request
  | [] => finish name gathered
  | argument :: rest => do readPlain name (← setFile argument gathered) rest

/-- Reads the arguments behind a command. -/
def readCommand (name : CommandName) (gathered : Gathered) :
    List String → Except UsageError Request
  | [] => finish name gathered
  | argument :: rest =>
      match valueOption? (some name) argument with
      | some (option, some value) => do
          readCommand name (← setOption option value gathered) rest
      | some (option, none) =>
          match rest with
          | value :: later =>
              if isOption value then .error (.noValue option.text)
              else do
                readCommand name (← setOption option value gathered) later
          | [] => .error (.noValue option.text)
      | none =>
          if argument = "--" then readPlain name gathered rest
          else if argument = "--help" || argument.startsWith "-h" then
            .ok .help
          else if argument = "--json" && name = .check then
            if gathered.json then .error (.repeated argument)
            else readCommand name { gathered with json := true } rest
          else if isOption argument then .error (.unexpected argument)
          else do readCommand name (← setFile argument gathered) rest

/-- Fills in the configuration that was named before the command. -/
def Request.withConfig (config : Option String) : Request → Request
  | .run invocation =>
      .run { invocation with config := invocation.config <|> config }
  | other => other

/-- Reads the arguments up to the command; `gathered` holds the option that may
stand there. -/
def readTop (gathered : Gathered) : List String → Except UsageError Request
  | [] => .error .noCommand
  | argument :: rest =>
      match valueOption? none argument with
      | some (option, some value) => do
          readTop (← setOption option value gathered) rest
      | some (option, none) =>
          match rest with
          | value :: later =>
              if isOption value then .error (.noValue option.text)
              else do readTop (← setOption option value gathered) later
          | [] => .error (.noValue option.text)
      | none =>
          if argument = "--version" || argument.startsWith "-V" then
            .ok .version
          else if argument = "--help" || argument = "help" ||
            argument.startsWith "-h" then
            .ok .help
          else if isOption argument then .error (.unexpected argument)
          else
            match CommandName.ofText? argument with
            | some name => do
                let request ← readCommand name {} rest
                return request.withConfig gathered.config
            | none => .error (.unknownCommand argument)

def parse (arguments : List String) : Except UsageError Request :=
  readTop {} arguments

end Workflow.CommandLine
