import TokenInspector.Command.Run

/-!
# The program as a whole

`Program.outcome` says what the program prints and which exit code it gives, for arguments, files
and environment: 0 for output, help and version, 1 for a command that failed, 2 for arguments that
could not be used.
-/

namespace TokenInspector

/-- What the program leaves behind. -/
structure Outcome where
  code : UInt32
  stdout : String
  stderr : String
  deriving DecidableEq, Repr

namespace Program

def name : String := "scanview"

def version : String := "0.1.0"

/-- The options that every place knows. -/
def commonHelp : String :=
  "      --noColor  Disable colored output\n  -h, --help     Print help\n"

/-- The options that choose an enum. -/
def choiceHelp : String := "      --enum <FILE>\n      --known <NAME>\n"

/-- The help text of a place. -/
def helpText : Scope → String
  | .program =>
    "Name TypeScript scanner enum values and inspect token lists\n\n" ++
    s!"Usage: {name} [OPTIONS] <COMMAND>\n\n" ++
    "Commands:\n" ++
    "  format   Format a numeric value as enum member names\n" ++
    "  members  List the members of an enum, sorted by value\n" ++
    "  tokens   Render a token list reported by a scanner\n" ++
    "  help     Print this message or the help of the given subcommand(s)\n\n" ++
    "Options:\n" ++ commonHelp ++ "  -V, --version  Print version\n"
  | .command .format =>
    "Format a numeric value as enum member names\n\n" ++
    s!"Usage: {name} format [OPTIONS] <--enum <FILE>|--known <NAME>> <VALUE>\n\n" ++
    "Arguments:\n" ++
    "  <VALUE>  Value to format. Accepts decimal, 0x hex and 0b binary\n\n" ++
    "Options:\n" ++ choiceHelp ++
    "      --flags    Decompose the value into flags\n" ++ commonHelp
  | .command .members =>
    "List the members of an enum, sorted by value\n\n" ++
    s!"Usage: {name} members [OPTIONS] <--enum <FILE>|--known <NAME>>\n\n" ++
    "Options:\n" ++ choiceHelp ++ commonHelp
  | .command .tokens =>
    "Render a token list reported by a scanner\n\n" ++
    s!"Usage: {name} tokens [OPTIONS] --tokens <FILE> --source <FILE>\n\n" ++
    "Options:\n" ++
    "      --tokens <FILE>\n      --source <FILE>\n" ++
    "      --json     Print the report as JSON\n" ++ commonHelp

/-- The spelling of an option in messages. -/
def optionText (opt : Opt) : String := "--" ++ opt.spellings.headD ""

/-- What is wrong with the arguments. -/
def usageMessage : Usage → String
  | .unknownArgument argument => s!"unexpected argument '{argument}' found"
  | .unknownCommand word => s!"unrecognized subcommand '{word}'"
  | .conflict => "an argument cannot be used multiple times or with another"
  | .missingValue opt => s!"a value is required for '{optionText opt}' but none was supplied"
  | .unneededValue opt => s!"unexpected value for '{optionText opt}' found; no more were expected"
  | .badLiteral text problem => problem.describe text
  | .missingArgument => "required arguments were not provided"
  | .missingCommand => "a subcommand is required but one was not provided"
  | .nothingGiven | .help _ | .version => ""

/-- The outcome of arguments that are not run as a command. -/
def usageOutcome : Usage → Outcome
  | .help scope => ⟨0, helpText scope, ""⟩
  | .version => ⟨0, s!"{name} {version}\n", ""⟩
  | .nothingGiven => ⟨2, "", helpText .program⟩
  | usage => ⟨2, "", s!"error: {usageMessage usage}\n"⟩

/-- What is printed for a command that failed. -/
def failureText (failure : Failure) : String :=
  match failure.cause? with
  | some cause => s!"Error: {failure.message}\n\nCaused by:\n    {cause}\n"
  | none => s!"Error: {failure.message}\n"

/-- A variable asks for something unless it is unset or set to zero. -/
def asksFor (setting : Option String) : Bool := setting.any (· ≠ "0")

/-- Output has colour if that is forced, or else on a terminal unless it is unwanted. -/
def wantsColour (environment : String → Option String) (terminal : Bool) : Bool :=
  if asksFor (environment "CLICOLOR_FORCE") then true
  else if (environment "NO_COLOR").isSome then false
  else terminal && (environment "CLICOLOR").all (· ≠ "0")

/-- What a command line leaves behind. -/
def lineOutcome (line : CommandLine) (read : FileReader) (colour : Bool) : Outcome :=
  match line.run read colour with
  | .ok output => ⟨0, output, ""⟩
  | .error failure => ⟨1, "", failureText failure⟩

/-- What the program leaves behind. -/
def outcome (arguments : List String) (read : FileReader)
    (environment : String → Option String) (terminal : Bool) : Outcome :=
  match CommandLine.ofArguments arguments with
  | .ok line => lineOutcome line read (wantsColour environment terminal)
  | .error usage => usageOutcome usage

end Program

/-- The paths of the files that a command reads. -/
def Command.paths : Command → List String
  | .format _ source _ | .members source => source.file.toList
  | .tokens tokenPath sourcePath _ => [tokenPath, sourcePath]

end TokenInspector
