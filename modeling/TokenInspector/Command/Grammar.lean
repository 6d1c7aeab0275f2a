import TokenInspector.Command.Literal

/-!
# The options of the command line

The program has three commands, each with options of its own. Some options belong to the program
and may stand before the command or after it. This module says which options there are, how they
are spelled, and where they are known; `Command.Arguments` reads them.
-/

namespace TokenInspector

/-- The options of the program and its commands. -/
inductive Opt where
  | noColor
  | help
  | version
  | enumFile
  | known
  | flags
  | tokens
  | source
  | json
  deriving DecidableEq, Repr

namespace Opt

/-- How an option is written after two hyphens. -/
def spellings : Opt → List String
  | noColor => ["noColor", "no-color"]
  | help => ["help"]
  | version => ["version"]
  | enumFile => ["enum"]
  | known => ["known"]
  | flags => ["flags"]
  | tokens => ["tokens"]
  | source => ["source"]
  | json => ["json"]

/-- How an option is written after one hyphen. -/
def letter? : Opt → Option Char
  | help => some 'h'
  | version => some 'V'
  | _ => none

/-- Options that name a file; the name may not be empty. -/
def isPath : Opt → Bool
  | enumFile | tokens | source => true
  | _ => false

/-- Options that are followed by a value. -/
def takesValue : Opt → Bool
  | enumFile | known | tokens | source => true
  | noColor | help | version | flags | json => false

end Opt

/-- The commands. -/
inductive Verb where
  | format
  | members
  | tokens
  deriving DecidableEq, Repr

namespace Verb

def all : List Verb := [format, members, tokens]

def name : Verb → String
  | format => "format"
  | members => "members"
  | tokens => "tokens"

def ofName? (name : String) : Option Verb := all.find? (·.name = name)

end Verb

/-- The word that asks for help in the place of a command. -/
def helpWord : String := "help"

/-- Where arguments stand: before the command, or after it. -/
inductive Scope where
  | program
  | command (verb : Verb)
  deriving DecidableEq, Repr

namespace Scope

/-- The options known in a place. -/
def options : Scope → List Opt
  | program => [.noColor, .help, .version]
  | command .format => [.noColor, .help, .enumFile, .known, .flags]
  | command .members => [.noColor, .help, .enumFile, .known]
  | command .tokens => [.noColor, .help, .tokens, .source, .json]

/-- One argument that is no option is an integer literal. -/
def takesLiteral : Scope → Bool
  | command .format => true
  | _ => false

/-- The option written after two hyphens. -/
def long? (scope : Scope) (name : String) : Option Opt :=
  scope.options.find? fun opt => opt.spellings.contains name

/-- The option written as a letter after one hyphen. -/
def short? (scope : Scope) (letter : Char) : Option Opt :=
  scope.options.find? fun opt => opt.letter? = some letter

end Scope

/-- The form of an argument. -/
inductive ArgumentForm where
  /-- Two hyphens alone: no options after this. -/
  | escape
  /-- Two hyphens and a name, and a value after an equals sign. -/
  | long (name : String) (attached : Option String)
  /-- One hyphen and letters. -/
  | letters (letters : List Char)
  | word
  deriving DecidableEq, Repr

/-- The form of an argument. -/
def ArgumentForm.of (argument : String) : ArgumentForm :=
  match argument.toList with
  | ['-', '-'] => escape
  | '-' :: '-' :: body =>
    let name := String.ofList (body.takeWhile (· ≠ '='))
    match body.dropWhile (· ≠ '=') with
    | [] => long name none
    | _ :: attached => long name (some (String.ofList attached))
  | '-' :: c :: rest => letters (c :: rest)
  | _ => word

/-- What is said about arguments that are not run as a command. -/
inductive Usage where
  /-- An argument that nothing takes. -/
  | unknownArgument (argument : String)
  /-- A word in the place of the command that is no command. -/
  | unknownCommand (word : String)
  /-- An option twice, or two options that exclude each other. -/
  | conflict
  /-- An option without its value, or an empty file name. -/
  | missingValue (opt : Opt)
  /-- A value for an option that takes none. -/
  | unneededValue (opt : Opt)
  | badLiteral (text : String) (problem : LiteralProblem)
  /-- Something that the command needs was not given. -/
  | missingArgument
  /-- Options, but no command. -/
  | missingCommand
  /-- No arguments at all. -/
  | nothingGiven
  /-- Help was asked for. -/
  | help (scope : Scope)
  /-- The version was asked for. -/
  | version
  deriving DecidableEq, Repr

end TokenInspector
