import TokenInspector.Command.Grammar

/-!
# Reading the command line

Arguments are read from left to right. An option or literal that was met is checked when the next
one is met, or at the end, so of two faults the one that shows first in this order counts: an
argument that nothing takes is refused at once, a value is checked one step later, and what is
missing or excluded is found at the end.
-/

namespace TokenInspector

/-- Where the members of an enum come from, as the options say. The command line gives exactly one
of the two. -/
structure EnumChoice where
  file : Option String
  known : Option String
  deriving DecidableEq, Repr

/-- A command with its arguments. -/
inductive Command where
  | format (value : Int64) (source : EnumChoice) (flags : Bool)
  | members (source : EnumChoice)
  | tokens (tokens source : String) (json : Bool)
  deriving DecidableEq, Repr

/-- A command line. -/
structure CommandLine where
  noColor : Bool
  command : Command
  deriving DecidableEq, Repr

/-- What was met last and is not checked yet. -/
inductive Pending where
  | nothing
  /-- An option that takes a value, and the value once it was met. -/
  | option (opt : Opt) (value : Option String)
  | literal (text : String)
  deriving DecidableEq, Repr

/-- The arguments read so far. -/
structure Progress where
  options : List (Opt × String)
  literal : Option Int64
  pending : Pending
  deriving DecidableEq, Repr

namespace Progress

def start : Progress := ⟨[], none, .nothing⟩

def has (progress : Progress) (opt : Opt) : Bool := (progress.options.lookup opt).isSome

/-- Adds an option and its value. -/
def store (progress : Progress) (opt : Opt) (value : String) : Except Usage Progress :=
  if progress.has opt then .error .conflict
  else if opt.isPath && value = "" then .error (.missingValue opt)
  else .ok { progress with options := (opt, value) :: progress.options }

/-- Checks what is pending. -/
def settle (progress : Progress) : Except Usage Progress :=
  match progress.pending with
  | .nothing => .ok progress
  | .option opt none => .error (.missingValue opt)
  | .option opt (some value) => { progress with pending := .nothing }.store opt value
  | .literal text =>
    match Literal.ofText text with
    | .ok value => .ok { progress with literal := some value, pending := .nothing }
    | .error problem => .error (.badLiteral text problem)

/-- The literal is still to come. -/
def awaitsLiteral (progress : Progress) (scope : Scope) : Bool :=
  scope.takesLiteral && progress.literal.isNone &&
    match progress.pending with
    | .literal _ => false
    | _ => true

/-- An argument in the place of a command or literal that cannot stand there. After two hyphens, a
command is refused as an argument and not as a command. -/
def refuse (scope : Scope) (escaped : Bool) (argument : String) : Usage :=
  match scope with
  | .command _ => .unknownArgument argument
  | .program =>
    if escaped && ((Verb.ofName? argument).isSome || argument = helpWord) then
      .unknownArgument argument
    else .unknownCommand argument

/-- Takes an argument as the literal. -/
def place (progress : Progress) (scope : Scope) (escaped : Bool) (argument : String) :
    Except Usage Progress :=
  if progress.awaitsLiteral scope then do
    return { ← progress.settle with pending := .literal argument }
  else .error (refuse scope escaped argument)

/-- Takes an argument as the value of the option before it, or else as the literal. -/
def takeWord (progress : Progress) (scope : Scope) (argument : String) : Except Usage Progress :=
  match progress.pending with
  | .option opt none => .ok { progress with pending := .option opt (some argument) }
  | _ => progress.place scope false argument

/-- Takes an option that stands alone. -/
def takeFlag (progress : Progress) (scope : Scope) (opt : Opt) : Except Usage Progress := do
  let progress ← progress.settle
  match opt with
  | .help => throw (.help scope)
  | .version => throw .version
  | opt => progress.store opt ""

/-- Takes an option written in full. -/
def takeLong (progress : Progress) (scope : Scope) (opt : Opt) (attached : Option String) :
    Except Usage Progress :=
  match opt.takesValue, attached with
  | true, some value => do (← progress.settle).store opt value
  | true, none => do return { ← progress.settle with pending := .option opt none }
  | false, some _ => .error (.unneededValue opt)
  | false, none => progress.takeFlag scope opt

/-- Takes an argument. Where a literal is still to come, what looks like an option and is none may
be the literal, or the value of the option before it. -/
def take (progress : Progress) (scope : Scope) (argument : String) : Except Usage Progress :=
  match ArgumentForm.of argument with
  | .long name attached =>
    match scope.long? name with
    | some opt => progress.takeLong scope opt attached
    | none =>
      if progress.awaitsLiteral scope then progress.takeWord scope argument
      else .error (.unknownArgument argument)
  | .letters letters =>
    if progress.awaitsLiteral scope && letters.any (fun c => (scope.short? c).isNone) then
      progress.takeWord scope argument
    else
      match letters.head?.bind scope.short? with
      | some opt => progress.takeFlag scope opt
      | none => .error (.unknownArgument argument)
  | .word | .escape => progress.takeWord scope argument

/-- Takes the arguments of a command; after two hyphens alone there are no options. -/
def takeAll (progress : Progress) (scope : Scope) (escaped : Bool) :
    List String → Except Usage Progress
  | [] => progress.settle
  | argument :: rest => do
    if escaped then takeAll (← progress.place scope true argument) scope true rest
    else if ArgumentForm.of argument = .escape then takeAll progress scope true rest
    else takeAll (← progress.take scope argument) scope false rest

/-- The enum that the options choose: exactly one of file and name. -/
def enumChoice (progress : Progress) : Except Usage EnumChoice :=
  match progress.options.lookup .enumFile, progress.options.lookup .known with
  | some _, some _ => .error .conflict
  | none, none => .error .missingArgument
  | file, known => .ok ⟨file, known⟩

/-- The command that complete arguments give. -/
def command (progress : Progress) : Verb → Except Usage Command
  | .format => do
    let source ← progress.enumChoice
    match progress.literal with
    | some value => return .format value source (progress.has .flags)
    | none => throw .missingArgument
  | .members => do return .members (← progress.enumChoice)
  | .tokens =>
    match progress.options.lookup .tokens, progress.options.lookup .source with
    | some tokens, some source => .ok (.tokens tokens source (progress.has .json))
    | _, _ => .error .missingArgument

end Progress

namespace CommandLine

/-- What is said about the words after the word that asks for help: at most one, a command. -/
def helpFor : List String → Usage
  | [] => .help .program
  | [word] =>
    match Verb.ofName? word with
    | some verb => .help (.command verb)
    | none => if word = helpWord then .help .program else .unknownCommand word
  | word :: next :: _ =>
    if (Verb.ofName? word).isSome || word = helpWord then .unknownCommand next
    else .unknownCommand word

/-- Reads the arguments after a command. -/
def ofCommand (before : Progress) (verb : Verb) (arguments : List String) :
    Except Usage CommandLine := do
  let progress ← Progress.start.takeAll (.command verb) false arguments
  return ⟨before.has .noColor || progress.has .noColor, ← progress.command verb⟩

/-- Reads arguments up to the command, and the command. -/
def ofProgress (before : Progress) (escaped : Bool) : List String → Except Usage CommandLine
  | [] => .error (if before.options.isEmpty then .nothingGiven else .missingCommand)
  | argument :: rest =>
    if escaped then .error (Progress.refuse .program true argument)
    else
      match Verb.ofName? argument with
      | some verb => ofCommand before verb rest
      | none =>
        if argument = helpWord then .error (helpFor rest)
        else if ArgumentForm.of argument = .escape then ofProgress before true rest
        else do ofProgress (← before.take .program argument) false rest

/-- Reads the arguments of the program. -/
def ofArguments (arguments : List String) : Except Usage CommandLine :=
  ofProgress .start false arguments

end CommandLine

end TokenInspector
