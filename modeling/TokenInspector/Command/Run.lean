import TokenInspector.Command.Arguments
import TokenInspector.Command.Files
import TokenInspector.Command.Styled
import TokenInspector.Scan.Report
import TokenInspector.Scan.TokenFile

/-!
# Running a command

`Command.run` turns a command and the files that it reads into output, a list of pieces. A failure
names the file and has the problem of the file as its cause.
-/

namespace TokenInspector

/-- What a command reads a file for. -/
inductive FileRole where
  | definition
  | tokens
  | source
  deriving DecidableEq, Repr

def FileRole.name : FileRole → String
  | definition => "enum definition"
  | tokens => "tokens"
  | source => "source"

/-- Why a command fails. -/
inductive Failure where
  | unknownEnum (name : String)
  /-- No enum was chosen. -/
  | noEnum
  | unreadable (role : FileRole) (path : String) (cause : ReadFailure)
  | badDefinition (path : String) (cause : DefinitionError)
  | noMembers (path : String)
  | badTokens (path : String) (cause : Problem)
  deriving DecidableEq, Repr

def Failure.message : Failure → String
  | unknownEnum name =>
    let known := ", ".intercalate (BuiltIn.all.map BuiltIn.name)
    s!"unknown enum '{name}' (expected one of: {known})"
  | noEnum => "either --enum or --known is required"
  | unreadable role path _ => s!"failed to read {role.name} {path}"
  | badDefinition path _ => s!"failed to load enum definition {path}"
  | noMembers path => s!"enum definition {path} has no numeric members"
  | badTokens path _ => s!"failed to parse tokens {path}"

/-- What is said of the cause of a failure. -/
def Failure.cause? : Failure → Option String
  | unreadable _ _ cause => some cause.message
  | badDefinition _ cause => some cause.message
  | badTokens _ cause => some cause.description
  | unknownEnum _ | noEnum | noMembers _ => none

/-- The enum that a command works on. -/
structure ChosenEnum where
  name : String
  definition : EnumDefinition
  isFlags : Bool
  deriving DecidableEq, Repr

/-- Reads the file at a path for a purpose. -/
def readFor (read : FileReader) (role : FileRole) (path : String) : Except Failure String :=
  (read path).mapError (.unreadable role path)

/-- Reads a definition that has members. -/
def loadDefinition (read : FileReader) (path : String) : Except Failure EnumDefinition := do
  let text ← readFor read .definition path
  let definition ← (EnumDefinition.ofText text).mapError (.badDefinition path)
  if definition.isEmpty then throw (.noMembers path) else return definition

/-- The enum of a choice: a built-in one, or that of a file, named after the file. -/
def EnumChoice.load (choice : EnumChoice) (read : FileReader) : Except Failure ChosenEnum :=
  match choice.known, choice.file with
  | some name, _ =>
    match BuiltIn.find? name with
    | some known => .ok ⟨known.name, known.definition, known.isFlags⟩
    | none => .error (.unknownEnum name)
  | none, some path => do return ⟨Path.stem path, ← loadDefinition read path, false⟩
  | none, none => .error .noEnum

/-- Reads the results of a scan from a token file. -/
def loadResults (read : FileReader) (path : String) : Except Failure ScanResults := do
  let text ← readFor read .tokens path
  return (← (TokenFile.ofText text).mapError (.badTokens path)).results

/-- A text filled with blanks on the left. -/
def padded (width : Nat) (text : String) : String :=
  String.ofList (Piece.padLeft width text.toList)

/-- The name of an enum, and a line for each member by ascending value. -/
def ChosenEnum.pieces (chosen : ChosenEnum) : List Piece :=
  .styled .bold 0 chosen.name ::
  .plain (if chosen.isFlags then " (flags)\n" else " (enum)\n") ::
  chosen.definition.sorted.map fun member =>
    .plain (padded 12 (toString member.value.toInt) ++ "  " ++ member.name ++ "\n")

namespace Report

/-- The line of an error. -/
def errorPieces (error : ScanError) : List Piece :=
  [.plain "  ", .styled .red 0 error.message, .plain "\n"]

/-- A number filled with blanks on the right. -/
def leftAligned (width : Nat) (n : UInt32) : String :=
  String.ofList (Piece.padRight width (toString n.toNat).toList)

/-- The line of a row: its index, name, ends, and selection. -/
def rowPieces (row : ReportRow) (index : Nat) : List Piece :=
  let selection := row.selection
  [.plain (padded 4 (toString index) ++ "  "),
   .styled .cyan 32 row.name,
   .plain (" " ++ padded 5 (toString row.start.toNat) ++ ".." ++ leftAligned 5 row.stop ++ " " ++
     toString selection.startLine.toNat ++ ":" ++ toString selection.startColumn.toNat ++ "-" ++
     toString selection.endLine.toNat ++ ":" ++ toString selection.endColumn.toNat ++ "\n")]

/-- The title, the errors, and the rows. -/
def pieces (report : Report) : List Piece :=
  .styled .bold 0 report.title :: .plain "\n" ::
  (report.errors.flatMap errorPieces ++
    report.rows.zipIdx.flatMap fun (row, index) => rowPieces row index)

end Report

/-- Runs a command on the files that `read` gives. -/
def Command.run (command : Command) (read : FileReader) : Except Failure (List Piece) :=
  match command with
  | .format value source flags => do
    let chosen ← source.load read
    let shown := chosen.definition.display value (flags || chosen.isFlags)
    return [.plain (shown ++ "\n")]
  | .members source => do return (← source.load read).pieces
  | .tokens tokenPath sourcePath json => do
    let results ← loadResults read tokenPath
    let report := results.report (← readFor read .source sourcePath)
    return if json then [.plain (report.toJson.pretty ++ "\n")] else report.pieces

/-- The output of a command line; it has colour if `colour` is on and the command line agrees. -/
def CommandLine.run (line : CommandLine) (read : FileReader) (colour : Bool) :
    Except Failure String := do
  return renderPieces (colour && !line.noColor) (← line.command.run read)

end TokenInspector
