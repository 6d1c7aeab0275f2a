import TokenInspector.Command.Program

/-!
# The command-line program

Reads the files that the command names, hands them to `Program.outcome`, and prints the outcome.
-/

namespace TokenInspector

/-- Reads a file of the file system. -/
def readFile (path : String) : IO (Except ReadFailure String) := do
  try
    return decodeText (← IO.FS.readBinFile path)
  catch
    | .inappropriateType .. => return .error .isDirectory
    | .noFileOrDirectory .. => return .error .notFound
    | .invalidArgument .. => return .error .nameTooLong
    | _ => return .error .notDirectory

/-- Reads files into a table by path. -/
def readFiles (paths : List String) : IO (List (String × Except ReadFailure String)) :=
  paths.mapM fun path => do return (path, ← readFile path)

/-- The variables that decide about colour. -/
def colourVariables : IO (List (String × Option String)) :=
  ["CLICOLOR_FORCE", "NO_COLOR", "CLICOLOR"].mapM fun name => do return (name, ← IO.getEnv name)

end TokenInspector

open TokenInspector in
def main (arguments : List String) : IO UInt32 := do
  let paths := match CommandLine.ofArguments arguments with
    | .ok line => line.command.paths
    | .error _ => []
  let files ← readFiles paths
  let colours ← colourVariables
  let terminal ← (← IO.getStdout).isTty
  let outcome := Program.outcome arguments
    (fun path => (files.lookup path).getD (.error .notFound))
    (fun name => (colours.lookup name).join) terminal
  IO.print outcome.stdout
  IO.eprint outcome.stderr
  return outcome.code
