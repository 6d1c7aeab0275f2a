/-!
# Files

Commands read files through a function from paths to texts. A `Snapshot` is the content of the
working directory as a value; `Snapshot.read` looks a path up in it as a file system would. Of what
is outside the working directory a snapshot only knows that there are directories on the way up.
-/

namespace TokenInspector

/-- Why a file cannot be read as text. -/
inductive ReadFailure where
  | notFound
  | isDirectory
  /-- A name in the middle of the path, or before a final slash, is a file. -/
  | notDirectory
  /-- The path has a null character. -/
  | nullInPath
  /-- The path, or a name in it, has too many bytes. -/
  | nameTooLong
  /-- The content is not UTF-8. -/
  | invalidText
  deriving DecidableEq, Repr

def ReadFailure.message : ReadFailure → String
  | notFound => "No such file or directory"
  | isDirectory => "Is a directory"
  | notDirectory => "Not a directory"
  | nullInPath => "file name contained an unexpected NUL byte"
  | nameTooLong => "File name too long"
  | invalidText => "stream did not contain valid UTF-8"

/-- Reads the text of the file at a path. -/
abbrev FileReader := String → Except ReadFailure String

/-- The text that bytes encode. -/
def decodeText (bytes : ByteArray) : Except ReadFailure String :=
  match String.fromUTF8? bytes with
  | some text => .ok text
  | none => .error .invalidText

namespace Path

/-- The names of a path, with an empty name for each slash that no name follows. -/
def names (path : String) : List String :=
  (path.toList.splitOn '/').map String.ofList

/-- The part of a file name before its last dot; a dot at the start does not count. -/
def stemOfName (name : List Char) : List Char :=
  match (name.reverse.dropWhile (· ≠ '.')).tail.reverse with
  | [] => name
  | stem => stem

/-- The last name of a path without its extension; nothing if the path ends in no name. -/
def stem (path : String) : String :=
  match ((names path).filter fun name => name ≠ "" && name ≠ ".").getLast? with
  | none => ""
  | some name => if name = ".." then "" else String.ofList (stemOfName name.toList)

/-- The largest number of bytes of a path. -/
def maxBytes : Nat := 4095

/-- The largest number of bytes of a name. -/
def maxNameBytes : Nat := 255

/-- Paths that begin with a slash do not begin at the working directory. -/
def isAbsolute (path : String) : Bool := path.toList.head? = some '/'

end Path

/-- A file or directory. -/
inductive Entry where
  | file (content : ByteArray)
  | directory

/-- Where a path has led: into the working directory, by the names from there, or out of it. -/
inductive Place where
  | inside (names : List String)
  | outside
  deriving DecidableEq, Repr

namespace Place

/-- The directory that a place is in; the working directory is in a directory outside. -/
def parent : Place → Place
  | inside names => if names.isEmpty then outside else inside names.dropLast
  | outside => outside

/-- Follows one name from a directory: an empty name and a dot stay, two dots go up. Outside the
working directory no name is known. -/
def follow (here : Place) (name : String) : Except ReadFailure Place :=
  if name = "" || name = "." then .ok here
  else if name = ".." then .ok here.parent
  else if Path.maxNameBytes < name.utf8ByteSize then .error .nameTooLong
  else
    match here with
    | inside names => .ok (inside (names ++ [name]))
    | outside => .error .notFound

end Place

/-- The content of the working directory: entries by path. The directories on the way to an entry
are there too. -/
structure Snapshot where
  entries : List (List String × Entry)

namespace Snapshot

/-- What stands at a place; `none` if nothing does. -/
def entry? (snapshot : Snapshot) : Place → Option Entry
  | .outside | .inside [] => some .directory
  | .inside names =>
    match snapshot.entries.lookup names with
    | some entry => some entry
    | none => if snapshot.entries.any (names.isPrefixOf ·.1) then some .directory else none

/-- Follows names from a place; all but the last have to lead to directories. -/
def walk (snapshot : Snapshot) (here : Place) : List String → Except ReadFailure ByteArray
  | [] =>
    match snapshot.entry? here with
    | none => .error .notFound
    | some (.file content) => .ok content
    | some .directory => .error .isDirectory
  | name :: rest =>
    match snapshot.entry? here with
    | none => .error .notFound
    | some (.file _) => .error .notDirectory
    | some .directory => do walk snapshot (← here.follow name) rest

/-- Reads a file of the snapshot; the path itself is checked before it is followed. -/
def read (snapshot : Snapshot) : FileReader := fun path => do
  if path.toList.contains '\x00' then throw .nullInPath
  if Path.maxBytes < path.utf8ByteSize then throw .nameTooLong
  let start := if Path.isAbsolute path then Place.outside else Place.inside []
  decodeText (← snapshot.walk start (Path.names path))

end Snapshot

end TokenInspector
