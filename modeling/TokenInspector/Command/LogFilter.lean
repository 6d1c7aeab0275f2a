import TokenInspector.Ordering

/-!
# Log filters

A directive says up to which level log lines are written, for one target or for all. A `LogFilter`
holds directives in the order in which they are tried: the longer the target, the earlier, and a
directive for all targets last. `LogFilter.ofText` reads directives between commas and leaves out
what is none; of two directives for one target the later counts.
-/

namespace TokenInspector

/-- How much is logged. -/
inductive LogLevel where
  | off
  | error
  | warn
  | info
  | debug
  | trace
  deriving DecidableEq, Repr

namespace LogLevel

/-- The levels, from nothing to everything. -/
def all : List LogLevel := [off, error, warn, info, debug, trace]

def name : LogLevel → String
  | off => "off"
  | error => "error"
  | warn => "warn"
  | info => "info"
  | debug => "debug"
  | trace => "trace"

/-- A number in decimal digits, a plus sign in front allowed. -/
def number? (text : List Char) : Option Nat :=
  let digits := match text with
    | '+' :: digits => digits
    | digits => digits
  if digits.isEmpty || !digits.all Char.isDigit then none
  else some (digits.foldl (fun n c => n * 10 + (c.toNat - '0'.toNat)) 0)

/-- The level that a text names, in any case, or counts from zero. -/
def ofText? (text : String) : Option LogLevel :=
  match (number? text.toList).bind (all[·]?) with
  | some level => some level
  | none => all.find? fun level => level.name.toList = text.toList.map Char.toLower

end LogLevel

/-- A level for a target, or for all targets. -/
structure LogDirective where
  target : Option String
  level : LogLevel
  deriving DecidableEq, Repr

namespace LogDirective

/-- A directive does not begin with a blank, nor with an ASCII mark other than these three. -/
def isStart (c : Char) : Bool :=
  c.isAlphanum || c = '-' || c = ':' || c = '_' || 0x80 ≤ c.toNat

/-- The level after an equals sign; if nothing is written there, everything is logged. -/
def levelAfter? (text : List Char) : Option LogLevel :=
  if text.isEmpty then some .trace else LogLevel.ofText? (String.ofList text)

/-- A word without an equals sign: a level for all targets, or else a target of which everything is
logged. -/
def ofWord (word : String) : LogDirective :=
  match LogLevel.ofText? word with
  | some level => ⟨none, level⟩
  | none => ⟨some word, .trace⟩

/-- Reads a directive: a word, or a target, an equals sign and a level. A filter of spans, written
in square brackets, is no directive. -/
def ofText? (text : String) : Option LogDirective :=
  let target := text.toList.takeWhile (· ≠ '=')
  if !target.head?.any isStart || target.contains '[' then none
  else
    match text.toList.dropWhile (· ≠ '=') with
    | [] => some (ofWord text)
    | _ :: level => (levelAfter? level).map (⟨some (String.ofList target), ·⟩)

/-- A level for a target, as text. -/
def levelText (target : String) (level : LogLevel) : String := target ++ "=" ++ level.name

/-- The directive as text. -/
def text (directive : LogDirective) : String :=
  match directive.target with
  | some target => levelText target directive.level
  | none => directive.level.name

/-- The order in which directives are tried: by the length of the target, the longest first, and
targets of one length in descending order. -/
def compareTargets (a b : LogDirective) : Ordering :=
  (compareKeys (b.target.map String.utf8ByteSize) (a.target.map String.utf8ByteSize)).then
    (compareKeys b.target a.target)

end LogDirective

/-- Directives in the order in which they are tried. -/
structure LogFilter where
  directives : List LogDirective
  deriving DecidableEq, Repr

namespace LogFilter

/-- Puts a directive in its place; it replaces a directive for the same target. -/
def insert (directive : LogDirective) : List LogDirective → List LogDirective
  | [] => [directive]
  | other :: rest =>
    match directive.compareTargets other with
    | .lt => directive :: other :: rest
    | .eq => directive :: rest
    | .gt => other :: insert directive rest

/-- The filter of directives, later ones replacing earlier ones. -/
def ofDirectives (directives : List LogDirective) : LogFilter :=
  ⟨directives.foldl (fun known directive => insert directive known) []⟩

/-- Reads the directives between commas. -/
def ofText (text : String) : LogFilter :=
  ofDirectives ((text.toList.splitOn ',').filterMap fun part =>
    LogDirective.ofText? (String.ofList part))

/-- The directives as text. -/
def text (filter : LogFilter) : String :=
  ",".intercalate (filter.directives.map LogDirective.text)

end LogFilter

end TokenInspector
