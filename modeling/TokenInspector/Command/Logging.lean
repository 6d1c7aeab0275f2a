import TokenInspector.Command.LogFilter

/-!
# Log settings

Logging is off unless one of two variables is set. The program's own variable may hold a bare level,
which then applies to the targets of the program only; any other text is used as it stands. A third
variable picks the format.
-/

namespace TokenInspector

/-- Characters of the Unicode property White_Space. -/
def isWhiteSpace (c : Char) : Bool :=
  let n := c.toNat
  (0x09 ≤ n && n ≤ 0x0D) || n = 0x20 || n = 0x85 || n = 0xA0 || n = 0x1680 ||
    (0x2000 ≤ n && n ≤ 0x200A) || n = 0x2028 || n = 0x2029 || n = 0x202F || n = 0x205F || n = 0x3000

/-- A text without white space at its ends. -/
def trimText (text : String) : String :=
  String.ofList
    ((text.toList.dropWhile isWhiteSpace).reverse.dropWhile isWhiteSpace).reverse

/-- How log lines are written. -/
inductive LogFormat where
  | text
  | tree
  | json
  deriving DecidableEq, Repr

/-- The format of a name, in any case and between blanks; text if there is no such format. -/
def LogFormat.ofName (name : String) : LogFormat :=
  match (trimText name).toList.map Char.toLower with
  | ['t', 'r', 'e', 'e'] => tree
  | ['j', 's', 'o', 'n'] => json
  | _ => text

/-- The targets of the program. -/
def logTargets : List String := ["scanview_enums", "scanview_tokens", "scanview_cli"]

/-- What is logged. -/
inductive LogDirectives where
  /-- A level for each target of the program. -/
  | ownTargets (level : LogLevel)
  /-- Directives as they were written. -/
  | verbatim (text : String)
  deriving DecidableEq, Repr

namespace LogDirectives

/-- The directives as text. -/
def text : LogDirectives → String
  | ownTargets level =>
    ",".intercalate (logTargets.map fun target => LogDirective.levelText target level)
  | verbatim text => text

/-- The filter that the directives make. -/
def filter (directives : LogDirectives) : LogFilter := .ofText directives.text

end LogDirectives

/-- What is logged, and how. -/
structure LogSettings where
  directives : LogDirectives
  format : LogFormat
  deriving DecidableEq, Repr

namespace LogSettings

/-- A variable that is set to more than white space, trimmed. -/
def nonBlank? (setting : Option String) : Option String :=
  (setting.map trimText).filter (· ≠ "")

/-- The directives of the two variables; the program's own goes first. -/
def directives? (own common : Option String) : Option LogDirectives :=
  match nonBlank? own with
  | some text =>
    match LogLevel.ofText? text with
    | some level => some (.ownTargets level)
    | none => some (.verbatim text)
  | none => (nonBlank? common).map .verbatim

/-- The settings of the three variables; `none` if nothing is to be logged. -/
def resolve (own common format : Option String) : Option LogSettings :=
  (directives? own common).map fun directives =>
    ⟨directives, (format.map LogFormat.ofName).getD .text⟩

end LogSettings

end TokenInspector
