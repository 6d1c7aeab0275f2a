import TokenInspector.Scan.Results

/-!
# Reports

A report describes the results of a scan with the text that was scanned: a title, one row for each
token, and the errors. As JSON it has no errors entry if there are none.
-/

namespace TokenInspector

/-- A token with its place in the text. -/
structure ReportRow where
  kind : UInt16
  name : String
  start : UInt32
  stop : UInt32
  selection : Selection
  deriving DecidableEq, Repr

/-- What is shown of a scan. -/
structure Report where
  title : String
  rows : List ReportRow
  errors : List ScanError
  deriving DecidableEq, Repr

namespace ScanResults

/-- The row of a token. -/
def row? (results : ScanResults) (map : LineMap) (index : Nat) : Option ReportRow := do
  let token ← results.tokens[index]?
  let span ← results.span? index
  let selection ← results.selection? map index
  return ⟨token.kind, token.name, span.start, span.stop, selection⟩

/-- The report on a scan of `source`. -/
def report (results : ScanResults) (source : String) : Report :=
  let map := LineMap.ofText source
  { title := results.title
    rows := (List.range results.tokens.size).filterMap (results.row? map)
    errors := results.errors.toList }

end ScanResults

namespace Report

/-- The object of a row. -/
def rowJson (row : ReportRow) : Json Int :=
  .object [("kind", .number row.kind.toNat), ("token", .text row.name),
    ("start", .number row.start.toNat), ("end", .number row.stop.toNat),
    ("selection", Json.ofRecord row.selection)]

/-- The object of a report. -/
def toJson (report : Report) : Json Int :=
  .object ([("title", .text report.title), ("tokens", .array (report.rows.map rowJson))] ++
    if report.errors.isEmpty then []
    else [("errors", .array (report.errors.map Json.ofRecord))])

end Report

end TokenInspector
