import TokenInspector.Proofs.RecordTypes
import TokenInspector.Scan.Report

/-!
# Reading reports

The JSON value of a report says all of it: `Report.ofJson?` reads the report back
(`ofJson?_toJson`). A row carries the fields of a named token and of a span, so the readers of
those records read it, past the fields that are not theirs.
-/

namespace TokenInspector

/-- The value under a key of an object. -/
def Json.entry? {ν : Type} (key : String) : Json ν → Option (Json ν)
  | .object entries => entries.lookup key
  | _ => none

/-- The row that a value is. -/
def ReportRow.ofJson? (json : Json Number) : Option ReportRow := do
  let token ← Json.record? NamedToken json
  let span ← Json.record? TokenSpan json
  let selection ← Json.record? Selection (← json.entry? "selection")
  return ⟨token.kind, token.name, span.start, span.stop, selection⟩

/-- The report that a value is; without an errors entry it has no errors. -/
def Report.ofJson? (json : Json Number) : Option Report := do
  let .text title ← json.entry? "title" | none
  let .array rows ← json.entry? "tokens" | none
  let errors ← match json.entry? "errors" with
    | none => some []
    | some errors => Json.records? ScanError errors
  return ⟨title, ← rows.mapM ReportRow.ofJson?, errors⟩

namespace Report

/-! ### Rows -/

theorem readable_rowJson (row : ReportRow) (depth : Nat) : (rowJson row).Readable (depth + 2) := by
  rw [rowJson, Json.readable_object]
  simp only [List.forall_mem_cons, List.not_mem_nil, false_imp_iff, implies_true, and_true]
  exact ⟨(holds_word16 _).readable, trivial, (holds_word32 _).readable, (holds_word32 _).readable,
    LawfulRecord.readable_ofRecord _ _⟩

theorem ofJson?_rowJson (row : ReportRow) :
    ReportRow.ofJson? (rowJson row).asRead = some row := by
  have htoken : Json.record? NamedToken (rowJson row).asRead =
      some ⟨row.kind, row.name, row.stop⟩ :=
    LawfulRecord.record?_object rfl (readable_rowJson row 0)
  have hspan : Json.record? TokenSpan (rowJson row).asRead = some ⟨row.start, row.stop⟩ :=
    LawfulRecord.record?_object rfl (readable_rowJson row 0)
  have hselection : (rowJson row).asRead.entry? "selection" =
      some (Json.ofRecord row.selection).asRead := rfl
  rw [ReportRow.ofJson?, htoken, hspan, hselection]
  simp only [bind, Option.bind, LawfulRecord.record?_ofRecord]
  rfl

/-! ### Reports -/

theorem readable_toJson (report : Report) (depth : Nat) : report.toJson.Readable (depth + 4) := by
  have hrows : (Json.array (report.rows.map rowJson)).Readable (depth + 3) := by
    rw [Json.readable_array]
    intro json hjson
    obtain ⟨row, -, rfl⟩ := List.mem_map.mp hjson
    exact readable_rowJson row depth
  have herrors := LawfulRecord.readable_records report.errors (depth + 1)
  rw [toJson, Json.readable_object]
  intro entry hentry
  split at hentry <;> simp only [List.cons_append, List.nil_append, List.append_nil, List.mem_cons,
    List.not_mem_nil, or_false] at hentry
  · obtain rfl | rfl := hentry
    · trivial
    · exact hrows
  · obtain rfl | rfl | rfl := hentry
    · trivial
    · exact hrows
    · exact herrors

/-- The entries of a report as they are read. -/
theorem asRead_toJson (report : Report) : report.toJson.asRead =
    .object ([("title", .text report.title),
      ("tokens", .array (report.rows.map fun row => (rowJson row).asRead))] ++
      if report.errors.isEmpty then []
      else [("errors", (Json.array (report.errors.map Json.ofRecord)).asRead)]) := by
  rw [toJson]
  cases report.errors <;> simp [Json.asRead, Json.asReadEntries, Json.asReadItems_eq]

/-- A report is read back from its value. -/
theorem ofJson?_toJson (report : Report) : Report.ofJson? report.toJson.asRead = some report := by
  have htitle : report.toJson.asRead.entry? "title" = some (.text report.title) := by
    rw [asRead_toJson]
    rfl
  have hrows : report.toJson.asRead.entry? "tokens" =
      some (.array (report.rows.map fun row => (rowJson row).asRead)) := by
    rw [asRead_toJson]
    rfl
  have herrors : report.toJson.asRead.entry? "errors" = if report.errors.isEmpty then none
      else some (Json.array (report.errors.map Json.ofRecord)).asRead := by
    rw [asRead_toJson]
    cases report.errors <;> rfl
  have hread := mapM_map_eq_some ofJson?_rowJson report.rows
  have hreadErrors := LawfulRecord.records?_ofRecord report.errors
  rw [ofJson?, htitle, hrows, herrors]
  cases h : report.errors.isEmpty with
  | true =>
    have hnil : report.errors = [] := List.isEmpty_iff.mp h
    simp [hread, ← hnil]
  | false => simp [hread, hreadErrors]

end Report

end TokenInspector
