import TokenInspector.Proofs.Command.FrontEnds
import TokenInspector.Proofs.Json.Parts
import TokenInspector.Proofs.Scan.Rows

/-!
# What a session says of one token

A session answers for single tokens from the lines it found when it was opened, and for all of them
with a report that finds the lines again. The two agree in every session whose lines are those of
its text (`KeepsLines`), which no event changes. So after any events the name and the selection of a
token are those of its row (`Coherent`), the selection to the character, and a row that was reported
once stays as it is (`session_coherent`).
-/

namespace TokenInspector

/-- In a well-formed map every offset has a position, also where its counts do not fit 32 bits. -/
theorem LineMap.WellFormed.exists_place {map : LineMap} (h : map.WellFormed) :
    ∃ place : UInt32 → Position, ∀ o, map.position? o.toNat = some (place o) := by
  refine ⟨fun o => (map.position? o.toNat).getD ⟨0, 0⟩, fun o => ?_⟩
  obtain ⟨start, hlast, -⟩ := h.exists_getLast? (min o.toNat map.length)
  simp only [position?, hlast, Option.map_some, Option.getD_some]

/-- More tokens leave the rows of the first ones as they are. -/
theorem rowsFrom_prefix (place : UInt32 → Position) (start : UInt32) {tokens more : List NamedToken}
    (h : tokens <+: more) : rowsFrom place start tokens <+: rowsFrom place start more := by
  induction tokens generalizing start more with
  | nil => exact List.nil_prefix
  | cons token rest ih =>
    obtain ⟨after, rfl⟩ := h
    exact List.cons_prefix_cons.mpr ⟨rfl, ih _ (List.prefix_append rest after)⟩

namespace ScanResults

variable {results : ScanResults} {map : LineMap} {place : UInt32 → Position}

theorem selection?_eq (hplace : ∀ o, map.position? o.toNat = some (place o)) (i : Nat) :
    results.selection? map i =
      (rowsFrom place 0 results.tokens.toList)[i]?.map (·.selection) := by
  rw [getElem?_rowsFrom]
  cases h : results.tokens.toList[i]? with
  | none =>
    rw [Array.getElem?_toList] at h
    simp [selection?, span?, h]
  | some token => simp [selection?, span?_eq h, hplace]

/-- An event adds tokens at the end only. -/
theorem tokens_prefix_record (results : ScanResults) (event : ScanEvent) :
    results.tokens.toList <+: (results.record event).tokens.toList := by
  cases event with
  | error error => exact List.prefix_rfl
  | token token =>
    rw [record, push, offer]
    cases h : results.isComplete with
    | true => simp only [offerWith_of_complete h, List.prefix_rfl]
    | false =>
      rw [offerWith_of_incomplete h, Array.toList_push]
      exact List.prefix_append _ _

end ScanResults

/-- The selection of a row stands in the report of the row. -/
theorem Report.part?_selection (report : Report) (i : Nat) :
    report.toJson.part? [.entry "tokens", .item i, .entry "selection"] =
      report.rows[i]?.map (Json.ofRecord ·.selection) := by
  have htokens : report.toJson.part? [.entry "tokens", .item i, .entry "selection"] =
      (Json.array (report.rows.map rowJson)).part? [.item i, .entry "selection"] := rfl
  rw [htokens, Json.part?, List.getElem?_map]
  cases report.rows[i]? <;> rfl

namespace ScanSession

/-- The report on what the session recorded. -/
def report (session : ScanSession) : Report := session.results.report session.source

/-- The lines that were found when the session was opened are those of its text. -/
def KeepsLines (session : ScanSession) : Prop := session.map = .ofText session.source

/-- What a session says of its tokens one by one is what its report says: the text of the report
reads as `report`, a token has the name and the selection of its row, and the selection is the text
that stands in that row, to the character. Past the tokens there is no answer. -/
structure Coherent (session : ScanSession) (report : Report) : Prop where
  read : ∃ json, Json.ofText session.reportText = .ok json ∧ Report.ofJson? json = some report
  count : session.tokenCount = report.rows.length
  name : ∀ i, session.tokenName? i = report.rows[i]?.map (·.name)
  selection : ∀ i, session.selectionText? i = report.rows[i]?.map (Record.toText ·.selection)
  selectionPart : ∀ i text, session.selectionText? i = some text ↔
    Json.PartAt [.entry "tokens", .item i, .entry "selection"] session.reportText.toList text.toList
  absent : ∀ i, (session.tokenName? i = none ↔ session.tokenCount ≤ i) ∧
    (session.selectionText? i = none ↔ session.tokenCount ≤ i)

variable {session : ScanSession}

theorem read_reportText (session : ScanSession) :
    ∃ json, Json.ofText session.reportText = .ok json ∧
      Report.ofJson? json = some session.report :=
  ⟨_, (Json.hasText_compact _).ofText_eq (session.report.readable_toJson 123),
    session.report.ofJson?_toJson⟩

/-- A session that keeps the lines of its text agrees with its report. -/
theorem coherent_report (h : session.KeepsLines) : session.Coherent session.report := by
  obtain ⟨place, hplace⟩ := (LineMap.wellFormed_ofText session.source).exists_place
  have hrows : session.report.rows = rowsFrom place 0 session.results.tokens.toList :=
    ScanResults.report_rows session.source hplace
  have hcount : session.tokenCount = session.report.rows.length := by
    rw [hrows, length_rowsFrom, Array.length_toList, tokenCount]
  have hname : ∀ i, session.tokenName? i = session.report.rows[i]?.map (·.name) := by
    intro i
    rw [tokenName?, hrows, getElem?_rowsFrom, Option.map_map, Array.getElem?_toList]
    rfl
  have hselection : ∀ i, session.selectionText? i =
      session.report.rows[i]?.map (Record.toText ·.selection) := by
    intro i
    rw [selectionText?, h, ScanResults.selection?_eq hplace, hrows, Option.map_map]
    rfl
  refine ⟨session.read_reportText, hcount, hname, hselection, ?_, ?_⟩
  · intro i text
    have htext : session.reportText.toList = Json.compactChars session.report.toJson :=
      String.toList_ofList
    rw [htext, Json.partAt_compact_iff, Report.part?_selection, hselection]
    cases session.report.rows[i]? with
    | none => simp
    | some row =>
      simp only [Option.map_some, Option.some.injEq, exists_eq_left', Record.toText, Json.compact]
      rw [eq_comm, String.ext_iff, String.toList_ofList]
  · intro i
    rw [hname, hselection, hcount, Option.map_eq_none_iff, Option.map_eq_none_iff,
      List.getElem?_eq_none_iff]
    exact ⟨Iff.rfl, Iff.rfl⟩

/-! ### Events -/

theorem keepsLines_feed (h : session.KeepsLines) (event : ScanEvent) :
    (session.feed event).KeepsLines := by
  rw [feed_eq]
  exact h

/-- An event leaves the reported rows as they are. -/
theorem rows_prefix_feed (session : ScanSession) (event : ScanEvent) :
    session.report.rows <+: (session.feed event).report.rows := by
  obtain ⟨place, hplace⟩ := (LineMap.wellFormed_ofText session.source).exists_place
  rw [feed_eq, report, report, ScanResults.report_rows session.source hplace,
    ScanResults.report_rows session.source hplace]
  exact rowsFrom_prefix place 0 (ScanResults.tokens_prefix_record _ event)

theorem keepsLines_feedAll (h : session.KeepsLines) (events : List ScanEvent) :
    (session.feedAll events).KeepsLines := by
  induction events generalizing session with
  | nil => exact h
  | cons event rest ih => exact ih (keepsLines_feed h event)

theorem rows_prefix_feedAll (session : ScanSession) (events : List ScanEvent) :
    session.report.rows <+: (session.feedAll events).report.rows := by
  induction events generalizing session with
  | nil => exact List.prefix_rfl
  | cons event rest ih => exact (session.rows_prefix_feed event).trans (ih _)

theorem feedAll_append (session : ScanSession) (events later : List ScanEvent) :
    session.feedAll (events ++ later) = (session.feedAll events).feedAll later :=
  List.foldl_append

/-- After any events, what a session says of its tokens one by one is what its report says, and
later events change no row that was reported. -/
theorem session_coherent (source : String) (events later : List ScanEvent) :
    ∃ report report', ((ofSource source).feedAll events).Coherent report ∧
      ((ofSource source).feedAll (events ++ later)).Coherent report' ∧
      report.rows <+: report'.rows := by
  have hopened : (ofSource source).KeepsLines := rfl
  have h := keepsLines_feedAll hopened events
  refine ⟨_, _, coherent_report h, ?_, rows_prefix_feedAll _ later⟩
  rw [feedAll_append]
  exact coherent_report (keepsLines_feedAll h later)

end ScanSession

end TokenInspector
