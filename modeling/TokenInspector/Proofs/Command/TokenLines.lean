import TokenInspector.Proofs.Command.Colour
import TokenInspector.Proofs.Lines

/-!
# The lines of tokens

`tokens` writes one report in two ways. Without colour its text has the lines of `Report.lines`: the
title, the message of each error after two blanks, and a line for each row. The words of a row are
its index, name, ends, and selection (`Report.fieldsOf_rowLine`): what is wider than its column runs
over, but a blank stands behind it, and the names of tokens are words. So the lines hold what the
JSON output holds (`CommandLine.linesOf_tokens`).
-/

namespace TokenInspector

/-! ### Pieces -/

theorem wordsIn_padLeft (width : Nat) (w s : List Char) :
    wordsIn (Piece.padLeft width w ++ s) = wordsIn (w ++ s) := by
  rw [Piece.padLeft, List.append_assoc, wordsIn_blanks]

theorem IsWord.wordsIn_padRight {w : List Char} (h : IsWord w) (width : Nat) (s : List Char) :
    wordsIn (Piece.padRight width w ++ ' ' :: s) = w :: wordsIn s := by
  rw [Piece.padRight, List.append_assoc, h.wordsIn_append_blanks]

/-- If each item has pieces that make up a line, the pieces of all make up the lines of all. -/
theorem Piece.flatMap_render_lines {α : Type} {pieces : α → List Piece} {line : α → String}
    (h : ∀ item, (pieces item).flatMap (render false) = (line item).toList ++ ['\n'])
    (items : List α) : (items.flatMap pieces).flatMap (render false) =
      (items.map line).flatMap fun line => line.toList ++ ['\n'] := by
  rw [List.flatMap_assoc, List.flatMap_map]
  exact List.flatMap_congr fun item _ => h item

namespace Report

/-! ### The line of a row -/

/-- The ends of a row. -/
def endsText (row : ReportRow) : String :=
  toString row.start.toNat ++ ".." ++ toString row.stop.toNat

/-- The line and column of each end of a selection. -/
def selectionText (selection : Selection) : String :=
  toString selection.startLine.toNat ++ ":" ++ toString selection.startColumn.toNat ++ "-" ++
    toString selection.endLine.toNat ++ ":" ++ toString selection.endColumn.toNat

/-- What the line of a row says. -/
def rowFields (row : ReportRow) (index : Nat) : List String :=
  [toString index, row.name, endsText row, selectionText row.selection]

/-- The line of a row. -/
def rowLine (row : ReportRow) (index : Nat) : String :=
  String.ofList (Piece.padLeft 4 (toString index).toList ++ ' ' :: ' ' ::
    (Piece.padRight 32 row.name.toList ++ ' ' ::
      (Piece.padLeft 5 (toString row.start.toNat).toList ++ "..".toList ++
        (Piece.padRight 5 (toString row.stop.toNat).toList ++ ' ' ::
          (selectionText row.selection).toList))))

theorem isWord_endsText (row : ReportRow) : IsWord (endsText row).toList := by
  have hdots : IsWord "..".toList := by decide
  simp only [endsText, String.toList_append]
  exact ((isWord_repr _).append hdots).append (isWord_repr _)

theorem isWord_selectionText (selection : Selection) : IsWord (selectionText selection).toList := by
  have hcolon : IsWord ":".toList := by decide
  have hhyphen : IsWord "-".toList := by decide
  have hend : ∀ line column : Nat,
      IsWord ((toString line).toList ++ ":".toList ++ (toString column).toList) :=
    fun line column => ((isWord_repr line).append hcolon).append (isWord_repr column)
  have hselection := ((hend selection.startLine.toNat selection.startColumn.toNat).append
    hhyphen).append (hend selection.endLine.toNat selection.endColumn.toNat)
  simpa only [selectionText, String.toList_append, List.append_assoc] using hselection

variable {row : ReportRow}

/-- A row is read back word by word. -/
theorem fieldsOf_rowLine (hname : IsWord row.name.toList) (index : Nat) :
    fieldsOf (rowLine row index) = rowFields row index := by
  have hends : ∀ s, wordsIn (Piece.padLeft 5 (toString row.start.toNat).toList ++ "..".toList ++
      (Piece.padRight 5 (toString row.stop.toNat).toList ++ ' ' :: s)) =
      (endsText row).toList :: wordsIn s := by
    intro s
    rw [List.append_assoc, wordsIn_padLeft]
    have hblanks := (isWord_endsText row).wordsIn_append_blanks
      (5 - (toString row.stop.toNat).toList.length) s
    simpa [endsText, Piece.padRight] using hblanks
  rw [fieldsOf, rowLine, String.toList_ofList, wordsIn_padLeft, (isWord_repr index).wordsIn_append,
    wordsIn_blank, hname.wordsIn_padRight, hends, (isWord_selectionText _).wordsIn_eq]
  simp only [List.map_cons, List.map_nil, String.ofList_toList, rowFields]

theorem newline_not_mem_rowLine (hname : IsWord row.name.toList) (index : Nat) :
    '\n' ∉ (rowLine row index).toList := by
  have hindex : '\n' ∉ Piece.padLeft 4 (toString index).toList :=
    Piece.not_mem_padLeft (by decide) ((isWord_repr _).not_mem (by decide))
  have hpadded : '\n' ∉ Piece.padRight 32 row.name.toList :=
    Piece.not_mem_padRight (by decide) (hname.not_mem (by decide))
  have hstart : '\n' ∉ Piece.padLeft 5 (toString row.start.toNat).toList :=
    Piece.not_mem_padLeft (by decide) ((isWord_repr _).not_mem (by decide))
  have hstop : '\n' ∉ Piece.padRight 5 (toString row.stop.toNat).toList :=
    Piece.not_mem_padRight (by decide) ((isWord_repr _).not_mem (by decide))
  have hselection : '\n' ∉ (selectionText row.selection).toList :=
    (isWord_selectionText _).not_mem (by decide)
  simp only [rowLine, String.toList_ofList, List.mem_append, List.mem_cons, hindex, hpadded, hstart,
    hstop, hselection]
  decide

theorem flatMap_rowPieces (row : ReportRow) (index : Nat) :
    (rowPieces row index).flatMap (Piece.render false) = (rowLine row index).toList ++ ['\n'] := by
  simp [rowPieces, Piece.render, rowLine, padded, leftAligned, selectionText]

/-! ### The lines of a report -/

/-- The line of an error. -/
def errorLine (error : ScanError) : String := "  " ++ error.message

theorem flatMap_errorPieces (error : ScanError) :
    (errorPieces error).flatMap (Piece.render false) = (errorLine error).toList ++ ['\n'] := by
  simp [errorPieces, Piece.render, Piece.padRight, errorLine]

/-- The title, the messages, and the rows. -/
def lines (report : Report) : List String :=
  report.title :: (report.errors.map errorLine ++
    report.rows.zipIdx.map fun (row, index) => rowLine row index)

theorem renderPieces_pieces (report : Report) :
    renderPieces false report.pieces = unlines report.lines := by
  have herrors := Piece.flatMap_render_lines flatMap_errorPieces report.errors
  have hrows := Piece.flatMap_render_lines
    (fun placed : ReportRow × Nat => flatMap_rowPieces placed.1 placed.2) report.rows.zipIdx
  rw [renderPieces, unlines, pieces, lines, List.flatMap_cons, List.flatMap_cons,
    List.flatMap_append, herrors, hrows, List.flatMap_cons, List.flatMap_append]
  simp [Piece.render, Piece.padRight]

theorem linesOf_pieces {report : Report} (htitle : '\n' ∉ report.title.toList)
    (herrors : ∀ error ∈ report.errors, '\n' ∉ error.message.toList)
    (hrows : ∀ row ∈ report.rows, IsWord row.name.toList) :
    linesOf (renderPieces false report.pieces) = report.lines := by
  rw [renderPieces_pieces]
  refine linesOf_unlines (List.forall_mem_cons.mpr ⟨htitle, List.forall_mem_append.mpr ⟨?_, ?_⟩⟩)
  · rw [List.forall_mem_map]
    intro error herror
    simp [errorLine, herrors error herror]
  · rw [List.forall_mem_map]
    intro (row, index) hrow
    exact newline_not_mem_rowLine (hrows row (List.fst_mem_of_mem_zipIdx hrow)) index

/-- The lines of rows say what the rows say. -/
theorem map_fieldsOf_rowLine {rows : List ReportRow} (h : ∀ row ∈ rows, IsWord row.name.toList) :
    (rows.zipIdx.map fun (row, index) => rowLine row index).map fieldsOf =
      rows.zipIdx.map fun (row, index) => rowFields row index := by
  rw [List.map_map]
  refine List.map_congr_left ?_
  intro (row, index) hrow
  simp only [Function.comp_apply]
  exact fieldsOf_rowLine (h row (List.fst_mem_of_mem_zipIdx hrow)) index

/-- JSON output is read back as the report. -/
theorem ofText_pretty_newline (report : Report) :
    Json.ofText (report.toJson.pretty ++ "\n") = .ok report.toJson.asRead := by
  have hblank : Blank "\n".toList := by
    intro c hc
    obtain rfl : c = '\n' := by simpa using hc
    rfl
  exact ((Json.hasText_pretty _).append_blank hblank).ofText_eq (report.readable_toJson 123)

end Report

namespace CommandLine

variable {noColor colour : Bool} {tokenPath sourcePath text : String} {read : FileReader}

/-- A command line on tokens writes the report on its files, if it has output. -/
theorem run_tokens_eq_ok (h : run ⟨noColor, .tokens tokenPath sourcePath false⟩ read colour = .ok text) :
    ∃ (file : TokenFile) (source : String), loadResults read tokenPath = .ok file.results ∧
      text = renderPieces (colour && !noColor) (file.report source).pieces ∧
      ∀ noColor colour, run ⟨noColor, .tokens tokenPath sourcePath true⟩ read colour =
        .ok ((file.report source).toJson.pretty ++ "\n") := by
  obtain ⟨pieces, hpieces, rfl⟩ := run_eq_ok.mp h
  obtain ⟨file, source, hresults, hsource, rfl⟩ := Command.run_tokens_eq_ok hpieces
  refine ⟨file, source, hresults, rfl, ?_⟩
  intro noColor colour
  exact run_eq_ok.mpr ⟨_, Command.run_tokens hresults hsource true, renderPieces_plain _ _⟩

/-- The lines of tokens without colour hold what the JSON output holds: the title, the messages, and
for each row its index, name, ends and selection. -/
theorem linesOf_tokens
    (hrun : run ⟨noColor, .tokens tokenPath sourcePath false⟩ read colour = .ok text)
    (hcolour : (colour && !noColor) = false)
    (hshown : ∀ message, (Command.tokens tokenPath sourcePath false).Shows read message →
      '\n' ∉ message.toList) :
    ∃ output json report rows,
      (∀ noColor colour, run ⟨noColor, .tokens tokenPath sourcePath true⟩ read colour =
        .ok output) ∧
      Json.ofText output = .ok json ∧ Report.ofJson? json = some report ∧
      linesOf text = report.title :: (report.errors.map ("  " ++ ·.message) ++ rows) ∧
      (linesOf text).length = 1 + report.errors.length + report.rows.length ∧
      rows.map fieldsOf = report.rows.zipIdx.map fun (row, index) => Report.rowFields row index := by
  obtain ⟨file, source, hresults, rfl, hjson⟩ := run_tokens_eq_ok hrun
  have hmessages : ∀ error ∈ (file.report source).errors, '\n' ∉ error.message.toList :=
    fun error herror => hshown _ (.message hresults (Array.mem_toList_iff.mp herror))
  have hnames := file.isWord_rows source
  have hlines : linesOf (renderPieces false (file.report source).pieces) =
      (file.report source).lines :=
    Report.linesOf_pieces (ScanResults.not_mem_title _ (by decide)) hmessages hnames
  rw [hcolour, hlines]
  refine ⟨_, _, file.report source, _, hjson, Report.ofText_pretty_newline _,
    Report.ofJson?_toJson _, rfl, ?_, Report.map_fieldsOf_rowLine hnames⟩
  simp only [Report.lines, List.length_cons, List.length_append, List.length_map,
    List.length_zipIdx]
  omega

theorem run_scanFiles_json (file : TokenFile) (source : String) :
    run ⟨false, .tokens "tokens.json" "source.ts" true⟩ (scanFiles file source) false =
      .ok ((file.report source).toJson.pretty ++ "\n") :=
  run_eq_ok.mpr ⟨_, Command.run_tokens (loadResults_scanFiles file source) rfl true,
    renderPieces_plain _ _⟩

/-- A name and an offset that do not fit in their columns, a kind without a name, and a message that
begins with a blank. -/
def wideScan : TokenFile := ⟨[⟨73, 4⟩, ⟨999, 1234567⟩], [⟨" bad  token", 1⟩]⟩

theorem linesOf_tokens_wide :
    run ⟨false, .tokens "tokens.json" "source.ts" false⟩ (scanFiles wideScan ">>>= x") false =
      .ok (renderPieces false (wideScan.report ">>>= x").pieces) ∧
    (∀ message, (Command.tokens "tokens.json" "source.ts" false).Shows (scanFiles wideScan ">>>= x")
      message → '\n' ∉ message.toList) ∧
    ∃ rows, linesOf (renderPieces false (wideScan.report ">>>= x").pieces) =
        "Scan failed" :: "   bad  token" :: rows ∧
      rows.map fieldsOf =
        [["0", "GreaterThanGreaterThanGreaterThanEqualsToken", "0..4", "1:1-1:5"],
          ["1", "999", "4..1234567", "1:5-1:7"]] := by
  have hshown : ∀ message, (Command.tokens "tokens.json" "source.ts" false).Shows
      (scanFiles wideScan ">>>= x") message → '\n' ∉ message.toList := by
    intro message hshows
    obtain ⟨error, herror, rfl⟩ := exists_error_of_shows hshows
    rw [wideScan, List.mem_singleton] at herror
    rw [herror]
    decide
  have hrun := run_scanFiles wideScan ">>>= x" false
  refine ⟨hrun, hshown, ?_⟩
  obtain ⟨output, json, report, rows, houtput, hjson, hreport, hlines, -, hrows⟩ :=
    linesOf_tokens hrun rfl hshown
  -- The report that is read from the JSON output is the one on these files.
  obtain rfl := Except.ok.inj ((run_scanFiles_json wideScan ">>>= x").symm.trans (houtput _ _))
  obtain rfl := Except.ok.inj ((Report.ofText_pretty_newline _).symm.trans hjson)
  obtain rfl := Option.some.inj ((Report.ofJson?_toJson _).symm.trans hreport)
  refine ⟨rows, ?_, ?_⟩
  · rw [hlines, TokenFile.errors_report]
    rfl
  · rw [hrows]
    decide +kernel

end CommandLine

end TokenInspector
