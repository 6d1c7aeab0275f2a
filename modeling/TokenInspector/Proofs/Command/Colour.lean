import TokenInspector.Proofs.Command.EnumChoices
import TokenInspector.Proofs.Command.Escapes
import TokenInspector.Proofs.Command.FrontEnds
import TokenInspector.Proofs.Enumeration.BuiltInNames
import TokenInspector.Proofs.Json.Characters

/-!
# Output with and without colour

A command fails with colour just where it fails without, and if it does not, its two outputs differ
in the escape sequences of the styles only (`CommandLine.strip_run`): whatever escapes the texts
from files hold, the words and the columns stay. If these texts hold none (`Command.Shows`), output
without colour has none either and is what is left of output with colour.
-/

namespace TokenInspector

/-! ### Texts without escapes -/

variable {definition : EnumDefinition} {read : FileReader} {pieces : List Piece}

theorem escape_not_mem_repr (n : Nat) : '\x1b' ∉ (toString n).toList :=
  (isWord_repr n).not_mem (by decide)

theorem EnumDefinition.escape_not_mem_display
    (h : ∀ member ∈ definition.members, '\x1b' ∉ member.name.toList) (value : Int64)
    (flags : Bool) : '\x1b' ∉ (definition.display value flags).toList := by
  intro hmem
  rcases mem_display hmem with hdigit | hminus | hbar | ⟨member, hmember, hname⟩
  · exact absurd hdigit (by decide)
  · exact absurd hminus (by decide)
  · exact absurd hbar (by decide)
  · exact h member hmember hname

theorem BuiltIn.escape_not_mem_name (known : BuiltIn) :
    ∀ member ∈ known.definition.members, '\x1b' ∉ member.name.toList :=
  fun member hmember => (known.isWord_name member hmember).not_mem (by decide)

theorem escape_not_mem_pretty (json : Json Int) : '\x1b' ∉ json.pretty.toList := by
  intro h
  have hvisible := (Json.hasText_pretty json).visible _ h
  exact absurd (hvisible (by decide)) (by decide)

theorem escape_not_mem_padded {width : Nat} {text : String} (h : '\x1b' ∉ text.toList) :
    '\x1b' ∉ (padded width text).toList := by
  rw [padded, String.toList_ofList]
  exact Piece.not_mem_padLeft (by decide) h

theorem getLast?_line (text : String) :
    ∃ c ∈ Piece.spaces, (text ++ "\n").toList.getLast? = some c :=
  ⟨'\n', by decide, by simp⟩

/-! ### Members -/

namespace ChosenEnum

theorem spaced_pieces (chosen : ChosenEnum) : Piece.Spaced chosen.pieces := by
  have hlines : ∀ members : List EnumMember, Piece.Spaced (members.map fun member =>
      .plain (padded 12 (toString member.value.toInt) ++ "  " ++ member.name ++ "\n")) := by
    intro members
    induction members with
    | nil => exact .nil
    | cons member rest ih => exact .plain (getLast?_line _) ih
  refine .styled (.inl rfl) ?_ (.plain ?_ (hlines _))
  · split <;> exact ⟨' ', by decide, rfl⟩
  · split <;> exact ⟨'\n', by decide, rfl⟩

theorem escape_not_mem_pieces {chosen : ChosenEnum} (hname : '\x1b' ∉ chosen.name.toList)
    (hnames : ∀ member ∈ chosen.definition.members, '\x1b' ∉ member.name.toList) :
    ∀ piece ∈ chosen.pieces, '\x1b' ∉ piece.text.toList := by
  have hkind : '\x1b' ∉ (if chosen.isFlags then " (flags)\n" else " (enum)\n").toList := by
    split <;> decide
  simp only [pieces, List.forall_mem_cons, List.forall_mem_map, Piece.text]
  refine ⟨hname, hkind, fun member hmember => ?_⟩
  have hvalue : '\x1b' ∉ (padded 12 (toString member.value.toInt)).toList :=
    escape_not_mem_padded fun h => absurd (mem_decimal h) (by decide)
  have hmember := hnames member (EnumDefinition.mem_sorted.mp hmember)
  simp only [String.toList_append, List.mem_append, not_or]
  exact ⟨⟨⟨hvalue, by decide⟩, hmember⟩, by decide⟩

end ChosenEnum

/-! ### Reports -/

namespace ScanResults

theorem exists_token_of_mem_rows {results : ScanResults} {source : String} {row : ReportRow}
    (h : row ∈ (results.report source).rows) : ∃ token ∈ results.tokens, row.name = token.name := by
  obtain ⟨index, -, hrow⟩ := List.mem_filterMap.mp h
  obtain ⟨token, htoken, hrow⟩ := Option.bind_eq_some_iff.mp hrow
  obtain ⟨span, -, hrow⟩ := Option.bind_eq_some_iff.mp hrow
  obtain ⟨selection, -, hrow⟩ := Option.bind_eq_some_iff.mp hrow
  cases hrow
  exact ⟨token, Array.mem_of_getElem? htoken, rfl⟩

/-- A title has no characters before the blank. -/
theorem not_mem_title (results : ScanResults) {c : Char} (hc : c < ' ') :
    c ∉ results.title.toList := by
  have hall : results.title.toList.all (' ' ≤ ·) = true := by
    rw [title]
    split <;> decide
  intro hmem
  exact Char.not_lt.mpr (of_decide_eq_true (List.all_eq_true.mp hall c hmem)) hc

end ScanResults

/-- The rows of a token file have names that the built-in token kinds give. -/
theorem TokenFile.isWord_rows (file : TokenFile) (source : String) :
    ∀ row ∈ (file.report source).rows, IsWord row.name.toList := by
  intro row hrow
  obtain ⟨token, htoken, hname⟩ := ScanResults.exists_token_of_mem_rows hrow
  rw [results, ScanResults.foldl_pushError, ScanResults.ofTokens, ScanResults.ofTokensWith_eq,
    List.mem_toArray] at htoken
  obtain ⟨scanned, -, rfl⟩ := List.mem_map.mp htoken
  rw [hname]
  exact EnumDefinition.isWord_display BuiltIn.tokenKinds.isWord_name _ _

theorem TokenFile.escape_not_mem_rows (file : TokenFile) (source : String) :
    ∀ row ∈ (file.report source).rows, '\x1b' ∉ row.name.toList :=
  fun row hrow => (file.isWord_rows source row hrow).not_mem (by decide)

namespace Report

variable {report : Report}

theorem spaced_pieces (hrows : ∀ row ∈ report.rows, '\x1b' ∉ row.name.toList) :
    Piece.Spaced report.pieces := by
  have hspace : ∀ text : String, ∃ c ∈ Piece.spaces, (text ++ "  ").toList.getLast? = some c :=
    fun text => ⟨' ', by decide, by simp⟩
  have herrors : Piece.Spaced (report.errors.flatMap errorPieces) := by
    refine Piece.spaced_flatMap fun error _ => ?_
    exact .plain ⟨' ', by decide, rfl⟩ (.styled (.inl rfl) ⟨'\n', by decide, rfl⟩
      (.plain ⟨'\n', by decide, rfl⟩ .nil))
  refine .styled (.inl rfl) ⟨'\n', by decide, rfl⟩ (.plain ⟨'\n', by decide, rfl⟩
    (herrors.append (Piece.spaced_flatMap fun (row, index) hrow => ?_)))
  have hname := hrows row (List.fst_mem_of_mem_zipIdx hrow)
  exact .plain (hspace _) (.styled (.inr hname) ⟨' ', by decide, by simp⟩
    (.plain (getLast?_line _) .nil))

theorem escape_not_mem_rowPieces {row : ReportRow} (index : Nat)
    (hname : '\x1b' ∉ row.name.toList) :
    ∀ piece ∈ rowPieces row index, '\x1b' ∉ piece.text.toList := by
  have hpadded : ∀ width n, '\x1b' ∉ (padded width (toString n)).toList :=
    fun width n => escape_not_mem_padded (escape_not_mem_repr n)
  have haligned : ∀ width (n : UInt32), '\x1b' ∉ (leftAligned width n).toList := by
    intro width n
    rw [leftAligned, String.toList_ofList]
    exact Piece.not_mem_padRight (by decide) (escape_not_mem_repr n.toNat)
  simp only [rowPieces, List.forall_mem_cons, Piece.text, String.toList_append, List.mem_append,
    not_or, hpadded, haligned, hname, escape_not_mem_repr, not_false_eq_true, true_and, and_true]
  decide

theorem escape_not_mem_pieces (htitle : '\x1b' ∉ report.title.toList)
    (herrors : ∀ error ∈ report.errors, '\x1b' ∉ error.message.toList)
    (hrows : ∀ row ∈ report.rows, '\x1b' ∉ row.name.toList) :
    ∀ piece ∈ report.pieces, '\x1b' ∉ piece.text.toList := by
  refine List.forall_mem_cons.mpr ⟨htitle, List.forall_mem_cons.mpr
    ⟨by decide, List.forall_mem_append.mpr ⟨?_, ?_⟩⟩⟩
  · intro piece hpiece
    obtain ⟨error, herror, hpiece⟩ := List.mem_flatMap.mp hpiece
    have hpieces : ∀ piece ∈ errorPieces error, '\x1b' ∉ piece.text.toList := by
      simp only [errorPieces, List.forall_mem_cons, Piece.text, herrors error herror,
        not_false_eq_true, true_and]
      decide
    exact hpieces piece hpiece
  · intro piece hpiece
    obtain ⟨⟨row, index⟩, hrow, hpiece⟩ := List.mem_flatMap.mp hpiece
    have hname := hrows row (List.fst_mem_of_mem_zipIdx hrow)
    exact escape_not_mem_rowPieces index hname piece hpiece

end Report

/-! ### Commands -/

/-- A text that comes from a file, or names one, and that the command shows as it stands. -/
inductive Command.Shows (read : FileReader) : Command → String → Prop
  | stem {path : String} : Shows read (.members ⟨some path, none⟩) (Path.stem path)
  | name {command : Command} {path : String} {definition : EnumDefinition} {member : EnumMember} :
      command.choice? = some ⟨some path, none⟩ → loadDefinition read path = .ok definition →
      member ∈ definition.members → Shows read command member.name
  | message {tokenPath sourcePath : String} {results : ScanResults} {error : ScanError} :
      loadResults read tokenPath = .ok results → error ∈ results.errors →
      Shows read (.tokens tokenPath sourcePath false) error.message

theorem EnumChoice.load_eq_ok {choice : EnumChoice} {chosen : ChosenEnum}
    (h : choice.load read = .ok chosen) :
    (∃ known : BuiltIn, chosen = ⟨known.name, known.definition, known.isFlags⟩) ∨
    ∃ path definition, choice = ⟨some path, none⟩ ∧ loadDefinition read path = .ok definition ∧
      chosen = ⟨Path.stem path, definition, false⟩ := by
  obtain ⟨file, known⟩ := choice
  cases known with
  | some name =>
    simp only [load] at h
    split at h
    · cases h
      exact .inl ⟨_, rfl⟩
    · cases h
  | none =>
    cases file with
    | none => cases h
    | some path =>
      obtain ⟨definition, hdefinition, h⟩ := bind_eq_ok.mp h
      cases h
      exact .inr ⟨path, definition, rfl, hdefinition, rfl⟩

theorem exists_file_of_loadResults {path : String} {results : ScanResults}
    (h : loadResults read path = .ok results) : ∃ file : TokenFile, results = file.results := by
  obtain ⟨text, -, h⟩ := bind_eq_ok.mp h
  obtain ⟨file, -, h⟩ := bind_eq_ok.mp h
  cases h
  exact ⟨file, rfl⟩

namespace Command

variable {command : Command}

/-- The names in an enum that a command works on, if they have no escapes in its file. -/
theorem escape_not_mem_names {choice : EnumChoice} {chosen : ChosenEnum}
    (hchoice : command.choice? = some choice) (hload : choice.load read = .ok chosen)
    (hshown : ∀ text, command.Shows read text → '\x1b' ∉ text.toList) :
    ∀ member ∈ chosen.definition.members, '\x1b' ∉ member.name.toList := by
  rcases EnumChoice.load_eq_ok hload with ⟨known, rfl⟩ | ⟨path, definition, rfl, hread, rfl⟩
  · exact known.escape_not_mem_name
  · exact fun member hmember => hshown _ (.name hchoice hread hmember)

theorem run_format_eq_ok {value : Int64} {source : EnumChoice} {flags : Bool}
    (h : (format value source flags).run read = .ok pieces) :
    ∃ chosen, source.load read = .ok chosen ∧ pieces =
      [.plain (chosen.definition.display value (flags || chosen.isFlags) ++ "\n")] := by
  obtain ⟨chosen, hload, h⟩ := bind_eq_ok.mp h
  cases h
  exact ⟨chosen, hload, rfl⟩

theorem run_members_eq_ok {source : EnumChoice} (h : (members source).run read = .ok pieces) :
    ∃ chosen, source.load read = .ok chosen ∧ pieces = chosen.pieces := by
  obtain ⟨chosen, hload, h⟩ := bind_eq_ok.mp h
  cases h
  exact ⟨chosen, hload, rfl⟩

theorem run_tokens {tokenPath sourcePath source : String} {file : TokenFile}
    (hresults : loadResults read tokenPath = .ok file.results)
    (hsource : readFor read .source sourcePath = .ok source) (json : Bool) :
    (tokens tokenPath sourcePath json).run read =
      .ok (if json then [.plain ((file.report source).toJson.pretty ++ "\n")]
        else (file.report source).pieces) := by
  rw [run, hresults, hsource]
  rfl

theorem run_tokens_eq_ok {tokenPath sourcePath : String} {json : Bool}
    (h : (tokens tokenPath sourcePath json).run read = .ok pieces) :
    ∃ (file : TokenFile) (source : String), loadResults read tokenPath = .ok file.results ∧
      readFor read .source sourcePath = .ok source ∧
      pieces = if json then [.plain ((file.report source).toJson.pretty ++ "\n")]
        else (file.report source).pieces := by
  obtain ⟨results, hresults, h⟩ := bind_eq_ok.mp h
  obtain ⟨source, hsource, h⟩ := bind_eq_ok.mp h
  cases h
  obtain ⟨file, rfl⟩ := exists_file_of_loadResults hresults
  exact ⟨file, source, hresults, hsource, rfl⟩

theorem spaced_run (h : command.run read = .ok pieces) : Piece.Spaced pieces := by
  have hplain : ∀ text : String, Piece.Spaced [.plain (text ++ "\n")] :=
    fun text => .plain (getLast?_line text) .nil
  cases command with
  | format value source flags =>
    obtain ⟨chosen, -, rfl⟩ := run_format_eq_ok h
    exact hplain _
  | members source =>
    obtain ⟨chosen, -, rfl⟩ := run_members_eq_ok h
    exact chosen.spaced_pieces
  | tokens tokenPath sourcePath json =>
    obtain ⟨file, source, -, -, rfl⟩ := run_tokens_eq_ok h
    split
    · exact hplain _
    · exact Report.spaced_pieces (file.escape_not_mem_rows source)

theorem escape_not_mem_run (h : command.run read = .ok pieces)
    (hshown : ∀ text, command.Shows read text → '\x1b' ∉ text.toList) :
    ∀ piece ∈ pieces, '\x1b' ∉ piece.text.toList := by
  have hline : ∀ text : String, '\x1b' ∉ text.toList →
      ∀ piece ∈ [Piece.plain (text ++ "\n")], '\x1b' ∉ piece.text.toList := by
    intro text htext
    simp [Piece.text, htext]
  cases command with
  | format value source flags =>
    obtain ⟨chosen, hload, rfl⟩ := run_format_eq_ok h
    have hnames := escape_not_mem_names rfl hload hshown
    exact hline _ (EnumDefinition.escape_not_mem_display hnames _ _)
  | members source =>
    obtain ⟨chosen, hload, rfl⟩ := run_members_eq_ok h
    refine ChosenEnum.escape_not_mem_pieces ?_ (escape_not_mem_names rfl hload hshown)
    rcases EnumChoice.load_eq_ok hload with ⟨known, rfl⟩ | ⟨path, definition, rfl, -, rfl⟩
    · cases known <;> decide
    · exact hshown _ .stem
  | tokens tokenPath sourcePath json =>
    obtain ⟨file, source, hresults, -, rfl⟩ := run_tokens_eq_ok h
    cases json with
    | true => exact hline _ (escape_not_mem_pretty _)
    | false =>
      refine Report.escape_not_mem_pieces (ScanResults.not_mem_title _ (by decide)) ?_
        (file.escape_not_mem_rows source)
      intro error herror
      exact hshown _ (.message hresults (Array.mem_toList_iff.mp herror))

end Command

namespace CommandLine

variable {line : CommandLine} {coloured plain : String}

theorem run_eq_ok {colour : Bool} {output : String} :
    line.run read colour = .ok output ↔ ∃ pieces, line.command.run read = .ok pieces ∧
      renderPieces (colour && !line.noColor) pieces = output := by
  rw [run, bind_eq_ok]
  exact exists_congr fun pieces => and_congr_right fun _ => ⟨Except.ok.inj, congrArg Except.ok⟩

/-- Both outputs are made of the same pieces. -/
theorem strip_eq (hcoloured : line.run read true = .ok coloured)
    (hplain : line.run read false = .ok plain) :
    Style.strip coloured.toList = Style.strip plain.toList := by
  obtain ⟨pieces, hpieces, rfl⟩ := run_eq_ok.mp hcoloured
  obtain ⟨_, hpieces', rfl⟩ := run_eq_ok.mp hplain
  obtain rfl := Except.ok.inj (hpieces.symm.trans hpieces')
  cases line.noColor with
  | true => rfl
  | false => exact (Command.spaced_run hpieces).strip_renderPieces

theorem escape_not_mem_plain (hplain : line.run read false = .ok plain)
    (hshown : ∀ text, line.command.Shows read text → '\x1b' ∉ text.toList) :
    '\x1b' ∉ plain.toList := by
  obtain ⟨pieces, hpieces, rfl⟩ := run_eq_ok.mp hplain
  exact not_mem_renderPieces (Command.escape_not_mem_run hpieces hshown)

/-- Colour adds escape sequences to output and does nothing else; on a line that turns colour off it
adds none. -/
theorem strip_run :
    (∀ (line : CommandLine) (read : FileReader) (failure : Failure),
      line.run read true = .error failure ↔ line.run read false = .error failure) ∧
    (∀ (line : CommandLine) (read : FileReader) (coloured plain : String),
      line.run read true = .ok coloured → line.run read false = .ok plain →
      Style.strip coloured.toList = Style.strip plain.toList) ∧
    ∀ (line : CommandLine) (read : FileReader) (plain : String),
      (∀ text, line.command.Shows read text → '\x1b' ∉ text.toList) →
      line.run read false = .ok plain →
      '\x1b' ∉ plain.toList ∧ ∃ coloured, line.run read true = .ok coloured ∧
        Style.strip coloured.toList = plain.toList := by
  refine ⟨?_, fun _ _ _ _ hcoloured hplain => strip_eq hcoloured hplain, ?_⟩
  · intro line read failure
    rw [run_eq_error, run_eq_error]
  · intro line read plain hshown hplain
    have hnone := escape_not_mem_plain hplain hshown
    obtain ⟨pieces, hpieces, -⟩ := run_eq_ok.mp hplain
    have hcoloured : line.run read true = .ok _ := run_eq_ok.mpr ⟨pieces, hpieces, rfl⟩
    refine ⟨hnone, _, hcoloured, ?_⟩
    rw [strip_eq hcoloured hplain, Style.strip_of_not_mem hnone]

/-- A token file, and the text that was scanned. -/
def scanFiles (file : TokenFile) (source : String) : FileReader := fun path =>
  .ok (if path = "source.ts" then source else file.objectJson.compact)

theorem loadResults_scanFiles (file : TokenFile) (source : String) :
    loadResults (scanFiles file source) "tokens.json" = .ok file.results :=
  TokenFile.loadResults_eq (.inl (Json.hasText_compact _)) (congrArg _ (if_neg (by decide)))

theorem run_scanFiles (file : TokenFile) (source : String) (colour : Bool) :
    run ⟨false, .tokens "tokens.json" "source.ts" false⟩ (scanFiles file source) colour =
      .ok (renderPieces colour (file.report source).pieces) := by
  refine run_eq_ok.mpr ⟨(file.report source).pieces, ?_, by rw [Bool.not_false, Bool.and_true]⟩
  exact Command.run_tokens (loadResults_scanFiles file source) rfl false

/-- The messages of these files are the texts that are shown as they stand. -/
theorem exists_error_of_shows {file : TokenFile} {source text : String}
    (h : (Command.tokens "tokens.json" "source.ts" false).Shows (scanFiles file source) text) :
    ∃ error ∈ file.errors, error.message = text := by
  cases h with
  | name hchoice _ _ => cases hchoice
  | @message _ _ results error hresults herror =>
    rw [loadResults_scanFiles] at hresults
    cases hresults
    have herror : error ∈ (file.report source).errors := Array.mem_toList_iff.mpr herror
    rw [TokenFile.errors_report] at herror
    exact ⟨error, herror, rfl⟩

/-- A scan with sequences in its error, whole and broken off. -/
def escapedScan : TokenFile := ⟨[⟨80, 3⟩], [⟨"a\x1b[0mb\x1b[", 1⟩]⟩

theorem strip_run_reset :
    Style.strip (renderPieces true (escapedScan.report "let").pieces).toList =
      Style.strip (renderPieces false (escapedScan.report "let").pieces).toList ∧
    (∀ text, (Command.tokens "tokens.json" "source.ts" false).Shows (scanFiles failedScan "let x")
      text → '\x1b' ∉ text.toList) ∧
    Style.strip (renderPieces true (failedScan.report "let x").pieces).toList =
      (renderPieces false (failedScan.report "let x").pieces).toList := by
  have hshown : ∀ text, (Command.tokens "tokens.json" "source.ts" false).Shows
      (scanFiles failedScan "let x") text → '\x1b' ∉ text.toList := by
    intro text hshows
    obtain ⟨error, herror, rfl⟩ := exists_error_of_shows hshows
    rw [failedScan, List.mem_singleton] at herror
    rw [herror]
    decide
  obtain ⟨-, hstrip, hplain⟩ := strip_run
  refine ⟨hstrip _ _ _ _ (run_scanFiles escapedScan "let" true)
    (run_scanFiles escapedScan "let" false), hshown, ?_⟩
  obtain ⟨-, coloured, hcoloured, hequal⟩ :=
    hplain _ _ _ hshown (run_scanFiles failedScan "let x" false)
  rw [run_scanFiles] at hcoloured
  rw [← hequal, Except.ok.inj hcoloured]

end CommandLine

end TokenInspector
