import TokenInspector.Proofs.Command.Colour
import TokenInspector.Proofs.Enumeration.FlagNames

/-!
# The lines of members

The output of `members` without colour has a header and a line for each member
(`ChosenEnum.linesOf_pieces`), and `EnumMember.ofLine?` reads a line back, whatever the width of the
value and whatever the name begins with. For an enum file the lines give the sorted members of the
definition: what the entries of its object declare, by ascending value, and members of one value by
the places of their keys (`CommandLine.linesOf_members`).
-/

namespace TokenInspector

/-! ### The line of a member -/

namespace EnumMember

/-- The line of a member. -/
def line (member : EnumMember) : String :=
  padded 12 (decimal member.value) ++ "  " ++ member.name

/-- The characters of a decimal integer. -/
def isDecimal (c : Char) : Bool := c.isDigit || c = '-'

/-- Reads a line: blanks, an integer in decimal, two blanks, and the name, which is all that is
left. -/
def ofLine? (line : String) : Option EnumMember :=
  let shown := line.toList.dropWhile (· = ' ')
  match shown.dropWhile isDecimal with
  | ' ' :: ' ' :: name => do
    let value ← (String.ofList (shown.takeWhile isDecimal)).toInt?
    return ⟨← int64? value, String.ofList name⟩
  | _ => none

variable (member : EnumMember)

theorem toInt?_decimal (value : Int64) : (decimal value).toInt? = some value.toInt := by
  rw [decimal, Int.toString_eq_repr, Int.toInt?_repr]

theorem isDecimal_of_mem {value : Int64} {c : Char} (h : c ∈ (decimal value).toList) :
    isDecimal c = true := by
  rcases mem_decimal h with hdigit | rfl
  · rw [isDecimal, hdigit, Bool.true_or]
  · rfl

theorem toList_line : member.line.toList =
    Piece.padLeft 12 (decimal member.value).toList ++ ' ' :: ' ' :: member.name.toList := by
  simp [line, padded]

/-- No blank of the padding is left, and none of the value is skipped. -/
theorem dropWhile_line : member.line.toList.dropWhile (· = ' ') =
    (decimal member.value).toList ++ ' ' :: ' ' :: member.name.toList := by
  have hword := isWord_decimal member.value
  rw [toList_line, Piece.padLeft, List.append_assoc, List.dropWhile_append_of_pos (by simp)]
  cases htext : (decimal member.value).toList with
  | nil => exact absurd htext hword.ne_nil
  | cons c rest =>
    have hc : c ≠ ' ' := by
      rintro rfl
      exact hword.not_mem (by decide) (htext ▸ List.mem_cons_self)
    rw [List.cons_append, List.dropWhile_cons_of_neg (by simpa using hc)]

/-- A line tells its member. -/
theorem ofLine?_line : ofLine? member.line = some member := by
  have hdigits : ∀ c ∈ (decimal member.value).toList, isDecimal c = true :=
    fun c hc => isDecimal_of_mem hc
  simp only [ofLine?, dropWhile_line, List.dropWhile_append_of_pos hdigits,
    List.takeWhile_append_of_pos hdigits]
  rw [List.dropWhile_cons_of_neg (by decide), List.takeWhile_cons_of_neg (by decide)]
  simp [toInt?_decimal, int64?_toInt]

variable {member}

theorem newline_not_mem_line (h : '\n' ∉ member.name.toList) : '\n' ∉ member.line.toList := by
  have hpadded : '\n' ∉ Piece.padLeft 12 (decimal member.value).toList :=
    Piece.not_mem_padLeft (by decide) ((isWord_decimal _).not_mem (by decide))
  simp [toList_line, hpadded, h]

end EnumMember

/-! ### The lines of an enum -/

namespace ChosenEnum

variable {chosen : ChosenEnum}

/-- The first line: the name, and what kind of enum it is. -/
def header (chosen : ChosenEnum) : String :=
  chosen.name ++ if chosen.isFlags then " (flags)" else " (enum)"

theorem renderPieces_pieces (chosen : ChosenEnum) :
    renderPieces false chosen.pieces =
      unlines (chosen.header :: chosen.definition.sorted.map EnumMember.line) := by
  have hheader : chosen.header.toList ++ ['\n'] =
      chosen.name.toList ++ (if chosen.isFlags then " (flags)\n" else " (enum)\n").toList := by
    rw [header]
    split <;> simp
  rw [renderPieces, unlines, List.flatMap_cons, hheader]
  simp [pieces, Piece.render, Piece.padRight, List.flatMap_map, EnumMember.line, decimal]

theorem linesOf_pieces (hname : '\n' ∉ chosen.name.toList)
    (hnames : ∀ member ∈ chosen.definition.members, '\n' ∉ member.name.toList) :
    linesOf (renderPieces false chosen.pieces) =
      chosen.header :: chosen.definition.sorted.map EnumMember.line := by
  rw [renderPieces_pieces]
  refine linesOf_unlines (List.forall_mem_cons.mpr ⟨?_, List.forall_mem_map.mpr ?_⟩)
  · rw [header]
    split <;> simp [hname]
  · intro member hmember
    exact EnumMember.newline_not_mem_line (hnames member (EnumDefinition.mem_sorted.mp hmember))

end ChosenEnum

/-! ### The lines of an enum file -/

namespace EnumDefinition

/-- The members are what the entries of an object declare, by ascending value, and those of one value
by the places of their keys. -/
structure Lists (entries : List (String × Json Number)) (members : List EnumMember) : Prop where
  mem : ∀ member, member ∈ members ↔ ∃ n,
    Json.lastValue? entries member.name = some (.number n) ∧ n.memberValue? = some member.value
  names : (members.map (·.name)).Nodup
  ascending : members.Pairwise fun a b => a.value ≤ b.value
  ties : members.Pairwise fun a b => a.value = b.value →
    (Json.firstKeys entries).idxOf a.name < (Json.firstKeys entries).idxOf b.name

theorem lists_sorted (entries : List (String × Json Number)) :
    Lists entries (ofEntries entries).sorted where
  mem _ := mem_sorted.trans mem_ofEntries
  names := ((sorted_perm _).map _).nodup_iff.mpr (nodup_names entries)
  ascending := sorted_pairwise _
  ties := sorted_ties (members_pairwise_firstKeys entries)

end EnumDefinition

theorem Command.run_members_file {read : FileReader} {path : String} {pieces : List Piece} :
    (members ⟨some path, none⟩).run read = .ok pieces ↔ ∃ definition,
      loadDefinition read path = .ok definition ∧
        ChosenEnum.pieces ⟨Path.stem path, definition, false⟩ = pieces := by
  simp [run, EnumChoice.load, bind_eq_ok, pure, Except.pure]

namespace CommandLine

/-- The lines of an enum file without colour are a header and what is read back as the sorted members
of its definition. -/
theorem linesOf_members {noColor colour : Bool} {path output : String} {read : FileReader}
    (hrun : run ⟨noColor, .members ⟨some path, none⟩⟩ read colour = .ok output)
    (hcolour : (colour && !noColor) = false)
    (hshown : ∀ text, (Command.members ⟨some path, none⟩).Shows read text → '\n' ∉ text.toList) :
    ∃ text entries rows, read path = .ok text ∧ Json.ofText text = .ok (.object entries) ∧
      linesOf output = (Path.stem path ++ " (enum)") :: rows ∧
      rows.length = (EnumDefinition.ofEntries entries).size ∧
      rows.map EnumMember.ofLine? = (EnumDefinition.ofEntries entries).sorted.map some ∧
      EnumDefinition.Lists entries (EnumDefinition.ofEntries entries).sorted := by
  obtain ⟨pieces, hpieces, rfl⟩ := run_eq_ok.mp hrun
  obtain ⟨definition, hload, rfl⟩ := Command.run_members_file.mp hpieces
  obtain ⟨text, hread, htext, -⟩ := loadDefinition_eq_ok.mp hload
  obtain ⟨entries, hentries, rfl⟩ := EnumDefinition.ofText_eq_ok.mp htext
  have hnames : ∀ member ∈ (EnumDefinition.ofEntries entries).members, '\n' ∉ member.name.toList :=
    fun member hmember => hshown _ (.name rfl hload hmember)
  refine ⟨text, entries, (EnumDefinition.ofEntries entries).sorted.map EnumMember.line, hread,
    hentries, ?_, ?_, ?_, EnumDefinition.lists_sorted entries⟩
  · rw [hcolour, ChosenEnum.linesOf_pieces (hshown _ .stem) hnames]
    rfl
  · rw [List.length_map, (EnumDefinition.sorted_perm _).length_eq]
    rfl
  · simp only [List.map_map, Function.comp_def, EnumMember.ofLine?_line]

/-- Values wider than their column, and names that begin with digits or blanks or are empty. -/
def widePairs : List (String × Int64) :=
  [("7 up", 5), ("", Int64.minValue), ("  in", 5), ("High", Int64.maxValue)]

def wideText : String :=
  (EnumDefinition.entriesJson (widePairs.map fun (key, n) => (key, .integer n))).compact

theorem linesOf_members_wide :
    ∃ output, run ⟨false, .members ⟨some "wide.json", none⟩⟩ (fun _ => .ok wideText) false =
        .ok output ∧
      (∀ text, (Command.members ⟨some "wide.json", none⟩).Shows (fun _ => .ok wideText) text →
        '\n' ∉ text.toList) ∧
      ∃ rows, linesOf output = "wide (enum)" :: rows ∧ rows.map EnumMember.ofLine? =
        [some ⟨Int64.minValue, ""⟩, some ⟨5, "7 up"⟩, some ⟨5, "  in"⟩,
          some ⟨Int64.maxValue, "High"⟩] := by
  have hnodup : (widePairs.map (·.1)).Nodup := by decide
  have htext : EnumDefinition.ofText wideText = .ok (.ofPairs widePairs) := by
    rw [wideText, EnumDefinition.ofText_compact, EnumDefinition.declared_of_nodup hnodup]
  have hload : loadDefinition (fun _ => .ok wideText) "wide.json" = .ok (.ofPairs widePairs) :=
    loadDefinition_eq_ok.mpr ⟨wideText, rfl, htext, by decide⟩
  have hstem : Path.stem "wide.json" = "wide" := by decide
  have hshown : ∀ text, (Command.members ⟨some "wide.json", none⟩).Shows (fun _ => .ok wideText)
      text → '\n' ∉ text.toList := by
    intro text hshows
    cases hshows with
    | stem => exact hstem ▸ by decide
    | @name _ _ _ member hchoice hread hmember =>
      cases hchoice
      rw [hload] at hread
      cases hread
      have hnames : ∀ member ∈ (EnumDefinition.ofPairs widePairs).members,
          '\n' ∉ member.name.toList := by decide
      exact hnames member hmember
  have hrun : run ⟨false, .members ⟨some "wide.json", none⟩⟩ (fun _ => .ok wideText) false =
      .ok _ := run_eq_ok.mpr ⟨_, Command.run_members_file.mpr ⟨_, hload, rfl⟩, rfl⟩
  obtain ⟨text, entries, rows, hread, hentries, hlines, -, hrows, -⟩ :=
    linesOf_members hrun rfl hshown
  cases hread
  have hsame := (EnumDefinition.ofText_eq_ok.mpr ⟨_, hentries, rfl⟩).symm.trans htext
  refine ⟨_, hrun, hshown, rows, hstem ▸ hlines, ?_⟩
  rw [hrows, Except.ok.inj hsame]
  decide

end CommandLine

end TokenInspector
