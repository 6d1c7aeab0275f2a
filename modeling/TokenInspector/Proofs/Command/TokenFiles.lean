import TokenInspector.Command.Run
import TokenInspector.Proofs.Json.Buffered
import TokenInspector.Proofs.Json.Scanning

/-!
# Token files and token texts

A token file is read as a value first and then taken in one of two forms; a text of tokens is read
token by token. Wherever both readers succeed they give the same results, and a file is taken in
array form exactly if its text can be read token by token and is a value as a whole
(`loadResults_agrees`). Where only the token reader succeeds, a token has a field that nobody reads
and that is no value; where only the file reader does, the file is in object form.
-/

namespace TokenInspector

/-! ### What the readers accept -/

namespace TokenFile

variable {text : String} {json : Json Number} {file : TokenFile}

/-- The text is a value, and the value is a token file in array form. -/
def InArrayForm (text : String) : Prop :=
  ∃ json file, Json.ofText text = .ok json ∧ ofArray? json = some file

theorem ofArray?_eq_some :
    ofArray? json = some file ↔
      ∃ tokens, Json.records? ScannedToken json = some tokens ∧ file = ⟨tokens, []⟩ := by
  simp only [ofArray?, Option.map_eq_some_iff, @eq_comm _ file]

theorem ofJson?_of_ofArray? (h : ofArray? json = some file) : ofJson? json = some file := by
  unfold ofJson?
  rw [h]

theorem ofJson?_array (items : List (Json Number)) :
    ofJson? (.array items) = ofArray? (.array items) := by
  cases h : ofArray? (.array items) with
  | none =>
    unfold ofJson?
    rw [h]
  | some file => exact ofJson?_of_ofArray? h

theorem ofText_eq_ok :
    ofText text = .ok file ↔ ∃ json, Json.ofText text = .ok json ∧ ofJson? json = some file := by
  rw [ofText, Document.read_eq_ok, bind_eq_ok]
  simp only [Json.ofText_eq_ok]
  constructor
  · rintro ⟨⟨json, hvalue, hfile⟩, htrailing⟩
    refine ⟨json, ⟨hvalue, htrailing⟩, ?_⟩
    cases hjson : ofJson? json with
    | none => simp [hjson] at hfile
    | some other =>
      rw [hjson] at hfile
      cases hfile
      rfl
  · rintro ⟨json, ⟨hvalue, htrailing⟩, hfile⟩
    exact ⟨⟨json, hvalue, by rw [hfile]; rfl⟩, htrailing⟩

end TokenFile

theorem ScanResults.ofText_eq_ok {text : String} {results : ScanResults} :
    ofText text = .ok results ↔
      ∃ tokens, Record.listOfText ScannedToken text = .ok tokens ∧ results = ofTokens tokens :=
  map_eq_ok

theorem EnumDefinition.ofText_eq_array {text : String} :
    ofText text = .error (.notAnObject .array) ↔ ∃ items, Json.ofText text = .ok (.array items) := by
  rw [ofText]
  cases Json.ofText text with
  | error problem => simp
  | ok json => cases json <;> simp [ofJson, Except.mapError]

section

variable {read : FileReader} {path text : String} {json : Json Number} {results : ScanResults}

theorem loadResults_eq_ok (hread : read path = .ok text) :
    loadResults read path = .ok results ↔
      ∃ json file, Json.ofText text = .ok json ∧ TokenFile.ofJson? json = some file ∧
        results = file.results := by
  simp only [loadResults, readFor, hread, bind_eq_ok, mapError_eq_ok, TokenFile.ofText_eq_ok]
  constructor
  · rintro ⟨_, heq, file, ⟨json, hjson, hfile⟩, hresults⟩
    cases heq
    cases hresults
    exact ⟨json, file, hjson, hfile, rfl⟩
  · rintro ⟨json, file, hjson, hfile, rfl⟩
    exact ⟨text, rfl, file, ⟨json, hjson, hfile⟩, rfl⟩

/-! ### Agreement -/

/-- Tokens that are read from a value are read from its text. -/
theorem ofText_of_ofArray? {file : TokenFile} (hjson : Json.ofText text = .ok json)
    (hfile : TokenFile.ofArray? json = some file) : ScanResults.ofText text = .ok file.results := by
  obtain ⟨tokens, htokens, rfl⟩ := TokenFile.ofArray?_eq_some.mp hfile
  have hlist := Record.listOfText_toOption (α := ScannedToken) hjson
  rw [htokens] at hlist
  refine ScanResults.ofText_eq_ok.mpr ⟨tokens, ?_, rfl⟩
  cases hread : Record.listOfText ScannedToken text with
  | error problem =>
    rw [hread] at hlist
    cases hlist
  | ok read =>
    rw [hread] at hlist
    cases hlist
    rfl

/-- Tokens that are read from a text with a value are read from the value. -/
theorem exists_ofArray? (hjson : Json.ofText text = .ok json)
    (h : ScanResults.ofText text = .ok results) :
    ∃ file, TokenFile.ofArray? json = some file ∧ results = file.results := by
  obtain ⟨tokens, htokens, rfl⟩ := ScanResults.ofText_eq_ok.mp h
  refine ⟨⟨tokens, []⟩, TokenFile.ofArray?_eq_some.mpr ⟨tokens, ?_, rfl⟩, rfl⟩
  rw [← Record.listOfText_toOption hjson, htokens]
  rfl

theorem loadResults_of_ofText (hread : read path = .ok text) (hjson : Json.ofText text = .ok json)
    (h : ScanResults.ofText text = .ok results) : loadResults read path = .ok results := by
  obtain ⟨file, hfile, hresults⟩ := exists_ofArray? hjson h
  exact (loadResults_eq_ok hread).mpr
    ⟨json, file, hjson, TokenFile.ofJson?_of_ofArray? hfile, hresults⟩

/-- A text of tokens that is no value has an ignored field that is none. -/
theorem exists_ignored (h : ScanResults.ofText text = .ok results)
    (hjson : ∀ json, Json.ofText text ≠ .ok json) :
    ∃ records record item, (Document.ofText text).root = .array records none ∧ record ∈ records ∧
      RawValue.Ignored (Record.fields ScannedToken) record item ∧
      ∀ json, item.value (RawValue.maxDepth - 2) ≠ .ok json := by
  obtain ⟨tokens, htokens, -⟩ := ScanResults.ofText_eq_ok.mp h
  obtain ⟨hrecords, htrailing⟩ := Document.read_eq_ok.mp htokens
  obtain ⟨records, hroot, hlist⟩ := RawValue.exists_array_of_records hrecords
  -- If every ignored field were a value, so would be the whole text.
  by_contra hnone
  push Not at hnone
  obtain ⟨items, hitems⟩ := RawValue.exists_values_of_recordList hlist
    fun record hrecord item hitem => hnone records record item hroot hrecord hitem
  refine hjson (.array items) (Json.ofText_eq_ok.mpr ⟨?_, htrailing⟩)
  rw [hroot]
  exact RawValue.value_array_eq_ok.mpr ⟨_, items, rfl, rfl, hitems, rfl⟩

/-- A file is taken in array form exactly if its tokens can be read from its text and the text is a
value, and the results are the same. Where the readers differ, an ignored field is no value or the
file is in object form. -/
theorem loadResults_agrees (text : String) (read : FileReader) (path : String)
    (hread : read path = .ok text) :
    (∀ results, loadResults read path = .ok results ∧ TokenFile.InArrayForm text ↔
      ScanResults.ofText text = .ok results ∧
        EnumDefinition.ofText text = .error (.notAnObject .array)) ∧
    (∀ results results', loadResults read path = .ok results →
      ScanResults.ofText text = .ok results' → results = results') ∧
    (∀ results, ScanResults.ofText text = .ok results → loadResults read path = .ok results ∨
      ∃ records record item, (Document.ofText text).root = .array records none ∧
        record ∈ records ∧ RawValue.Ignored (Record.fields ScannedToken) record item ∧
        ∀ json, item.value (RawValue.maxDepth - 2) ≠ .ok json) ∧
    (∀ results, loadResults read path = .ok results → ScanResults.ofText text = .ok results ∨
      ∃ entries, Json.ofText text = .ok (.object entries)) := by
  refine ⟨fun results => ⟨?_, ?_⟩, ?_, ?_, ?_⟩
  · rintro ⟨hload, json, file, hjson, hfile⟩
    have htext := ofText_of_ofArray? hjson hfile
    obtain rfl := Except.ok.inj (hload.symm.trans (loadResults_of_ofText hread hjson htext))
    refine ⟨htext, EnumDefinition.ofText_eq_array.mpr ?_⟩
    cases json with
    | array items => exact ⟨items, hjson⟩
    | null | bool b | number n | text s | object entries => cases hfile
  · rintro ⟨htext, hkind⟩
    obtain ⟨items, hjson⟩ := EnumDefinition.ofText_eq_array.mp hkind
    obtain ⟨file, hfile, -⟩ := exists_ofArray? hjson htext
    exact ⟨loadResults_of_ofText hread hjson htext, _, file, hjson, hfile⟩
  · intro results results' hload htext
    obtain ⟨json, -, hjson, -, -⟩ := (loadResults_eq_ok hread).mp hload
    exact Except.ok.inj (hload.symm.trans (loadResults_of_ofText hread hjson htext))
  · intro results htext
    by_cases hvalue : ∃ json, Json.ofText text = .ok json
    · obtain ⟨json, hjson⟩ := hvalue
      exact .inl (loadResults_of_ofText hread hjson htext)
    · exact .inr (exists_ignored htext (not_exists.mp hvalue))
  · intro results hload
    obtain ⟨json, file, hjson, hfile, rfl⟩ := (loadResults_eq_ok hread).mp hload
    cases json with
    | array items => exact .inl (ofText_of_ofArray? hjson (TokenFile.ofJson?_array items ▸ hfile))
    | object entries => exact .inr ⟨entries, hjson⟩
    | null | bool b | number n | text s => cases hfile

end

/-! ### A field that nobody reads -/

/-- A token with one more field. -/
def recordWith (item : RawValue) : List (RawText × RawValue) :=
  [(⟨"end".toList.map .char, none⟩, .numeral ⟨false, [3], none, none⟩),
    (⟨"x".toList.map .char, none⟩, item),
    (⟨"kind".toList.map .char, none⟩, .numeral ⟨false, [8, 0], none, none⟩)]

theorem isTreeOf_recordWith {item : RawValue} {s : List Char} {text : String} (h : item.Spells s)
    (htext : text.toList = "[\x7b\"end\":3,\"x\":".toList ++ (s ++ ",\"kind\":80\x7d]".toList)) :
    (RawValue.array [.object (recordWith item) none] none).IsTreeOf text := by
  have hend := RawText.spells_plain (s := "end".toList) rfl
  have hx := RawText.spells_plain (s := "x".toList) rfl
  have hkind := RawText.spells_plain (s := "kind".toList) rfl
  have hthree : Numeral.Spells ⟨false, [3], none, none⟩ ['3'] :=
    Numeral.spells_digits false (s := ['3']) (by decide) rfl (by decide)
  have heighty : Numeral.Spells ⟨false, [8, 0], none, none⟩ ['8', '0'] :=
    Numeral.spells_digits false (s := ['8', '0']) (by decide) rfl (by decide)
  have hblank : Blank [] := List.forall_mem_nil _
  have hrecord := RawValue.SpellsEntries.more hblank hend hblank hblank (.numeral hthree) hblank
    (.more hblank hx hblank hblank h hblank
      (.one hblank hkind hblank hblank (.numeral heighty) hblank))
  refine ⟨[], _, [], hblank, .array (.one hblank (.object hrecord) hblank), hblank, ?_⟩
  rw [htext]
  simp

/-- A token with a field of another name. -/
def extraText : String := "[\x7b\"end\":3,\"x\":[\"\"],\"kind\":80\x7d]"

/-- A token with half of a surrogate pair under another name. -/
def surrogateText : String := "[\x7b\"end\":3,\"x\":\"\\ud800\",\"kind\":80\x7d]"

theorem isTreeOf_extraText : (RawValue.array [.object (recordWith
    (.array [.text ⟨[], none⟩] none)) none] none).IsTreeOf extraText :=
  isTreeOf_recordWith (.array (.one (List.forall_mem_nil _) (.text (.mk .nil))
    (List.forall_mem_nil _))) rfl

theorem isTreeOf_surrogateText : (RawValue.array [.object (recordWith
    (.text ⟨[.unit 0xd800], none⟩)) none] none).IsTreeOf surrogateText :=
  isTreeOf_recordWith (.text (.mk (.cons (.unit rfl) .nil))) rfl

theorem loadResults_agrees_surrogate :
    (loadResults (fun _ => .ok extraText) "tokens.json" = .ok (.ofTokens [⟨80, 3⟩]) ∧
      TokenFile.InArrayForm extraText) ∧
    ScanResults.ofText surrogateText = .ok (.ofTokens [⟨80, 3⟩]) ∧
    ∃ records record item, (Document.ofText surrogateText).root = .array records none ∧
      record ∈ records ∧ RawValue.Ignored (Record.fields ScannedToken) record item ∧
      ∀ json, item.value (RawValue.maxDepth - 2) ≠ .ok json := by
  have hextra : ScanResults.ofText extraText = .ok (.ofTokens [⟨80, 3⟩]) :=
    ScanResults.ofText_eq_ok.mpr ⟨[⟨80, 3⟩], Document.read_ofText isTreeOf_extraText _, rfl⟩
  have hkind : EnumDefinition.ofText extraText = .error (.notAnObject .array) :=
    EnumDefinition.ofText_eq_array.mpr ⟨_, Document.read_ofText isTreeOf_extraText _⟩
  have hsurrogate : ScanResults.ofText surrogateText = .ok (.ofTokens [⟨80, 3⟩]) :=
    ScanResults.ofText_eq_ok.mpr ⟨[⟨80, 3⟩], Document.read_ofText isTreeOf_surrogateText _, rfl⟩
  have hvalue : Json.ofText surrogateText = .error .malformed :=
    Document.read_ofText isTreeOf_surrogateText _
  have hload : loadResults (fun _ => .ok surrogateText) "tokens.json" ≠
      .ok (.ofTokens [⟨80, 3⟩]) := by
    intro hload
    obtain ⟨json, -, hjson, -⟩ :=
      (@loadResults_eq_ok (fun _ => .ok surrogateText) _ _ _ rfl).mp hload
    exact absurd (hvalue.symm.trans hjson) (by simp)
  obtain ⟨harray, -, -, -⟩ :=
    loadResults_agrees extraText (fun _ => .ok extraText) "tokens.json" rfl
  obtain ⟨-, -, hignored, -⟩ :=
    loadResults_agrees surrogateText (fun _ => .ok surrogateText) "tokens.json" rfl
  exact ⟨(harray _).mpr ⟨hextra, hkind⟩, hsurrogate, (hignored _ hsurrogate).resolve_left hload⟩

end TokenInspector
