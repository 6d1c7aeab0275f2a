import TokenInspector.Json.Record
import Mathlib.Data.List.Forall2

/-!
# Reading at once and reading from the text

A reader can walk the tree of a text, or take apart the value of the whole text. Where the tree has
a value the two agree (`records_toOption`). The tree of records has a value if every value that no
reader asks for has one (`Ignored`, `exists_values_of_recordList`).
-/

namespace TokenInspector

/-! ### Sequences -/

theorem bind_eq_ok {ε α β : Type} {x : Except ε α} {f : α → Except ε β} {b : β} :
    (x >>= f) = .ok b ↔ ∃ a, x = .ok a ∧ f a = .ok b := by
  cases x <;> simp [bind, Except.bind]

theorem map_eq_ok {ε α β : Type} {x : Except ε α} {f : α → β} {b : β} :
    f <$> x = .ok b ↔ ∃ a, x = .ok a ∧ b = f a := by
  cases x <;> simp [Functor.map, Except.map, eq_comm]

theorem mapError_eq_ok {ε ε' α : Type} {x : Except ε α} {f : ε → ε'} {a : α} :
    x.mapError f = .ok a ↔ x = .ok a := by
  cases x <;> simp [Except.mapError]

theorem bind_eq_error {ε α β : Type} {x : Except ε α} {f : α → Except ε β} {e : ε} :
    (x >>= f) = .error e ↔ x = .error e ∨ ∃ a, x = .ok a ∧ f a = .error e := by
  cases x <;> simp [bind, Except.bind]

theorem bind_pure_eq_error {ε α β : Type} {x : Except ε α} {f : α → β} {e : ε} :
    (x >>= fun a => pure (f a)) = .error e ↔ x = .error e := by
  cases x <;> simp [bind, Except.bind, pure, Except.pure]

theorem mapError_eq_error {ε ε' α : Type} {x : Except ε α} {f : ε → ε'} {e : ε'} :
    x.mapError f = .error e ↔ ∃ cause, x = .error cause ∧ e = f cause := by
  cases x <;> simp [Except.mapError, eq_comm]

theorem toOption_bind {ε α β : Type} (x : Except ε α) (f : α → Except ε β) :
    (x >>= f).toOption = x.toOption.bind fun a => (f a).toOption := by
  cases x <;> rfl

namespace RawText

theorem flaw_of_decodePieces {pieces : List TextPiece} {flaw : Option Problem} {s : List Char}
    (h : decodePieces pieces flaw = .ok s) : flaw = none := by
  fun_induction decodePieces pieces flaw generalizing s with
  | case1 => rfl
  | case2 | case4 | case6 | case8 | case10 | case11 => cases h
  | case3 _ _ _ ih | case5 _ _ _ _ _ _ _ ih | case7 _ _ _ _ _ _ ih | case9 _ _ _ _ _ ih
  | case12 _ _ _ _ ih =>
    obtain ⟨_, hrest, -⟩ := bind_eq_ok.mp h
    exact ih hrest

theorem flaw_of_decode {t : RawText} {s : String} (h : t.decode = .ok s) : t.flaw = none := by
  cases hpieces : decodePieces t.pieces t.flaw with
  | error problem => simp [decode, hpieces, Except.map] at h
  | ok pieces => exact flaw_of_decodePieces hpieces

end RawText

namespace RawValue

variable {depth : Nat}

/-! ### Values -/

theorem values_eq_ok {raws : List RawValue} {items : List (Json Number)} :
    values depth raws = .ok items ↔
      List.Forall₂ (fun raw item => raw.value depth = .ok item) raws items := by
  induction raws generalizing items with
  | nil => simp [values, eq_comm]
  | cons raw rest ih =>
    simp [values, bind_eq_ok, map_eq_ok, List.forall₂_cons_left_iff, ih]

theorem entryValues_eq_ok {raws : List (RawText × RawValue)}
    {entries : List (String × Json Number)} :
    entryValues depth raws = .ok entries ↔
      List.Forall₂ (fun raw entry => raw.1.decode = .ok entry.1 ∧ raw.2.value depth = .ok entry.2)
        raws entries := by
  induction raws generalizing entries with
  | nil => simp [entryValues, eq_comm]
  | cons raw rest ih =>
    simp [entryValues, bind_eq_ok, map_eq_ok, List.forall₂_cons_left_iff, ih, and_assoc]

theorem value_numeral_eq_ok {n : Numeral} {json : Json Number} :
    (numeral n).value depth = .ok json ↔ ∃ number, n.read = .ok number ∧ json = .number number := by
  simp [value, map_eq_ok]

theorem value_text_eq_ok {t : RawText} {json : Json Number} :
    (text t).value depth = .ok json ↔ ∃ s, t.decode = .ok s ∧ json = .text s := by
  simp [value, map_eq_ok]

theorem value_array_eq_ok {raws : List RawValue} {flaw : Option Problem} {json : Json Number} :
    (array raws flaw).value depth = .ok json ↔ ∃ inner items, depth = inner + 1 ∧ flaw = none ∧
      values inner raws = .ok items ∧ json = .array items := by
  cases depth with
  | zero => simp [value]
  | succ inner => cases flaw <;> simp [value, bind_eq_ok, checkFlaw, @eq_comm _ json]

theorem value_object_eq_ok {raws : List (RawText × RawValue)} {flaw : Option Problem}
    {json : Json Number} :
    (object raws flaw).value depth = .ok json ↔ ∃ inner entries, depth = inner + 1 ∧ flaw = none ∧
      entryValues inner raws = .ok entries ∧ json = .object entries := by
  cases depth with
  | zero => simp [value]
  | succ inner => cases flaw <;> simp [value, bind_eq_ok, checkFlaw, @eq_comm _ json]

mutual

/-- A tree that has a value can be passed over. -/
theorem skip_of_value {depth : Nat} : ∀ {raw : RawValue} {json : Json Number},
    raw.value depth = .ok json → raw.skip = .ok ()
  | null, _, _ | bool _, _, _ | numeral _, _, _ => rfl
  | cutNumeral, _, h | broken _, _, h => by cases h
  | text t, _, h => by
    obtain ⟨s, hdecode, -⟩ := value_text_eq_ok.mp h
    rw [skip, RawText.flaw_of_decode hdecode]
    rfl
  | array items flaw, _, h => by
    obtain ⟨inner, _, rfl, rfl, hitems, -⟩ := value_array_eq_ok.mp h
    rw [skip, skipItems_of_values hitems]
    rfl
  | object entries flaw, _, h => by
    obtain ⟨inner, _, rfl, rfl, hentries, -⟩ := value_object_eq_ok.mp h
    rw [skip, skipEntries_of_entryValues hentries]
    rfl

theorem skipItems_of_values {depth : Nat} : ∀ {raws : List RawValue} {items : List (Json Number)},
    values depth raws = .ok items → skipItems raws = .ok ()
  | [], _, _ => rfl
  | raw :: rest, _, h => by
    obtain ⟨_, _, hraw, hrest, -⟩ := List.forall₂_cons_left_iff.mp (values_eq_ok.mp h)
    rw [skipItems, skip_of_value hraw]
    exact skipItems_of_values (values_eq_ok.mpr hrest)

theorem skipEntries_of_entryValues {depth : Nat} :
    ∀ {raws : List (RawText × RawValue)} {entries : List (String × Json Number)},
    entryValues depth raws = .ok entries → skipEntries raws = .ok ()
  | [], _, _ => rfl
  | (key, raw) :: rest, _, h => by
    obtain ⟨_, _, ⟨hkey, hraw⟩, hrest, -⟩ :=
      List.forall₂_cons_left_iff.mp (entryValues_eq_ok.mp h)
    rw [skipEntries, RawText.flaw_of_decode hkey, skip_of_value hraw]
    exact skipEntries_of_entryValues (entryValues_eq_ok.mpr hrest)

end

/-! ### Records of a value -/

theorem fieldValue_toOption (type : FieldType) {raw : RawValue} {json : Json Number}
    (h : raw.value depth = .ok json) :
    (fieldValue type raw).toOption = Json.fieldValue? type json := by
  cases raw with
  | cutNumeral | broken problem => cases h
  | null | bool b =>
    cases h
    cases type <;> rfl
  | numeral n =>
    obtain ⟨number, hread, rfl⟩ := value_numeral_eq_ok.mp h
    cases type with
    | integer low high =>
      rw [fieldValue, hread, Json.fieldValue?]
      cases hnumber : (FieldType.integer low high).ofNumber? number <;>
        simp [hnumber, bind, Except.bind, pure, Except.pure, Except.toOption]
    | text => rfl
  | text t =>
    obtain ⟨s, hdecode, rfl⟩ := value_text_eq_ok.mp h
    cases type with
    | integer low high => rfl
    | text =>
      rw [fieldValue, hdecode]
      rfl
  | array items flaw =>
    obtain ⟨_, _, -, -, -, rfl⟩ := value_array_eq_ok.mp h
    cases type <;> rfl
  | object entries flaw =>
    obtain ⟨_, _, -, -, -, rfl⟩ := value_object_eq_ok.mp h
    cases type <;> rfl

theorem itemFields_toOption {fields : List Field} {raws : List RawValue}
    {items : List (Json Number)} (h : values depth raws = .ok items) :
    (itemFields fields raws none).toOption = Json.itemFields? fields items := by
  rw [values_eq_ok] at h
  induction h generalizing fields with
  | nil => cases fields <;> rfl
  | cons hraw _ ih =>
    cases fields with
    | nil => rfl
    | cons field fields =>
      rw [itemFields, toOption_bind, fieldValue_toOption _ hraw, Json.itemFields?, ← ih]
      simp only [toOption_bind]
      rfl

theorem entryFields_toOption {fields : List Field} {raws : List (RawText × RawValue)}
    {entries : List (String × Json Number)} (h : entryValues depth raws = .ok entries)
    (found : List (String × FieldValue)) :
    (entryFields fields found raws).toOption = Json.entryFields? fields found entries := by
  rw [entryValues_eq_ok] at h
  induction h generalizing found with
  | nil => rfl
  | @cons raw entry _ _ hraw _ ih =>
    obtain ⟨key, raw⟩ := raw
    obtain ⟨name, item⟩ := entry
    obtain ⟨hkey, hraw⟩ := hraw
    dsimp only at hkey hraw
    rw [entryFields, hkey, Json.entryFields?]
    cases hfind : fields.find? (·.name = name) with
    | none =>
      simp only [bind, Except.bind, hfind, skip_of_value hraw]
      exact ih found
    | some field =>
      simp only [bind, Except.bind, hfind]
      split
      · rfl
      · have hread := fieldValue_toOption field.type hraw
        rw [← hread]
        cases fieldValue field.type raw with
        | error problem => rfl
        | ok read => exact ih _

theorem fieldValues_toOption {fields : List Field} {raw : RawValue} {json : Json Number}
    (h : raw.value depth = .ok json) :
    (fieldValues fields raw).toOption = Json.fieldValues? fields json := by
  cases raw with
  | cutNumeral | broken problem => cases h
  | null | bool b =>
    cases h
    rfl
  | numeral n =>
    obtain ⟨number, -, rfl⟩ := value_numeral_eq_ok.mp h
    rfl
  | text t =>
    obtain ⟨s, -, rfl⟩ := value_text_eq_ok.mp h
    rfl
  | array items flaw =>
    obtain ⟨_, _, -, rfl, hitems, rfl⟩ := value_array_eq_ok.mp h
    exact itemFields_toOption hitems
  | object entries flaw =>
    obtain ⟨_, _, -, rfl, hentries, rfl⟩ := value_object_eq_ok.mp h
    rw [fieldValues, toOption_bind, entryFields_toOption hentries, Json.fieldValues?]
    refine congrArg _ (funext fun found => ?_)
    simp only [checkFlaw, bind, Except.bind]
    cases inOrder? fields found <;> rfl

variable {α : Type} [Record α]

theorem record_toOption {raw : RawValue} {json : Json Number} (h : raw.value depth = .ok json) :
    (record α raw).toOption = Json.record? α json := by
  rw [record, toOption_bind, fieldValues_toOption h, Json.record?]
  refine congrArg _ (funext fun read => ?_)
  cases (Record.ofValues? read : Option α) <;> rfl

theorem recordList_toOption {raws : List RawValue} {items : List (Json Number)}
    (h : values depth raws = .ok items) :
    (recordList α raws).toOption = items.mapM (Json.record? α) := by
  rw [values_eq_ok] at h
  induction h with
  | nil => rfl
  | cons hraw _ ih =>
    rw [recordList, toOption_bind, record_toOption hraw, List.mapM_cons, ← ih]
    simp only [toOption_bind]
    rfl

/-- Records are read from a tree as they are from its value. -/
theorem records_toOption {raw : RawValue} {json : Json Number} (h : raw.value depth = .ok json) :
    (records α raw).toOption = Json.records? α json := by
  cases raw with
  | cutNumeral | broken problem => cases h
  | null | bool b =>
    cases h
    rfl
  | numeral n =>
    obtain ⟨number, -, rfl⟩ := value_numeral_eq_ok.mp h
    rfl
  | text t =>
    obtain ⟨s, -, rfl⟩ := value_text_eq_ok.mp h
    rfl
  | array items flaw =>
    obtain ⟨_, _, -, rfl, hitems, rfl⟩ := value_array_eq_ok.mp h
    rw [records, toOption_bind, recordList_toOption hitems, Json.records?]
    exact Option.bind_fun_some _
  | object entries flaw =>
    obtain ⟨_, _, -, rfl, -, rfl⟩ := value_object_eq_ok.mp h
    rfl

/-! ### Values of records -/

/-- A value that an object holds under none of the names of the fields. -/
inductive Ignored (fields : List Field) : RawValue → RawValue → Prop
  | mk {entries : List (RawText × RawValue)} {flaw : Option Problem} {key : RawText}
      {item : RawValue} {name : String} : (key, item) ∈ entries → key.decode = .ok name →
      name ∉ fields.map (·.name) → Ignored fields (object entries flaw) item

theorem exists_value_of_fieldValue {type : FieldType} {raw : RawValue} {read : FieldValue}
    (h : fieldValue type raw = .ok read) : ∃ json, raw.value depth = .ok json := by
  cases raw with
  | numeral n =>
    cases type with
    | integer low high =>
      obtain ⟨number, hread, -⟩ := bind_eq_ok.mp h
      exact ⟨_, value_numeral_eq_ok.mpr ⟨number, hread, rfl⟩⟩
    | text => cases h
  | text t =>
    cases type with
    | integer low high => cases h
    | text =>
      obtain ⟨s, hdecode, -⟩ := bind_eq_ok.mp h
      exact ⟨_, value_text_eq_ok.mpr ⟨s, hdecode, rfl⟩⟩
  | null | bool b | cutNumeral | array items flaw | object entries flaw | broken problem =>
    cases type <;> cases h

theorem exists_values_of_itemFields {fields : List Field} {raws : List RawValue}
    {flaw : Option Problem} {read : List FieldValue} (h : itemFields fields raws flaw = .ok read) :
    flaw = none ∧ ∃ items, values depth raws = .ok items := by
  induction raws generalizing fields read with
  | nil =>
    cases fields with
    | nil =>
      cases flaw with
      | none => exact ⟨rfl, [], rfl⟩
      | some problem => cases h
    | cons field fields => cases h
  | cons raw rest ih =>
    cases fields with
    | nil => cases h
    | cons field fields =>
      obtain ⟨found, hfound, h⟩ := bind_eq_ok.mp h
      obtain ⟨others, hothers, -⟩ := bind_eq_ok.mp h
      obtain ⟨json, hraw⟩ := exists_value_of_fieldValue hfound
      obtain ⟨hflaw, items, hrest⟩ := ih hothers
      refine ⟨hflaw, json :: items, ?_⟩
      rw [values, hraw, hrest]
      rfl

/-- An entry that was read is under another name, or its value is that of a field. -/
theorem entryFields_cons_eq_ok {fields : List Field} {key : RawText} {raw : RawValue}
    {rest : List (RawText × RawValue)} {found read : List (String × FieldValue)}
    (h : entryFields fields found ((key, raw) :: rest) = .ok read) :
    ∃ name found', key.decode = .ok name ∧ entryFields fields found' rest = .ok read ∧
      (name ∉ fields.map (·.name) ∨ ∃ type value, fieldValue type raw = .ok value) := by
  obtain ⟨name, hkey, h⟩ := bind_eq_ok.mp h
  cases hfind : fields.find? (·.name = name) with
  | none =>
    simp only [hfind] at h
    obtain ⟨-, -, hrest⟩ := bind_eq_ok.mp h
    rw [List.find?_eq_none] at hfind
    exact ⟨name, found, hkey, hrest, .inl (by simpa using hfind)⟩
  | some field =>
    simp only [hfind] at h
    split at h
    · cases h
    · obtain ⟨value, hvalue, hrest⟩ := bind_eq_ok.mp h
      exact ⟨name, _, hkey, hrest, .inr ⟨field.type, value, hvalue⟩⟩

theorem exists_entryValues_of_entryFields {fields : List Field}
    {raws : List (RawText × RawValue)} {found read : List (String × FieldValue)}
    (h : entryFields fields found raws = .ok read)
    (hignored : ∀ raw ∈ raws, ∀ name, raw.1.decode = .ok name → name ∉ fields.map (·.name) →
      ∃ json, raw.2.value depth = .ok json) :
    ∃ entries, entryValues depth raws = .ok entries := by
  induction raws generalizing found with
  | nil => exact ⟨[], rfl⟩
  | cons raw rest ih =>
    obtain ⟨key, raw⟩ := raw
    obtain ⟨hraw, hignored⟩ := List.forall_mem_cons.mp hignored
    obtain ⟨name, found', hkey, hrest, hvalue⟩ := entryFields_cons_eq_ok h
    obtain ⟨json, hjson⟩ : ∃ json, raw.value depth = .ok json := by
      rcases hvalue with hname | ⟨type, value, hvalue⟩
      · exact hraw name hkey hname
      · exact exists_value_of_fieldValue hvalue
    obtain ⟨entries, hentries⟩ := ih hrest hignored
    refine ⟨(name, json) :: entries, ?_⟩
    rw [entryValues, hkey, hjson, hentries]
    rfl

theorem exists_value_of_record {raw : RawValue} {read : α} (h : record α raw = .ok read)
    (hignored : ∀ item, Ignored (Record.fields α) raw item → ∃ json, item.value depth = .ok json) :
    ∃ json, raw.value (depth + 1) = .ok json := by
  obtain ⟨fieldsRead, hread, -⟩ := bind_eq_ok.mp h
  cases raw with
  | array items flaw =>
    obtain ⟨hflaw, items, hitems⟩ : flaw = none ∧ ∃ read, values depth items = .ok read :=
      exists_values_of_itemFields hread
    exact ⟨_, value_array_eq_ok.mpr ⟨depth, items, rfl, hflaw, hitems, rfl⟩⟩
  | object entries flaw =>
    obtain ⟨found, hfound, hrest⟩ := bind_eq_ok.mp hread
    cases flaw with
    | some problem => cases hrest
    | none =>
      obtain ⟨entries, hentries⟩ := exists_entryValues_of_entryFields hfound
        fun entry hentry name hkey hname => hignored entry.2 ⟨hentry, hkey, hname⟩
      exact ⟨_, value_object_eq_ok.mpr ⟨depth, entries, rfl, rfl, hentries, rfl⟩⟩
  | null | bool b | numeral n | cutNumeral | text t | broken problem => cases hread

theorem exists_values_of_recordList {raws : List RawValue} {read : List α}
    (h : recordList α raws = .ok read)
    (hignored : ∀ raw ∈ raws, ∀ item, Ignored (Record.fields α) raw item →
      ∃ json, item.value depth = .ok json) :
    ∃ items, values (depth + 1) raws = .ok items := by
  induction raws generalizing read with
  | nil => exact ⟨[], rfl⟩
  | cons raw rest ih =>
    obtain ⟨hraw, hignored⟩ := List.forall_mem_cons.mp hignored
    obtain ⟨first, hfirst, h⟩ := bind_eq_ok.mp h
    obtain ⟨others, hothers, -⟩ := bind_eq_ok.mp h
    obtain ⟨json, hjson⟩ := exists_value_of_record hfirst hraw
    obtain ⟨items, hitems⟩ := ih hothers hignored
    refine ⟨json :: items, ?_⟩
    rw [values, hjson, hitems]
    rfl

theorem exists_array_of_records {raw : RawValue} {read : List α} (h : records α raw = .ok read) :
    ∃ raws, raw = .array raws none ∧ recordList α raws = .ok read := by
  cases raw with
  | array raws flaw =>
    obtain ⟨read', hread, h⟩ := bind_eq_ok.mp h
    cases flaw with
    | some problem => cases h
    | none =>
      cases h
      exact ⟨raws, rfl, hread⟩
  | null | bool b | numeral n | cutNumeral | text t | object entries flaw | broken problem => cases h

end RawValue

/-! ### Documents -/

theorem Document.read_eq_ok {β : Type} {document : Document}
    {reader : RawValue → Except Problem β} {read : β} :
    document.read reader = .ok read ↔
      reader document.root = .ok read ∧ document.trailing = false := by
  rw [Document.read, bind_eq_ok]
  cases document.trailing <;> simp [pure, Except.pure]

theorem Json.ofText_eq_ok {text : String} {json : Json Number} :
    Json.ofText text = .ok json ↔
      (Document.ofText text).root.value RawValue.maxDepth = .ok json ∧
        (Document.ofText text).trailing = false :=
  Document.read_eq_ok

/-- Where a text has a value, the records of the text are those of the value. -/
theorem Record.listOfText_toOption {α : Type} [Record α] {text : String} {json : Json Number}
    (h : Json.ofText text = .ok json) : (listOfText α text).toOption = Json.records? α json := by
  obtain ⟨hvalue, htrailing⟩ := Json.ofText_eq_ok.mp h
  rw [← RawValue.records_toOption hvalue, listOfText, Document.read, htrailing]
  cases RawValue.records α (Document.ofText text).root <;> rfl

end TokenInspector
