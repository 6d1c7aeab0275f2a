import TokenInspector.Proofs.Json.Buffered
import TokenInspector.Proofs.Json.Denotation
import TokenInspector.Proofs.Json.Writing
import Mathlib.Data.List.Forall2
import Mathlib.Data.List.Nodup

/-!
# Reading records

A record is lawful (`LawfulRecord`) if its field names are distinct, each of its values fits the
type of its field, and the values give the record back. A lawful record is read from every text that
represents it (`Represents`): the text that is written for it, any object that carries its fields
among entries of other names (`Carries`), and the array of its values.
-/

namespace TokenInspector

/-! ### Passing over values -/

namespace RawValue

mutual

/-- Every value can be passed over. -/
theorem Spells.skip_eq {raw : RawValue} {s : List Char} (h : raw.Spells s) : raw.skip = .ok () := by
  cases h with
  | null | bool _ | numeral _ | emptyArray _ | emptyObject _ => rfl
  | text ht =>
    cases ht
    rfl
  | array hitems =>
    rw [skip, hitems.skip_eq]
    rfl
  | object hentries =>
    rw [skip, hentries.skip_eq]
    rfl

theorem SpellsItems.skip_eq {items : List RawValue} {s : List Char} (h : SpellsItems items s) :
    skipItems items = .ok () := by
  cases h with
  | one _ hitem _ =>
    rw [skipItems, hitem.skip_eq]
    rfl
  | more _ hitem _ hitems =>
    rw [skipItems, hitem.skip_eq]
    exact hitems.skip_eq

theorem SpellsEntries.skip_eq {entries : List (RawText × RawValue)} {s : List Char}
    (h : SpellsEntries entries s) : skipEntries entries = .ok () := by
  cases h with
  | one _ hkey _ _ hitem _ =>
    cases hkey
    rw [skipEntries, hitem.skip_eq]
    rfl
  | more _ hkey _ _ hitem _ hentries =>
    cases hkey
    rw [skipEntries, hitem.skip_eq]
    exact hentries.skip_eq

end

theorem IsTreeOf.skip_of_mem {entries : List (RawText × RawValue)} {text : String}
    (h : (RawValue.object entries none).IsTreeOf text) :
    ∀ entry ∈ entries, entry.2.skip = .ok () := by
  intro entry hentry
  obtain ⟨_, hspells⟩ := h.spells_of_mem entry hentry
  exact hspells.skip_eq

end RawValue

/-! ### Fields -/

/-- The value fits the type, and it has 64 bits if it is an integer. -/
def FieldType.Holds : FieldType → FieldValue → Prop
  | integer low high, .integer n => low ≤ n ∧ n ≤ high ∧ Numeral.IsWord n
  | text, .text _ => True
  | _, _ => False

theorem FieldType.Holds.readable {type : FieldType} {value : FieldValue} (h : type.Holds value)
    {depth : Nat} : (Json.ofFieldValue value).Readable depth := by
  cases type with
  | integer low high =>
    cases value with
    | integer n => exact h.2.2
    | text s => exact h.elim
  | text =>
    cases value with
    | integer n => exact h.elim
    | text s => trivial

/-- The object of named field values. -/
def Json.ofFields (fields : List (String × FieldValue)) : Json Int :=
  .object (fields.map fun (name, value) => (name, ofFieldValue value))

/-- The array of field values. -/
def Json.ofValues (fields : List (String × FieldValue)) : Json Int :=
  .array (fields.map fun (_, value) => ofFieldValue value)

/-- The entries of an object carry fields: each field once, in any order, among entries whose names
are not in `names`. -/
inductive Carries (names : List String) :
    List (RawText × RawValue) → List (String × FieldValue) → Prop
  | nil : Carries names [] []
  | other {key : RawText} {name : String} {raw : RawValue} {entries : List (RawText × RawValue)}
      {fields : List (String × FieldValue)} : key.Denotes name → name ∉ names →
      Carries names entries fields → Carries names ((key, raw) :: entries) fields
  | field {key : RawText} {name : String} {raw : RawValue} {value : FieldValue}
      {entries : List (RawText × RawValue)} {before after : List (String × FieldValue)} :
      key.Denotes name → raw.Denotes (Json.ofFieldValue value) →
      Carries names entries (before ++ after) →
      Carries names ((key, raw) :: entries) (before ++ (name, value) :: after)

/-- Entries carry the fields that stand among them in order. -/
theorem carries_of_denotes {names : List String} {fields : List (String × FieldValue)}
    {raws : List (RawText × RawValue)} {entries : List (String × Json Int)}
    (h : RawValue.DenotesEntries raws entries)
    (hfields : entries.filter (·.1 ∈ names) =
      fields.map fun (name, value) => (name, Json.ofFieldValue value)) :
    Carries names raws fields := by
  induction entries generalizing raws fields with
  | nil =>
    cases h
    cases fields with
    | nil => exact .nil
    | cons field fields => cases hfields
  | cons entry rest ih =>
    cases h with
    | @cons _ _ _ name _ _ hkey hraw hraws =>
      by_cases hname : name ∈ names
      · cases fields with
        | nil => simp [hname] at hfields
        | cons field fields =>
          simp only [List.filter_cons, hname, decide_true, if_true, List.map_cons,
            List.cons.injEq, Prod.mk.injEq] at hfields
          obtain ⟨⟨rfl, rfl⟩, hfields⟩ := hfields
          exact @Carries.field names _ _ _ _ _ [] fields hkey hraw (ih hraws hfields)
      · simp only [List.filter_cons, hname, decide_false, Bool.false_eq_true, if_false] at hfields
        exact .other hkey hname (ih hraws hfields)

namespace RawValue

variable {fields : List Field}

theorem fieldValue_eq {type : FieldType} {value : FieldValue} {raw : RawValue}
    (h : type.Holds value) (hraw : raw.Denotes (Json.ofFieldValue value)) :
    fieldValue type raw = .ok value := by
  cases type with
  | integer low high =>
    cases value with
    | integer n =>
      obtain ⟨hlow, hhigh, hword⟩ := h
      cases hraw with
      | number hn =>
        simp only [fieldValue, hn.read_eq hword, FieldType.ofNumber?, hlow, hhigh, and_self,
          if_true, bind, Except.bind, pure, Except.pure]
    | text s => exact h.elim
  | text =>
    cases value with
    | integer n => exact h.elim
    | text s =>
      cases hraw with
      | text ht =>
        rw [fieldValue, ht.decode_eq]
        rfl

/-- An entry under another name is passed over. -/
theorem entryFields_other {key : RawText} {name : String} {raw : RawValue}
    (hkey : key.Denotes name) (hname : name ∉ fields.map (·.name)) (hskip : raw.skip = .ok ())
    (found : List (String × FieldValue)) (rest : List (RawText × RawValue)) :
    entryFields fields found ((key, raw) :: rest) = entryFields fields found rest := by
  have hfind : fields.find? (·.name = name) = none := by
    rw [List.find?_eq_none]
    intro field hfield heq
    exact hname (List.mem_map.mpr ⟨field, hfield, of_decide_eq_true heq⟩)
  simp only [entryFields, hkey.decode_eq, hfind, hskip, bind, Except.bind]

/-- An entry of a field is found, once. -/
theorem entryFields_field {key : RawText} {name : String} {raw : RawValue} {value : FieldValue}
    {field : Field} (hkey : key.Denotes name) (hfind : fields.find? (·.name = name) = some field)
    (hread : fieldValue field.type raw = .ok value) {found : List (String × FieldValue)}
    (hfresh : found.lookup name = none) (rest : List (RawText × RawValue)) :
    entryFields fields found ((key, raw) :: rest) =
      entryFields fields ((name, value) :: found) rest := by
  simp only [entryFields, hkey.decode_eq, hfind, hfresh, Option.isSome_none, Bool.false_eq_true,
    if_false, hread, bind, Except.bind]

/-- A name that was met moves from the fields to come to the fields that were found. -/
theorem lookup_found {name : String} {found before after : List (String × FieldValue)}
    (hfound : found.lookup name = none) (hbefore : name ∉ before.map (·.1)) (value : FieldValue)
    (other : String) :
    (((name, value) :: found).lookup other).or ((before ++ after).lookup other) =
      (found.lookup other).or ((before ++ (name, value) :: after).lookup other) := by
  rw [List.lookup_append, List.lookup_append, List.lookup_cons, List.lookup_cons]
  cases heq : other == name with
  | false => rfl
  | true =>
    obtain rfl : other = name := by simpa using heq
    have hnone : before.lookup other = none := by
      rw [List.lookup_eq_none_iff]
      intro p hp
      exact bne_iff_ne.mpr fun h => hbefore (List.mem_map.mpr ⟨p, hp, h.symm⟩)
    rw [hfound, hnone]
    rfl

/-- The fields of an object are found, whatever their order and whatever stands between them. -/
theorem entryFields_eq {entries : List (RawText × RawValue)}
    {remaining : List (String × FieldValue)}
    (h : Carries (fields.map (·.name)) entries remaining)
    (hskip : ∀ entry ∈ entries, entry.2.skip = .ok ())
    (hholds : ∀ p ∈ remaining, ∃ field, fields.find? (·.name = p.1) = some field ∧
      field.type.Holds p.2)
    (hnodup : (remaining.map (·.1)).Nodup) (found : List (String × FieldValue))
    (hfresh : ∀ p ∈ remaining, found.lookup p.1 = none) :
    ∃ found', entryFields fields found entries = .ok found' ∧
      ∀ name, found'.lookup name = (found.lookup name).or (remaining.lookup name) := by
  -- Each entry of a field moves one name from `remaining` to `found`, so no lookup changes.
  induction h generalizing found with
  | nil => exact ⟨found, rfl, fun name => by simp⟩
  | @other key name raw entries remaining hkey hname _ ih =>
    obtain ⟨hraw, hskip⟩ := List.forall_mem_cons.mp hskip
    rw [entryFields_other hkey hname hraw]
    exact ih hskip hholds hnodup found hfresh
  | @field key name raw value entries before after hkey hraw _ ih =>
    obtain ⟨-, hskip⟩ := List.forall_mem_cons.mp hskip
    have hperm : (before ++ (name, value) :: after).Perm ((name, value) :: (before ++ after)) :=
      List.perm_middle
    obtain ⟨hname, hnodup⟩ : name ∉ (before ++ after).map (·.1) ∧
        ((before ++ after).map (·.1)).Nodup := by
      rwa [(hperm.map _).nodup_iff, List.map_cons, List.nodup_cons] at hnodup
    obtain ⟨⟨field, hfind, hvalue⟩, hholds⟩ :=
      List.forall_mem_cons.mp fun p hp => hholds p (hperm.mem_iff.mpr hp)
    obtain ⟨hnone, hfresh⟩ := List.forall_mem_cons.mp fun p hp => hfresh p (hperm.mem_iff.mpr hp)
    have hfresh' : ∀ p ∈ before ++ after, ((name, value) :: found).lookup p.1 = none := by
      intro p hp
      have hne : p.1 ≠ name := fun heq => hname (List.mem_map.mpr ⟨p, hp, heq⟩)
      rw [List.lookup_cons, beq_eq_false_iff_ne.mpr hne]
      exact hfresh p hp
    obtain ⟨found', hread, hlookup⟩ := ih hskip hholds hnodup _ hfresh'
    have hbefore : name ∉ before.map (·.1) := fun hmem =>
      hname (List.map_append ▸ List.mem_append_left _ hmem)
    rw [entryFields_field hkey hfind (fieldValue_eq hvalue hraw) hnone]
    exact ⟨found', hread, fun other =>
      (hlookup other).trans (lookup_found hnone hbefore value other)⟩

theorem itemFields_eq {values : List FieldValue} {raws : List RawValue}
    (hholds : List.Forall₂ (fun field value => field.type.Holds value) fields values)
    (h : DenotesItems raws (values.map Json.ofFieldValue)) :
    itemFields fields raws none = .ok values := by
  induction hholds generalizing raws with
  | nil =>
    cases h
    rfl
  | cons hvalue _ ih =>
    cases h with
    | cons hraw hraws =>
      rw [itemFields, fieldValue_eq hvalue hraw, ih hraws]
      rfl

/-- Fields that were all found are put in order. -/
theorem inOrder?_eq {values : List FieldValue} {found : List (String × FieldValue)}
    (h : List.Forall₂ (fun field value => found.lookup field.name = some value) fields values) :
    inOrder? fields found = some values := by
  rw [inOrder?]
  induction h with
  | nil => rfl
  | cons hvalue _ ih =>
    rw [List.mapM_cons, hvalue, ih]
    rfl

end RawValue

/-! ### Lawful records -/

theorem mapM_map_eq_some {α β : Type} {write : α → β} {read : β → Option α}
    (h : ∀ a, read (write a) = some a) (items : List α) :
    (items.map write).mapM read = some items := by
  induction items with
  | nil => rfl
  | cons item rest ih =>
    rw [List.map_cons, List.mapM_cons, h, ih]
    rfl

/-- The values of a record by the names of their fields. -/
def Record.named {α : Type} [Record α] (record : α) : List (String × FieldValue) :=
  ((Record.fields α).map (·.name)).zip (Record.values record)

theorem Json.ofFields_named {α : Type} [Record α] (record : α) :
    Json.ofFields (Record.named record) = Json.ofRecord record := by
  rw [Json.ofFields, Json.ofRecord, Record.named, List.zip_map_right]
  rfl

theorem Record.exists_of_mem_named {α : Type} [Record α] {record : α} {p : String × FieldValue}
    (h : p ∈ Record.named record) : ∃ field value, p = (field.name, value) ∧
      (field, value) ∈ (Record.fields α).zip (Record.values record) := by
  rw [Record.named, List.zip_map_left, List.mem_map] at h
  obtain ⟨⟨field, value⟩, hmem, rfl⟩ := h
  exact ⟨field, value, rfl, hmem⟩

/-- Field names are distinct, values fit their fields, and the values give the record back. -/
class LawfulRecord (α : Type) [Record α] : Prop where
  nodup : ((Record.fields α).map (·.name)).Nodup
  holds : ∀ record : α,
    List.Forall₂ (fun field value => field.type.Holds value) (Record.fields α) (Record.values record)
  ofValues?_values : ∀ record : α, Record.ofValues? (Record.values record) = some record

/-- A record is read from its own text, which is the text of its fields in order; from every object
that carries its fields; and from the array of its values. -/
structure Represents {α : Type} [Record α] (fields : List (String × FieldValue)) (record : α) :
    Prop where
  written : Record.toText record = (Json.ofFields fields).compact
  own : Record.ofText α (Record.toText record) = .ok record
  object : ∀ entries text, (RawValue.object entries none).IsTreeOf text →
    Carries (fields.map (·.1)) entries fields → Record.ofText α text = .ok record
  array : ∀ text, (Json.ofValues fields).HasText text → Record.ofText α text = .ok record

namespace LawfulRecord

variable {α : Type} [Record α] [LawfulRecord α]

theorem map_fst_named (record : α) :
    (Record.named record).map (·.1) = (Record.fields α).map (·.name) := by
  have hlength := (holds record).length_eq
  rw [Record.named, List.map_fst_zip (by rw [List.length_map]; omega)]

theorem map_snd_named (record : α) : (Record.named record).map (·.2) = Record.values record := by
  have hlength := (holds record).length_eq
  rw [Record.named, List.map_snd_zip (by rw [List.length_map]; omega)]

theorem find?_name {field : Field} (h : field ∈ Record.fields α) :
    (Record.fields α).find? (·.name = field.name) = some field := by
  cases hfind : (Record.fields α).find? (·.name = field.name) with
  | none =>
    rw [List.find?_eq_none] at hfind
    exact absurd (decide_eq_true rfl) (hfind field h)
  | some other =>
    have hname : other.name = field.name := by simpa using List.find?_some hfind
    have hmem := List.mem_of_find?_eq_some hfind
    rw [List.inj_on_of_nodup_map nodup hmem h hname]

theorem lookup_named {record : α} {name : String} {value : FieldValue}
    (h : (name, value) ∈ Record.named record) :
    (Record.named record).lookup name = some value := by
  have hnodup : ((Record.named record).map (·.1)).Nodup := map_fst_named record ▸ nodup
  cases hlookup : (Record.named record).lookup name with
  | none =>
    rw [List.lookup_eq_none_iff] at hlookup
    simpa using hlookup _ h
  | some other =>
    obtain ⟨before, after, heq, -⟩ := List.lookup_eq_some_iff.mp hlookup
    have hmem : (name, other) ∈ Record.named record := by simp [heq]
    have hsame := List.inj_on_of_nodup_map hnodup hmem h rfl
    exact congrArg (some ·.2) hsame

theorem record_array {raws : List RawValue} (record : α)
    (h : RawValue.DenotesItems raws ((Record.values record).map Json.ofFieldValue)) :
    RawValue.record α (.array raws none) = .ok record := by
  rw [RawValue.record, RawValue.fieldValues, RawValue.itemFields_eq (holds record) h]
  simp only [bind, Except.bind, ofValues?_values]
  rfl

theorem record_object {entries : List (RawText × RawValue)} (record : α)
    (hskip : ∀ entry ∈ entries, entry.2.skip = .ok ())
    (h : Carries ((Record.fields α).map (·.name)) entries (Record.named record)) :
    RawValue.record α (.object entries none) = .ok record := by
  obtain ⟨hlength, hzip⟩ := List.forall₂_iff_zip.mp (holds record)
  have hholds : ∀ p ∈ Record.named record, ∃ field,
      (Record.fields α).find? (·.name = p.1) = some field ∧ field.type.Holds p.2 := by
    intro p hp
    obtain ⟨field, value, rfl, hmem⟩ := Record.exists_of_mem_named hp
    exact ⟨field, find?_name (List.of_mem_zip hmem).1, hzip hmem⟩
  have hnodup : ((Record.named record).map (·.1)).Nodup := map_fst_named record ▸ nodup
  obtain ⟨found, hread, hlookup⟩ :=
    RawValue.entryFields_eq h hskip hholds hnodup [] (fun _ _ => rfl)
  have horder : RawValue.inOrder? (Record.fields α) found = some (Record.values record) := by
    refine RawValue.inOrder?_eq (List.forall₂_iff_zip.mpr ⟨hlength, ?_⟩)
    intro field value hmem
    rw [hlookup, List.lookup_nil, Option.none_or]
    apply lookup_named
    rw [Record.named, List.zip_map_left]
    exact List.mem_map_of_mem hmem
  rw [RawValue.record, RawValue.fieldValues, hread]
  simp only [bind, Except.bind, checkFlaw, horder, pure, Except.pure, ofValues?_values]

/-- A value that carries the fields of a record is read as the record. -/
theorem record?_object {entries : List (String × Json Int)} {record : α} {depth : Nat}
    (hfields : entries.filter (·.1 ∈ (Record.fields α).map (·.name)) =
      (Record.named record).map fun (name, value) => (name, Json.ofFieldValue value))
    (hread : (Json.object entries).Readable depth) :
    Json.record? α (Json.object entries).asRead = some record := by
  -- The value has a text, and the record is read from the tree of that text.
  obtain ⟨raw, htree, hdenotes⟩ := Json.hasText_compact (.object entries)
  have hvalue := hdenotes.value_eq hread
  cases hdenotes with
  | object hentries =>
    have hrecord := record_object record htree.skip_of_mem (carries_of_denotes hentries hfields)
    rw [← RawValue.record_toOption hvalue, hrecord]
    rfl

theorem filter_named (record : α) :
    ((Record.named record).map fun (name, value) => (name, Json.ofFieldValue value)).filter
        (·.1 ∈ (Record.fields α).map (·.name)) =
      (Record.named record).map fun (name, value) => (name, Json.ofFieldValue value) := by
  rw [List.filter_eq_self]
  intro entry hentry
  obtain ⟨p, hp, rfl⟩ := List.mem_map.mp hentry
  rw [← map_fst_named record]
  exact decide_eq_true (List.mem_map_of_mem hp)

theorem readable_ofRecord (record : α) (depth : Nat) :
    (Json.ofRecord record).Readable (depth + 1) := by
  rw [← Json.ofFields_named, Json.ofFields, Json.readable_object]
  intro entry hentry
  obtain ⟨p, hp, rfl⟩ := List.mem_map.mp hentry
  obtain ⟨field, value, rfl, hmem⟩ := Record.exists_of_mem_named hp
  exact ((List.forall₂_iff_zip.mp (holds record)).2 hmem).readable

theorem readable_records (records : List α) (depth : Nat) :
    (Json.array (records.map Json.ofRecord)).Readable (depth + 2) := by
  rw [Json.readable_array]
  intro json hjson
  obtain ⟨record, -, rfl⟩ := List.mem_map.mp hjson
  exact readable_ofRecord record depth

theorem record?_ofRecord (record : α) :
    Json.record? α (Json.ofRecord record).asRead = some record := by
  have hread := readable_ofRecord record 0
  rw [← Json.ofFields_named, Json.ofFields] at hread ⊢
  exact record?_object (filter_named record) hread

theorem records?_ofRecord (records : List α) :
    Json.records? α (Json.array (records.map Json.ofRecord)).asRead = some records := by
  rw [Json.asRead, Json.asReadItems_eq, Json.records?, List.map_map]
  exact mapM_map_eq_some record?_ofRecord records

theorem represents (record : α) : Represents (Record.named record) record where
  written := by rw [Json.ofFields_named, Record.toText]
  own := by
    obtain ⟨raw, htree, hdenotes⟩ := Json.hasText_compact (Json.ofRecord record)
    rw [Record.toText, Record.ofText, Document.read_ofText htree]
    rw [← Json.ofFields_named, Json.ofFields] at hdenotes
    cases hdenotes with
    | object hentries =>
      exact record_object record htree.skip_of_mem
        (carries_of_denotes hentries (filter_named record))
  object entries text htree hcarries := by
    rw [Record.ofText, Document.read_ofText htree]
    exact record_object record htree.skip_of_mem (map_fst_named record ▸ hcarries)
  array text htext := by
    obtain ⟨raw, htree, hdenotes⟩ := htext
    cases hdenotes with
    | array hitems =>
      rw [Record.ofText, Document.read_ofText htree]
      refine record_array record ?_
      rw [← map_snd_named record, List.map_map]
      exact hitems

end LawfulRecord

end TokenInspector
