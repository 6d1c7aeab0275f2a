import TokenInspector.Proofs.Json.Keys
import TokenInspector.Proofs.RecordTypes

/-!
# Definitions from the entries of an object

A definition has a member for each key of an object whose last value is a whole number that fits 64
bits (`mem_ofEntries`): what stands under the key before does not count, whether it is a number or
not.

`ofText_entriesJson` follows the entries through their text: what is written as an object of
integers, texts, truth values and nulls is read as the definition of its integers.
-/

namespace TokenInspector

namespace EnumDefinition

/-! ### Members -/

section

variable {entries : List (String × Json Number)} {text : String} {definition : EnumDefinition}

theorem members_ofEntries (entries : List (String × Json Number)) :
    (ofEntries entries).members = (Json.firstKeys entries).filterMap fun key =>
      (Json.lastValue? entries key).bind fun json => memberOfEntry? (key, json) := by
  rw [ofEntries, Json.lastValues_eq, List.filterMap_filterMap]
  refine List.filterMap_congr fun key _ => ?_
  cases Json.lastValue? entries key <;> rfl

theorem memberOfEntry?_eq_some {name : String} {json : Json Number} {member : EnumMember} :
    memberOfEntry? (name, json) = some member ↔
      member.name = name ∧ ∃ n, json = .number n ∧ n.memberValue? = some member.value := by
  cases json with
  | number n =>
    simp only [Option.map_eq_some_iff, memberOfEntry?, Json.number.injEq, exists_eq_left']
    constructor
    · rintro ⟨value, hvalue, rfl⟩
      exact ⟨rfl, hvalue⟩
    · rintro ⟨rfl, hvalue⟩
      exact ⟨_, hvalue, rfl⟩
  | null | bool _ | text _ | array _ | object _ => simp [ memberOfEntry?]

/-- The members are the keys whose last value is a number that fits. -/
theorem mem_ofEntries {member : EnumMember} :
    member ∈ (ofEntries entries).members ↔ ∃ n,
      Json.lastValue? entries member.name = some (.number n) ∧
        n.memberValue? = some member.value := by
  rw [members_ofEntries, List.mem_filterMap]
  simp only [Option.bind_eq_some_iff, memberOfEntry?_eq_some]
  constructor
  · rintro ⟨_, -, json, hlast, rfl, n, rfl, hn⟩
    exact ⟨n, hlast, hn⟩
  · rintro ⟨n, hlast, hn⟩
    exact ⟨member.name, Json.mem_firstKeys hlast, _, hlast, rfl, n, rfl, hn⟩

theorem memberValue?_of_mem {name : String} {n : Number}
    (h : Json.lastValue? entries name = some (.number n)) {member : EnumMember}
    (hmember : member ∈ (ofEntries entries).members) (hname : member.name = name) :
    n.memberValue? = some member.value := by
  subst hname
  obtain ⟨found, hfound, hvalue⟩ := mem_ofEntries.mp hmember
  obtain rfl : n = found := by simpa [h] using hfound
  exact hvalue

/-- A key whose last value is a number names a member if the number is the value of one. -/
theorem mem_names_ofEntries {name : String} {n : Number}
    (h : Json.lastValue? entries name = some (.number n)) :
    name ∈ (ofEntries entries).members.map (·.name) ↔ ∃ value, n.memberValue? = some value := by
  constructor
  · intro hname
    obtain ⟨member, hmember, hname⟩ := List.mem_map.mp hname
    exact ⟨_, memberValue?_of_mem h hmember hname⟩
  · rintro ⟨value, hvalue⟩
    have hmember : ⟨value, name⟩ ∈ (ofEntries entries).members := mem_ofEntries.mpr ⟨_, h, hvalue⟩
    exact List.mem_map_of_mem hmember

theorem nodup_names (entries : List (String × Json Number)) :
    ((ofEntries entries).members.map (·.name)).Nodup := by
  rw [members_ofEntries, List.map_filterMap]
  refine (Json.nodup_firstKeys entries).filterMap ?_
  intro key key' name hkey hkey'
  simp only [Option.mem_def, Option.map_eq_some_iff, Option.bind_eq_some_iff,
    memberOfEntry?_eq_some] at hkey hkey'
  obtain ⟨member, ⟨_, -, rfl, -⟩, rfl⟩ := hkey
  obtain ⟨member', ⟨_, -, rfl, -⟩, hname⟩ := hkey'
  exact hname.symm

/-- The members stand by the places of their keys. -/
theorem members_pairwise_firstKeys (entries : List (String × Json Number)) :
    (ofEntries entries).members.Pairwise fun a b =>
      (Json.firstKeys entries).idxOf a.name < (Json.firstKeys entries).idxOf b.name := by
  have hnodup := Json.nodup_firstKeys entries
  have hkeys : (Json.firstKeys entries).Pairwise fun key next =>
      (Json.firstKeys entries).idxOf key < (Json.firstKeys entries).idxOf next := by
    rw [List.pairwise_iff_getElem]
    intro i j hi hj hij
    rwa [hnodup.idxOf_getElem, hnodup.idxOf_getElem]
  rw [members_ofEntries, List.pairwise_filterMap]
  refine hkeys.imp ?_
  intro key next hlt a ha b hb
  obtain ⟨_, -, ha⟩ := Option.bind_eq_some_iff.mp ha
  obtain ⟨_, -, hb⟩ := Option.bind_eq_some_iff.mp hb
  rwa [(memberOfEntry?_eq_some.mp ha).1, (memberOfEntry?_eq_some.mp hb).1]

theorem ofText_eq_ok : ofText text = .ok definition ↔
    ∃ entries, Json.ofText text = .ok (.object entries) ∧ definition = ofEntries entries := by
  rw [ofText]
  cases Json.ofText text with
  | error problem => simp
  | ok json => cases json <;> simp [ofJson, Except.mapError, @eq_comm _ definition]

end

end EnumDefinition

/-! ### Through the text -/

/-- A value of an entry: an integer of 64 bits, or what is no number and has no parts. -/
inductive EntryValue where
  | integer (n : Int64)
  | text (s : String)
  | bool (b : Bool)
  | null
  deriving DecidableEq, Repr

namespace EntryValue

def json : EntryValue → Json Int
  | integer n => .number n.toInt
  | text s => .text s
  | bool b => .bool b
  | null => .null

/-- The member that a key with the value declares. -/
def member? (key : String) : EntryValue → Option EnumMember
  | integer n => some ⟨n, key⟩
  | text _ | bool _ | null => none

theorem readable_json (value : EntryValue) (depth : Nat) : value.json.Readable depth := by
  cases value with
  | integer n => exact (holds_int64 n).readable
  | text _ | bool _ | null => trivial

theorem memberOfEntry?_json (key : String) (value : EntryValue) :
    EnumDefinition.memberOfEntry? (key, value.json.asRead) = value.member? key := by
  cases value with
  | integer n =>
    simp only [json, Json.asRead, EnumDefinition.memberOfEntry?, Number.memberValue?,
      int64?_toInt, Option.map_some, member?]
  | text _ | bool _ | null => rfl

end EntryValue

namespace EnumDefinition

/-- The object with these entries in order. -/
def entriesJson (entries : List (String × EntryValue)) : Json Int :=
  .object (entries.map fun (key, value) => (key, value.json))

/-- The members of an object: each key with its last value, in the place of its first entry, if
that value is an integer. -/
def declared (entries : List (String × EntryValue)) : List EnumMember :=
  (Json.firstKeys entries).filterMap fun key => (Json.lastValue? entries key).bind (·.member? key)

variable {entries : List (String × EntryValue)}

theorem mem_declared {member : EnumMember} : member ∈ declared entries ↔
    Json.lastValue? entries member.name = some (.integer member.value) := by
  rw [declared, List.mem_filterMap]
  constructor
  · rintro ⟨key, -, h⟩
    obtain ⟨value, hlast, hmember⟩ := Option.bind_eq_some_iff.mp h
    cases value with
    | integer n =>
      cases hmember
      exact hlast
    | text _ | bool _ | null => cases hmember
  · intro h
    exact ⟨member.name, Json.mem_firstKeys h, by rw [h]; rfl⟩

theorem asRead_entriesJson (entries : List (String × EntryValue)) :
    (entriesJson entries).asRead =
      .object (entries.map fun (key, value) => (key, value.json.asRead)) := by
  rw [entriesJson, Json.asRead, Json.asReadEntries_eq, List.map_map]
  rfl

theorem ofEntries_json (entries : List (String × EntryValue)) :
    ofEntries (entries.map fun (key, value) => (key, value.json.asRead)) = ⟨declared entries⟩ := by
  have hmembers := members_ofEntries (entries.map fun (key, value) => (key, value.json.asRead))
  rw [Json.firstKeys_map (fun value : EntryValue => value.json.asRead)] at hmembers
  simp only [Json.lastValue?_map (fun value : EntryValue => value.json.asRead), Option.bind_map,
    Function.comp_def, EntryValue.memberOfEntry?_json] at hmembers
  exact congrArg EnumDefinition.mk hmembers

/-- What is written for entries is read as the members that they declare. -/
theorem ofText_compact (entries : List (String × EntryValue)) :
    ofText (entriesJson entries).compact = .ok ⟨declared entries⟩ := by
  have hread : (entriesJson entries).Readable RawValue.maxDepth := by
    refine Json.readable_object.mpr fun entry hentry => ?_
    obtain ⟨⟨key, value⟩, -, rfl⟩ := List.mem_map.mp hentry
    exact value.readable_json _
  have hjson := (Json.hasText_compact (entriesJson entries)).ofText_eq hread
  rw [asRead_entriesJson] at hjson
  exact ofText_eq_ok.mpr ⟨_, hjson, (ofEntries_json entries).symm⟩

/-- Integers under distinct keys are all declared, in their order. -/
theorem declared_of_nodup {pairs : List (String × Int64)} (h : (pairs.map (·.1)).Nodup) :
    declared (pairs.map fun (key, n) => (key, .integer n)) = (ofPairs pairs).members := by
  have hnodup : ((pairs.map fun (key, n) => (key, EntryValue.integer n)).map (·.1)).Nodup := by
    rwa [List.map_map]
  have hlast : declared (pairs.map fun (key, n) => (key, .integer n)) =
      (Json.lastValues (pairs.map fun (key, n) => (key, EntryValue.integer n))).filterMap
        fun (key, value) => value.member? key := by
    rw [declared, Json.lastValues_eq, List.filterMap_filterMap]
    refine List.filterMap_congr fun key _ => ?_
    cases Json.lastValue? (pairs.map fun (key, n) => (key, EntryValue.integer n)) key <;> rfl
  rw [hlast, Json.lastValues_of_nodup hnodup, List.filterMap_map]
  rw [ofPairs, ← List.filterMap_eq_map]
  rfl

/-- An object of integers, texts, truth values and nulls is read as the definition that its entries
declare: the keys whose last value is an integer, with that integer, by their first places. The
names are distinct, and integers under distinct keys are read back as they are. -/
theorem ofText_entriesJson :
    (∀ entries, ∃ definition, ofText (entriesJson entries).compact = .ok definition ∧
      definition.members = (Json.firstKeys entries).filterMap (fun key =>
        (Json.lastValue? entries key).bind (·.member? key)) ∧
      (∀ member, member ∈ definition.members ↔
        Json.lastValue? entries member.name = some (.integer member.value)) ∧
      (definition.members.map (·.name)).Nodup ∧
      (∀ key s, Json.lastValue? entries key = some (.text s) →
        key ∉ definition.members.map (·.name))) ∧
    (∀ pairs : List (String × Int64), (pairs.map (·.1)).Nodup →
      ofText (entriesJson (pairs.map fun (key, n) => (key, .integer n))).compact =
        .ok (ofPairs pairs)) := by
  refine ⟨fun entries => ⟨_, ofText_compact entries, rfl, fun _ => mem_declared, ?_, ?_⟩, ?_⟩
  · rw [← ofEntries_json]
    exact nodup_names _
  · intro key s hlast hkey
    obtain ⟨member, hmember, rfl⟩ := List.mem_map.mp hkey
    rw [mem_declared, hlast] at hmember
    cases hmember
  · intro pairs h
    rw [ofText_compact, declared_of_nodup h]

/-- Entries in which a late null takes one member away and a late integer changes another. -/
def repeatedEntries : List (String × EntryValue) :=
  [("A", .integer 1), ("0", .text "A"), ("B", .integer Int64.minValue), ("A", .null),
    ("C\n\"", .integer 3), ("B", .integer Int64.maxValue)]

/-- The least and the greatest value, and a member without a name. -/
def extremePairs : List (String × Int64) :=
  [("Low", Int64.minValue), ("", -1), ("High", Int64.maxValue)]

theorem ofText_entriesJson_repeated :
    (extremePairs.map (·.1)).Nodup ∧
    ofText (entriesJson (extremePairs.map fun (key, n) => (key, .integer n))).compact =
      .ok (ofPairs extremePairs) ∧
    Json.lastValue? repeatedEntries "0" = some (.text "A") ∧
    ∃ definition, ofText (entriesJson repeatedEntries).compact = .ok definition ∧
      definition.members = [⟨Int64.maxValue, "B"⟩, ⟨3, "C\n\""⟩] ∧
      "0" ∉ definition.members.map (·.name) := by
  have hnodup : (extremePairs.map (·.1)).Nodup := by decide
  have hlast : Json.lastValue? repeatedEntries "0" = some (.text "A") := by decide
  obtain ⟨hentries, hpairs⟩ := ofText_entriesJson
  obtain ⟨definition, hread, hmembers, -, -, htexts⟩ := hentries repeatedEntries
  exact ⟨hnodup, hpairs _ hnodup, hlast, definition, hread, hmembers.trans (by decide),
    htexts "0" "A" hlast⟩

end EnumDefinition

end TokenInspector
