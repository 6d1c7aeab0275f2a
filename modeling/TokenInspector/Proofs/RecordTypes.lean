import TokenInspector.Enumeration.Definition
import TokenInspector.Proofs.Json.Records
import TokenInspector.Scan.Token

/-!
# The types of records

Every type of record is lawful: a word of 16, 32 or 64 bits fits its field and is read back from it.
So a record of any type is read from all texts that represent it, by the names of its fields
(`record_represents`).
-/

namespace TokenInspector

/-! ### Words -/

theorem holds_natural {n : Nat} {high : Int} (hn : n ≤ high) (hhigh : high < UInt64.size) :
    (FieldType.integer 0 high).Holds (.integer n) :=
  ⟨by omega, hn, Int.le_trans (by decide : Int64.minValue.toInt ≤ 0) (by omega), by omega⟩

theorem holds_word16 (n : UInt16) : FieldType.word16.Holds (.integer n.toNat) := by
  have hlt : n.toNat < UInt16.size := n.toNat_lt
  exact holds_natural (by omega) (by decide)

theorem holds_word32 (n : UInt32) : FieldType.word32.Holds (.integer n.toNat) := by
  have hlt : n.toNat < UInt32.size := n.toNat_lt
  exact holds_natural (by omega) (by decide)

theorem holds_int64 (n : Int64) : FieldType.int64.Holds (.integer n.toInt) := by
  have hle := n.toInt_le
  have hlt : Int64.maxValue.toInt < UInt64.size := by decide
  exact ⟨n.minValue_le_toInt, hle, n.minValue_le_toInt, by omega⟩

theorem word16?_toNat (n : UInt16) : word16? n.toNat = some n := by
  have hlt : n.toNat < UInt16.size := n.toNat_lt
  rw [word16?, if_pos (by omega), Int.toNat_natCast, UInt16.ofNat_toNat]

theorem word32?_toNat (n : UInt32) : word32? n.toNat = some n := by
  have hlt : n.toNat < UInt32.size := n.toNat_lt
  rw [word32?, if_pos (by omega), Int.toNat_natCast, UInt32.ofNat_toNat]

theorem int64?_toInt (n : Int64) : int64? n.toInt = some n := by
  rw [int64?, if_pos ⟨n.minValue_le_toInt, n.toInt_le⟩, Int64.ofInt_toInt]

/-! ### Types -/

instance : LawfulRecord Position where
  nodup := by decide
  holds _ := .cons (holds_word32 _) (.cons (holds_word32 _) .nil)
  ofValues?_values _ := by simp [Record.ofValues?, Record.values, word32?_toNat]

instance : LawfulRecord Selection where
  nodup := by decide
  holds _ := .cons (holds_word32 _) (.cons (holds_word32 _) (.cons (holds_word32 _)
    (.cons (holds_word32 _) .nil)))
  ofValues?_values _ := by simp [Record.ofValues?, Record.values, word32?_toNat]

instance : LawfulRecord EnumMember where
  nodup := by decide
  holds _ := .cons (holds_int64 _) (.cons trivial .nil)
  ofValues?_values _ := by simp [Record.ofValues?, Record.values, int64?_toInt]

instance : LawfulRecord ScannedToken where
  nodup := by decide
  holds _ := .cons (holds_word16 _) (.cons (holds_word32 _) .nil)
  ofValues?_values _ := by simp [Record.ofValues?, Record.values, word16?_toNat, word32?_toNat]

instance : LawfulRecord NamedToken where
  nodup := by decide
  holds _ := .cons (holds_word16 _) (.cons trivial (.cons (holds_word32 _) .nil))
  ofValues?_values _ := by simp [Record.ofValues?, Record.values, word16?_toNat, word32?_toNat]

instance : LawfulRecord ScanError where
  nodup := by decide
  holds _ := .cons trivial (.cons (holds_word32 _) .nil)
  ofValues?_values _ := by simp [Record.ofValues?, Record.values, word32?_toNat]

instance : LawfulRecord TokenSpan where
  nodup := by decide
  holds _ := .cons (holds_word32 _) (.cons (holds_word32 _) .nil)
  ofValues?_values _ := by simp [Record.ofValues?, Record.values, word32?_toNat]

/-- A record of any type is read from the text that is written for it, from every object with its
fields, whatever their order and whatever else the object holds, and from the array of its values. -/
theorem record_represents :
    (∀ p : Position, Represents
      [("line", .integer p.line.toNat), ("character", .integer p.character.toNat)] p) ∧
    (∀ s : Selection, Represents
      [("selectionStartLineNumber", .integer s.startLine.toNat),
        ("selectionStartColumn", .integer s.startColumn.toNat),
        ("positionLineNumber", .integer s.endLine.toNat),
        ("positionColumn", .integer s.endColumn.toNat)] s) ∧
    (∀ m : EnumMember, Represents
      [("value", .integer m.value.toInt), ("name", .text m.name)] m) ∧
    (∀ t : ScannedToken, Represents
      [("kind", .integer t.kind.toNat), ("end", .integer t.stop.toNat)] t) ∧
    (∀ t : NamedToken, Represents
      [("kind", .integer t.kind.toNat), ("token", .text t.name), ("end", .integer t.stop.toNat)]
      t) ∧
    (∀ e : ScanError, Represents
      [("message", .text e.message), ("length", .integer e.length.toNat)] e) ∧
    (∀ s : TokenSpan, Represents
      [("start", .integer s.start.toNat), ("end", .integer s.stop.toNat)] s) :=
  ⟨LawfulRecord.represents, LawfulRecord.represents, LawfulRecord.represents,
    LawfulRecord.represents, LawfulRecord.represents, LawfulRecord.represents,
    LawfulRecord.represents⟩

example : (Record.ofText ScannedToken "\x7b\"end\": 7, \"x\": [1e999], \"kind\": 1\x7d").toOption =
    some ⟨1, 7⟩ := by
  cbv

end TokenInspector
