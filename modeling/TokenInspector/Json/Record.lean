import TokenInspector.Json.Read
import TokenInspector.Json.Write

/-!
# Records

A record type lists its fields once, and the list serves writing and reading. A record is written
as an object with its fields in order. It is read from an object that has each field once, in any
order and among other entries, which are passed over, or from an array of exactly its field values
in order. `RawValue.fieldValues` reads the tree of a text and reports the first problem;
`Json.fieldValues?` takes the fields from a value that was read before.
-/

namespace TokenInspector

/-- What a field holds. -/
inductive FieldType where
  | integer (low high : Int)
  | text
  deriving DecidableEq, Repr

namespace FieldType

/-- Unsigned integers of 16 bits. -/
def word16 : FieldType := integer 0 (UInt16.size - 1)

/-- Unsigned integers of 32 bits. -/
def word32 : FieldType := integer 0 (UInt32.size - 1)

/-- Signed integers of 64 bits. -/
def int64 : FieldType := integer Int64.minValue.toInt Int64.maxValue.toInt

end FieldType

/-- A field by its name in text. -/
structure Field where
  name : String
  type : FieldType
  deriving DecidableEq, Repr

/-- The value of a field. -/
inductive FieldValue where
  | integer (n : Int)
  | text (s : String)
  deriving DecidableEq, Repr

/-- A type whose values are written and read field by field. -/
class Record (α : Type) where
  fields : List Field
  values : α → List FieldValue
  ofValues? : List FieldValue → Option α

namespace FieldType

/-- The value of a number in a field: integers in range only. -/
def ofNumber? (type : FieldType) (number : Number) : Option FieldValue :=
  match type, number with
  | integer low high, .integer n => if low ≤ n ∧ n ≤ high then some (.integer n) else none
  | _, _ => none

end FieldType

/-! ### From the tree of a text -/

namespace RawValue

/-- Reads the value of a field. -/
def fieldValue (type : FieldType) (raw : RawValue) : Except Problem FieldValue :=
  match type, raw with
  | .integer _ _, numeral n => do
    let number ← n.read
    match type.ofNumber? number with
    | some found => return found
    | none => .error .mismatched
  | .text, text t => do return .text (← t.decode)
  | _, raw => .error raw.mismatch

/-- Reads the fields in order from the items of an array; no item may be left over. -/
def itemFields (fields : List Field) (items : List RawValue) (flaw : Option Problem) :
    Except Problem (List FieldValue) :=
  match fields, items with
  | [], [] => do
    checkFlaw flaw
    return []
  | [], _ :: _ => .error .malformed
  | _ :: _, [] => .error (flaw.getD .mismatched)
  | field :: fields, item :: items => do
    let found ← fieldValue field.type item
    let rest ← itemFields fields items flaw
    return found :: rest

/-- Reads the entries of an object one by one; `found` holds the fields met before. -/
def entryFields (fields : List Field) (found : List (String × FieldValue)) :
    List (RawText × RawValue) → Except Problem (List (String × FieldValue))
  | [] => .ok found
  | (key, item) :: rest => do
    let name ← key.decode
    match fields.find? (·.name = name) with
    | none =>
      skip item
      entryFields fields found rest
    | some field =>
      if (found.lookup name).isSome then .error .mismatched
      else
        let read ← fieldValue field.type item
        entryFields fields ((name, read) :: found) rest

/-- The fields in order, if all were met. -/
def inOrder? (fields : List Field) (found : List (String × FieldValue)) :
    Option (List FieldValue) :=
  fields.mapM fun field => found.lookup field.name

/-- Reads the field values of a record. -/
def fieldValues (fields : List Field) : RawValue → Except Problem (List FieldValue)
  | array items flaw => itemFields fields items flaw
  | object entries flaw => do
    let found ← entryFields fields [] entries
    checkFlaw flaw
    match inOrder? fields found with
    | some read => return read
    | none => .error .mismatched
  | raw => .error raw.mismatch

/-- Reads a record. -/
def record (α : Type) [Record α] (raw : RawValue) : Except Problem α := do
  match Record.ofValues? (← fieldValues (Record.fields α) raw) with
  | some record => return record
  | none => .error .mismatched

/-- Reads records one by one. -/
def recordList (α : Type) [Record α] : List RawValue → Except Problem (List α)
  | [] => .ok []
  | item :: rest => do
    let first ← record α item
    let others ← recordList α rest
    return first :: others

/-- Reads an array of records. -/
def records (α : Type) [Record α] : RawValue → Except Problem (List α)
  | array items flaw => do
    let read ← recordList α items
    checkFlaw flaw
    return read
  | raw => .error raw.mismatch

end RawValue

/-! ### From a value -/

namespace Json

/-- The value of a field. -/
def fieldValue? (type : FieldType) : Json Number → Option FieldValue
  | number n => type.ofNumber? n
  | text s => if type = .text then some (.text s) else none
  | _ => none

/-- The fields in order from exactly as many items. -/
def itemFields? : List Field → List (Json Number) → Option (List FieldValue)
  | [], [] => some []
  | field :: fields, item :: items => do
    let found ← fieldValue? field.type item
    let rest ← itemFields? fields items
    return found :: rest
  | _, _ => none

/-- The fields among the entries of an object; `found` holds those met before. -/
def entryFields? (fields : List Field) (found : List (String × FieldValue)) :
    List (String × Json Number) → Option (List (String × FieldValue))
  | [] => some found
  | (name, item) :: rest =>
    match fields.find? (·.name = name) with
    | none => entryFields? fields found rest
    | some field =>
      if (found.lookup name).isSome then none
      else do
        let read ← fieldValue? field.type item
        entryFields? fields ((name, read) :: found) rest

/-- The field values of a record. -/
def fieldValues? (fields : List Field) : Json Number → Option (List FieldValue)
  | array items => itemFields? fields items
  | object entries => do RawValue.inOrder? fields (← entryFields? fields [] entries)
  | _ => none

/-- The record that a value is. -/
def record? (α : Type) [Record α] (json : Json Number) : Option α := do
  Record.ofValues? (← fieldValues? (Record.fields α) json)

/-- The records that an array holds. -/
def records? (α : Type) [Record α] : Json Number → Option (List α)
  | array items => items.mapM (record? α)
  | _ => none

/-- The JSON value of a field value. -/
def ofFieldValue : FieldValue → Json Int
  | .integer n => number n
  | .text s => text s

/-- The object of a record. -/
def ofRecord {α : Type} [Record α] (record : α) : Json Int :=
  object (((Record.fields α).map (·.name)).zip ((Record.values record).map ofFieldValue))

end Json

namespace Record

/-- Reads a text as one record. -/
def ofText (α : Type) [Record α] (text : String) : Except Problem α :=
  (Document.ofText text).read (RawValue.record α)

/-- Reads a text as an array of records. -/
def listOfText (α : Type) [Record α] (text : String) : Except Problem (List α) :=
  (Document.ofText text).read (RawValue.records α)

/-- The text of a record without blanks. -/
def toText {α : Type} [Record α] (record : α) : String := (Json.ofRecord record).compact

end Record

end TokenInspector
