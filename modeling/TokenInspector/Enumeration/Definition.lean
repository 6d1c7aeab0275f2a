import TokenInspector.Ordering
import TokenInspector.Json.Record

/-!
# Enum definitions

An enum definition lists named 64-bit integers in declaration order; two members may share a value
or a name. `EnumDefinition.sorted` lists the members by ascending value, members of one value in
declaration order. `EnumDefinition.ofJson` takes the members from a JSON object: one for each key
whose value is a whole number that fits 64 bits.
-/

namespace TokenInspector

/-- The integer as 64 bits, if it fits. -/
def int64? (n : Int) : Option Int64 :=
  if Int64.minValue.toInt ≤ n ∧ n ≤ Int64.maxValue.toInt then some (Int64.ofInt n) else none

/-- A named value of an enum. -/
structure EnumMember where
  value : Int64
  name : String
  deriving DecidableEq, Repr

instance : Record EnumMember where
  fields := [⟨"value", .int64⟩, ⟨"name", .text⟩]
  values member := [.integer member.value.toInt, .text member.name]
  ofValues?
    | [.integer value, .text name] => (int64? value).map (⟨·, name⟩)
    | _ => none

/-- The members of an enum in declaration order. -/
structure EnumDefinition where
  members : List EnumMember
  deriving DecidableEq, Repr

namespace EnumDefinition

/-- No members. -/
def empty : EnumDefinition := ⟨[]⟩

/-- Declares one more member. -/
def push (definition : EnumDefinition) (name : String) (value : Int64) : EnumDefinition :=
  ⟨definition.members ++ [⟨value, name⟩]⟩

/-- The definition with these names and values in order. -/
def ofPairs (pairs : List (String × Int64)) : EnumDefinition :=
  ⟨pairs.map fun (name, value) => ⟨value, name⟩⟩

/-- The number of members. -/
def size (definition : EnumDefinition) : Nat := definition.members.length

def isEmpty (definition : EnumDefinition) : Bool := definition.members.isEmpty

/-- Compares members by value. -/
def compareMembers (a b : EnumMember) : Ordering := compareKeys (some a.value) (some b.value)

/-- The members by ascending value; members of one value keep their order. -/
def sorted (definition : EnumDefinition) : List EnumMember :=
  stableSort compareMembers definition.members

theorem sorted_perm (definition : EnumDefinition) :
    definition.sorted.Perm definition.members :=
  stableSort_perm _ _

theorem mem_sorted {definition : EnumDefinition} {member : EnumMember} :
    member ∈ definition.sorted ↔ member ∈ definition.members :=
  (sorted_perm definition).mem_iff

end EnumDefinition

/-! ### From JSON -/

/-- What a JSON value is instead of an object. -/
inductive JsonKind where
  | null
  | boolean
  | number
  | string
  | array
  deriving DecidableEq, Repr

/-- The name of a kind with its article. -/
def JsonKind.description : JsonKind → String
  | null => "null"
  | boolean => "a boolean"
  | number => "a number"
  | string => "a string"
  | array => "an array"

/-- Why a text is not an enum definition. -/
inductive DefinitionError where
  | unreadable (problem : Problem)
  | notAnObject (found : JsonKind)
  deriving DecidableEq, Repr

/-- What the problem of a text is called. -/
def Problem.description : Problem → String
  | truncated => "the text ends too early"
  | malformed => "the text is not JSON"
  | mismatched => "the text holds another value"

def DefinitionError.message : DefinitionError → String
  | unreadable problem => s!"invalid enum definition JSON: {problem.description}"
  | notAnObject found => s!"enum definition must be a JSON object, found {found.description}"

/-- The value that a number gives a member: whole numbers that fit 64 bits. -/
def Number.memberValue? : Number → Option Int64
  | integer n => int64? n
  | double d => d.integer?.bind int64?

namespace EnumDefinition

/-- The member of an entry; an entry that is no number gives none. -/
def memberOfEntry? (entry : String × Json Number) : Option EnumMember :=
  match entry with
  | (name, .number n) => n.memberValue?.map (⟨·, name⟩)
  | _ => none

/-- The members of an object, a repeated key in its first place with its last value. -/
def ofEntries (entries : List (String × Json Number)) : EnumDefinition :=
  ⟨(Json.lastValues entries).filterMap memberOfEntry?⟩

/-- The definition that a JSON value is. -/
def ofJson : Json Number → Except JsonKind EnumDefinition
  | .object entries => .ok (ofEntries entries)
  | .null => .error .null
  | .bool _ => .error .boolean
  | .number _ => .error .number
  | .text _ => .error .string
  | .array _ => .error .array

/-- The definition that a text holds. -/
def ofText (text : String) : Except DefinitionError EnumDefinition :=
  match Json.ofText text with
  | .error problem => .error (.unreadable problem)
  | .ok json => (ofJson json).mapError .notAnObject

end EnumDefinition

end TokenInspector
