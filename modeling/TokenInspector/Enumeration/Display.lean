import TokenInspector.Enumeration.Definition

/-!
# Names of values

`EnumDefinition.display` gives the name of the member that a value is. For flags the value is split
into members, taken greedily from the highest value down, so a composite member goes before its
parts. A value that cannot be named is shown in decimal.
-/

namespace TokenInspector

namespace EnumDefinition

/-- All bits of `flag` are bits of `bits`, and there is at least one. -/
def covers (bits flag : Int64) : Bool := flag ≠ 0 && bits &&& flag = flag

/-- Takes each member whose bits all remain, in the order of the list, until nothing remains; gives
the members taken and the bits that remain. -/
def takeFlags (remaining : Int64) : List EnumMember → List EnumMember × Int64
  | [] => ([], remaining)
  | member :: rest =>
    if remaining = 0 then ([], remaining)
    else if covers remaining member.value then
      let (taken, left) := takeFlags (remaining &&& ~~~member.value) rest
      (member :: taken, left)
    else takeFlags remaining rest

/-- The names of the members that make up a value, in ascending order with a bar between two of
them, if the members cover all its bits. -/
def flagNames? (members : List EnumMember) (value : Int64) : Option String :=
  let (taken, left) := takeFlags value members.reverse
  if left = 0 then some ("|".intercalate (taken.reverse.map (·.name))) else none

/-- The name of the first member with a value, or else the value in decimal. -/
def exactName (members : List EnumMember) (value : Int64) : String :=
  match members.find? (·.value = value) with
  | some member => member.name
  | none => toString value.toInt

/-- Zero has a name only if it is the lowest value. -/
def zeroName (members : List EnumMember) : String :=
  match members with
  | first :: _ => if first.value = 0 then first.name else "0"
  | [] => "0"

/-- The text shown for a value. -/
def display (definition : EnumDefinition) (value : Int64) (flags : Bool) : String :=
  let members := definition.sorted
  if value = 0 then zeroName members
  else if flags then (flagNames? members value).getD (exactName members value)
  else exactName members value

/-- The text shown for a double, dropping its fraction, by a definition given as text; a text that
is no definition names nothing. -/
def displayDouble (value : Double) (text : String) (flags : Bool) : String :=
  match ofText text with
  | .ok definition => definition.display value.toInt64 flags
  | .error _ => empty.display value.toInt64 flags

end EnumDefinition

end TokenInspector
