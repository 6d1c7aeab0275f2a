import TokenInspector.Source.Position

/-!
# Lines of a text

Offsets into a text count 16-bit units: a character past U+FFFF takes two. A line ends after a
carriage return and line feed, a lone carriage return, or a lone line feed. `LineMap.ofText` records
where the lines start; `LineMap.position?` and `LineMap.offset` convert between offsets and
positions. An offset past the end means the end, and a position past the end of its line means the
start of the next.
-/

namespace TokenInspector

/-- The number of 16-bit units of a character. -/
def charUnits (c : Char) : Nat := if c.toNat < 0x10000 then 1 else 2

/-- The number of 16-bit units of a text. -/
def textUnits : List Char → Nat
  | [] => 0
  | c :: rest => charUnits c + textUnits rest

/-- Where the lines of a text start, and how long it is. -/
structure LineMap where
  starts : List Nat
  length : Nat
  deriving DecidableEq, Repr

namespace LineMap

/-- A map without lines, not even the one that the empty text has. -/
def empty : LineMap := ⟨[], 0⟩

/-- The starts of the lines that begin after a line end in `s`, where `s` begins at `offset`. -/
def startsAfter (offset : Nat) : List Char → List Nat
  | [] => []
  | '\r' :: '\n' :: rest => (offset + 2) :: startsAfter (offset + 2) rest
  | c :: rest =>
    let next := offset + charUnits c
    if c = '\r' ∨ c = '\n' then next :: startsAfter next rest else startsAfter next rest

/-- The lines of a text. -/
def ofText (text : String) : LineMap :=
  ⟨0 :: startsAfter 0 text.toList, textUnits text.toList⟩

def lineCount (map : LineMap) : Nat := map.starts.length

def isEmpty (map : LineMap) : Bool := map.length = 0

/-- The starts of the lines that begin at an offset or before it. -/
def startsUpTo (map : LineMap) (offset : Nat) : List Nat := map.starts.takeWhile (· ≤ offset)

/-- The position of an offset; `none` if no line begins at the offset or before it. -/
def position? (map : LineMap) (offset : Nat) : Option Position :=
  let offset := min offset map.length
  let reached := map.startsUpTo offset
  reached.getLast?.map fun start =>
    ⟨UInt32.ofNat (reached.length - 1), UInt32.ofNat (offset - start)⟩

/-- The offset of a position. -/
def offset (map : LineMap) (position : Position) : Nat :=
  let line := position.line.toNat
  match map.starts[line]? with
  | none => map.length
  | some start =>
    min (start + position.character.toNat) (map.starts[line + 1]?.getD map.length)

end LineMap

end TokenInspector
