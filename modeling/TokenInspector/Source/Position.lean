import TokenInspector.Json.Record

/-!
# Positions and selections

A `Position` counts lines and characters from zero, characters in 16-bit units of the text. A
`Selection` is a pair of positions counted from one, as editors show them.
-/

namespace TokenInspector

/-- Reads a field of 16 bits. -/
def word16? (n : Int) : Option UInt16 :=
  if 0 ≤ n ∧ n < UInt16.size then some (UInt16.ofNat n.toNat) else none

/-- Reads a field of 32 bits. -/
def word32? (n : Int) : Option UInt32 :=
  if 0 ≤ n ∧ n < UInt32.size then some (UInt32.ofNat n.toNat) else none

/-- A line and a character in it, both from zero. -/
structure Position where
  line : UInt32
  character : UInt32
  deriving DecidableEq, Repr

instance : Record Position where
  fields := [⟨"line", .word32⟩, ⟨"character", .word32⟩]
  values position := [.integer position.line.toNat, .integer position.character.toNat]
  ofValues?
    | [.integer line, .integer character] => do
      return ⟨← word32? line, ← word32? character⟩
    | _ => none

namespace Position

/-- Positions are ordered by line, then by character. -/
instance : LE Position where
  le a b := a.line < b.line ∨ a.line = b.line ∧ a.character ≤ b.character

instance : LT Position where
  lt a b := a.line < b.line ∨ a.line = b.line ∧ a.character < b.character

instance : DecidableLE Position := fun a b =>
  inferInstanceAs (Decidable (a.line < b.line ∨ a.line = b.line ∧ a.character ≤ b.character))

instance : DecidableLT Position := fun a b =>
  inferInstanceAs (Decidable (a.line < b.line ∨ a.line = b.line ∧ a.character < b.character))

end Position

/-- Two ends in a text, lines and columns from one. -/
structure Selection where
  startLine : UInt32
  startColumn : UInt32
  endLine : UInt32
  endColumn : UInt32
  deriving DecidableEq, Repr

/-- The selection from one position to another. -/
def Selection.ofPositions (first last : Position) : Selection :=
  ⟨first.line + 1, first.character + 1, last.line + 1, last.character + 1⟩

instance : Record Selection where
  fields := [⟨"selectionStartLineNumber", .word32⟩, ⟨"selectionStartColumn", .word32⟩,
    ⟨"positionLineNumber", .word32⟩, ⟨"positionColumn", .word32⟩]
  values selection := [.integer selection.startLine.toNat, .integer selection.startColumn.toNat,
    .integer selection.endLine.toNat, .integer selection.endColumn.toNat]
  ofValues?
    | [.integer startLine, .integer startColumn, .integer endLine, .integer endColumn] => do
      return ⟨← word32? startLine, ← word32? startColumn, ← word32? endLine, ← word32? endColumn⟩
    | _ => none

end TokenInspector
