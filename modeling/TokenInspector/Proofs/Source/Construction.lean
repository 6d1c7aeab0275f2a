import TokenInspector.Proofs.Source.Adjunction

/-!
# Maps with lines and without

A map is made from a text, or without one as the empty map (`IsMade`). The map of a text has a line,
every offset has a position in it, and no step on the way counts below zero or reads past the starts
(`Serves`). The empty map has no line, not even the first: the search for the line of an offset comes
back with no start, and there is no line to step back to. So a map that is made serves just if it is
not the empty one. Offsets of positions are at most the length in either.
-/

namespace TokenInspector

namespace LineMap

/-- The maps there are: those of texts whose length fits 32 bits, and the empty map. -/
inductive IsMade : LineMap → Prop
  | ofText (text : String) : textUnits text.toList < UInt32.size → IsMade (ofText text)
  | empty : IsMade empty

/-- The number of starts up to an offset, less one, is that of a line, and the line starts at the
offset or before: neither subtraction goes below zero, and the start is there to be read. -/
def FindsLine (map : LineMap) (o : Nat) : Prop :=
  1 ≤ (map.startsUpTo o).length ∧
    ∃ start, map.starts[(map.startsUpTo o).length - 1]? = some start ∧ start ≤ o

/-- The map has a line, every offset has a position in the map, and the offset of every position is
at most the length. -/
structure Serves (map : LineMap) : Prop where
  hasLine : 1 ≤ map.lineCount
  findsLine : ∀ o : UInt32, map.FindsLine (min o.toNat map.length)
  position : ∀ o : UInt32, ∃ p, map.position? o.toNat = some p ∧ map.HasPosition p
  offset : ∀ p, map.offset p ≤ map.length

variable {map : LineMap}

theorem WellFormed.findsLine (h : map.WellFormed) (o : Nat) : map.FindsLine o := by
  obtain ⟨start, -, hstart, hle, -⟩ := h.exists_getLast? o
  exact ⟨h.startsUpTo_pos o, start, hstart, hle⟩

theorem WellFormed.serves (h : map.WellFormed) (hlen : map.length < UInt32.size) : map.Serves where
  hasLine := by
    obtain ⟨hlt, -⟩ := List.getElem?_eq_some_iff.mp h.first
    exact hlt
  findsLine o := h.findsLine _
  position o := by
    obtain ⟨p, hp, hat⟩ := h.exists_position? hlen o.toNat
    exact ⟨p, hp, hat.hasPosition (Nat.min_le_right _ _)⟩
  offset := h.offset_le_length

/-! ### The empty map -/

theorem startsUpTo_empty (o : Nat) : empty.startsUpTo o = [] := rfl

theorem position?_empty (o : Nat) : empty.position? o = none := rfl

theorem offset_empty (p : Position) : empty.offset p = 0 := by
  apply offset_of_noLine
  rfl

/-- No offset has a line to be found in the empty map. -/
theorem not_findsLine_empty (o : Nat) : ¬ empty.FindsLine o := by
  intro h
  have hpos := h.1
  rw [startsUpTo_empty] at hpos
  exact absurd hpos (by decide)

theorem Serves.ne_empty (h : map.Serves) : map ≠ empty := by
  rintro rfl
  exact not_findsLine_empty _ (h.findsLine 0)

/-! ### Maps that are made -/

/-- Every map that is made serves, but for the empty one: that has no line and no position for any
offset, while every position has the offset 0 in it. -/
theorem serves_iff_ne_empty (map : LineMap) (h : map.IsMade) :
    (map.Serves ↔ map ≠ empty) ∧ (∀ p, map.offset p ≤ map.length) ∧
    (map = empty → map.lineCount = 0 ∧
      ∀ o, (map.startsUpTo o).length = 0 ∧ map.position? o = none) := by
  refine ⟨⟨Serves.ne_empty, ?_⟩, ?_, ?_⟩
  · intro hne
    cases h with
    | ofText text hlen => exact (wellFormed_ofText text).serves hlen
    | empty => exact absurd rfl hne
  · intro p
    cases h with
    | ofText text hlen => exact (wellFormed_ofText text).offset_le_length p
    | empty => exact Nat.le_of_eq (offset_empty p)
  · rintro rfl
    exact ⟨rfl, fun o => ⟨rfl, position?_empty o⟩⟩

theorem serves_iff_ne_empty_mixed :
    (ofText mixedLineEnds).IsMade ∧ ofText mixedLineEnds ≠ empty ∧
    (ofText mixedLineEnds).Serves ∧ (ofText "").Serves ∧ empty.IsMade ∧ ¬ empty.Serves := by
  have hmixed : (ofText mixedLineEnds).IsMade := .ofText _ (by decide)
  have hblank : (ofText "").IsMade := .ofText _ (by decide)
  have hne : ofText mixedLineEnds ≠ empty := by decide
  obtain ⟨hserves, -, -⟩ := serves_iff_ne_empty _ hmixed
  obtain ⟨hserves', -, -⟩ := serves_iff_ne_empty _ hblank
  obtain ⟨hempty, -, -⟩ := serves_iff_ne_empty _ .empty
  exact ⟨hmixed, hne, hserves.mpr hne, hserves'.mpr (by decide), .empty,
    fun h => hempty.mp h rfl⟩

/-- Not every map that is made has a line: the empty map has none, and the search for the line of
offset 0 would step back from the first of its lines. -/
theorem isMade_empty_noLine :
    empty.IsMade ∧ ¬ 1 ≤ empty.lineCount ∧ (empty.startsUpTo (min 0 empty.length)).length = 0 ∧
      empty.position? 0 = none ∧ ¬ ∀ map : LineMap, map.IsMade → map.Serves := by
  refine ⟨.empty, by decide, rfl, position?_empty 0, ?_⟩
  intro h
  exact (h _ .empty).ne_empty rfl

end LineMap

end TokenInspector
