import TokenInspector.Source.LineMap

/-!
# 16-bit units

`utf16` lists the units of a text: a character up to U+FFFF is one unit, any other a leading unit
and a trailing one. `textUnits` counts them.
-/

namespace TokenInspector

/-- The units of a character. -/
def utf16Char (c : Char) : List Nat :=
  if c.toNat < 0x10000 then [c.toNat]
  else [0xD800 + (c.toNat - 0x10000) / 0x400, 0xDC00 + (c.toNat - 0x10000) % 0x400]

/-- The units of a text. -/
def utf16 (s : List Char) : List Nat := s.flatMap utf16Char

theorem length_utf16Char (c : Char) : (utf16Char c).length = charUnits c := by
  unfold utf16Char charUnits
  split <;> rfl

theorem length_utf16 (s : List Char) : (utf16 s).length = textUnits s := by
  induction s with
  | nil => rfl
  | cons c s ih =>
    rw [utf16, List.flatMap_cons, List.length_append, length_utf16Char, ← utf16, ih]
    rfl

end TokenInspector
