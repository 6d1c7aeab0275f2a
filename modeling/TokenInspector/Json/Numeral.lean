import TokenInspector.Json.Basic

/-!
# Numbers in JSON text

`Numeral` holds the parts of a number as written. `Numeral.number?` reads it: the first digits
that fit 64 bits make the significand, digits after them count only as places. A numeral without
fraction and exponent is an integer if it fits; any other is a double, `none` if it is too large
for one. Minus zero is a double.
-/

namespace TokenInspector

/-- A number as written: sign, digits before and after the point, and the exponent. -/
structure Numeral where
  negative : Bool
  whole : List Nat
  fraction : Option (List Nat)
  exponent : Option Int
  deriving DecidableEq, Repr

namespace Numeral

/-- The largest significand. -/
def maxSignificand : Nat := UInt64.size - 1

/-- Appends digits to a significand until it would overflow; gives the digits left over. -/
def accumulate : Nat → List Nat → Nat × List Nat
  | significand, [] => (significand, [])
  | significand, digit :: rest =>
    if significand * 10 + digit ≤ maxSignificand then accumulate (significand * 10 + digit) rest
    else (significand, digit :: rest)

/-- An integer of 64 bits, signed or unsigned, or else the nearest double. -/
def ofInteger (negative : Bool) (magnitude : Nat) : Number :=
  if negative then
    if 0 < magnitude ∧ magnitude ≤ Int64.minValue.toInt.natAbs then .integer (-magnitude)
    else .double (.finite true (Double.nearestTo magnitude))
  else .integer magnitude

/-- The number that a numeral denotes; `none` if it is past the largest double. -/
def number? (numeral : Numeral) : Option Number :=
  let (significand, dropped) := accumulate 0 numeral.whole
  match numeral.fraction, numeral.exponent, dropped with
  | none, none, [] => some (ofInteger numeral.negative significand)
  | fraction, exponent, dropped =>
    let digits := fraction.getD []
    let (significand, unused) := accumulate significand digits
    let places : Int := dropped.length - (digits.length - unused.length)
    (Double.ofDecimal? numeral.negative significand (places + exponent.getD 0)).map .double

/-- The value of a decimal digit. -/
def digitValue (c : Char) : Nat := c.toNat - '0'.toNat

/-- The digits at the start of a text, and the text after them. -/
def scanDigits (s : List Char) : List Nat × List Char :=
  ((s.takeWhile Char.isDigit).map digitValue, s.dropWhile Char.isDigit)

theorem length_scanDigits_le (s : List Char) : (scanDigits s).2.length ≤ s.length :=
  (List.dropWhile_sublist _).length_le

/-- What is found at the start of a text where a number is expected. -/
inductive Scanned where
  | complete (numeral : Numeral) (rest : List Char)
  /-- The text ends inside the number. -/
  | cut
  /-- A character stands where a digit is needed, or a digit follows a leading zero. -/
  | bad
  deriving DecidableEq, Repr

/-- The text after a number; nothing is left where scanning stopped. -/
def Scanned.rest : Scanned → List Char
  | complete _ rest => rest
  | cut | bad => []

/-- The number that digits spell. -/
def ofDigits (digits : List Nat) : Nat := digits.foldl (fun n digit => n * 10 + digit) 0

/-- Scans digits, at least one, for a part of a number that they complete. -/
def scanPart (s : List Char) (complete : List Nat → List Char → Scanned) : Scanned :=
  match s with
  | [] => .cut
  | c :: _ => if c.isDigit then complete (scanDigits s).1 (scanDigits s).2 else .bad

/-- Scans the digits of an exponent. -/
def scanExponentDigits (numeral : Numeral) (negative : Bool) (s : List Char) : Scanned :=
  scanPart s fun digits rest =>
    .complete { numeral with exponent := some (Double.signed negative (ofDigits digits)) } rest

/-- Scans an exponent from after its letter: a sign, if one is written, and digits. -/
def scanSignedExponent (numeral : Numeral) (s : List Char) : Scanned :=
  match s with
  | '+' :: rest => scanExponentDigits numeral false rest
  | '-' :: rest => scanExponentDigits numeral true rest
  | s => scanExponentDigits numeral false s

/-- Scans the exponent, if one follows. -/
def scanExponent (numeral : Numeral) (s : List Char) : Scanned :=
  match s with
  | 'e' :: rest | 'E' :: rest => scanSignedExponent numeral rest
  | s => .complete numeral s

/-- Scans the fraction, if one follows, and the exponent after it. -/
def scanFraction (numeral : Numeral) (s : List Char) : Scanned :=
  match s with
  | '.' :: rest =>
    scanPart rest fun digits after => scanExponent { numeral with fraction := some digits } after
  | s => scanExponent numeral s

/-- Scans the digits before the point; a zero stands alone. -/
def scanWhole (negative : Bool) (s : List Char) : Scanned :=
  match s with
  | '0' :: rest =>
    if rest.head?.any Char.isDigit then .bad
    else scanFraction ⟨negative, [0], none, none⟩ rest
  | s => scanPart s fun digits rest => scanFraction ⟨negative, digits, none, none⟩ rest

/-- Scans a number. -/
def scan (s : List Char) : Scanned :=
  match s with
  | '-' :: rest => scanWhole true rest
  | s => scanWhole false s

theorem length_scanPart_le {s : List Char} {complete : List Nat → List Char → Scanned}
    (h : ∀ digits rest, (complete digits rest).rest.length ≤ rest.length) :
    (scanPart s complete).rest.length ≤ s.length := by
  unfold scanPart
  split
  · simp [Scanned.rest]
  · split
    · exact Nat.le_trans (h _ _) (length_scanDigits_le _)
    · simp [Scanned.rest]

theorem length_scanExponentDigits_le (numeral : Numeral) (negative : Bool) (s : List Char) :
    (scanExponentDigits numeral negative s).rest.length ≤ s.length :=
  length_scanPart_le fun _ _ => Nat.le_refl _

theorem length_scanSignedExponent_le (numeral : Numeral) (s : List Char) :
    (scanSignedExponent numeral s).rest.length ≤ s.length := by
  unfold scanSignedExponent
  split
  · exact Nat.le_succ_of_le (length_scanExponentDigits_le _ _ _)
  · exact Nat.le_succ_of_le (length_scanExponentDigits_le _ _ _)
  · exact length_scanExponentDigits_le _ _ _

theorem length_scanExponent_le (numeral : Numeral) (s : List Char) :
    (scanExponent numeral s).rest.length ≤ s.length := by
  unfold scanExponent
  split
  · exact Nat.le_succ_of_le (length_scanSignedExponent_le _ _)
  · exact Nat.le_succ_of_le (length_scanSignedExponent_le _ _)
  · exact Nat.le_refl _

theorem length_scanFraction_le (numeral : Numeral) (s : List Char) :
    (scanFraction numeral s).rest.length ≤ s.length := by
  unfold scanFraction
  split
  · exact Nat.le_trans (length_scanPart_le fun _ _ => length_scanExponent_le _ _) (by simp)
  · exact length_scanExponent_le _ _

theorem length_scanWhole_le (negative : Bool) (s : List Char) :
    (scanWhole negative s).rest.length ≤ s.length := by
  unfold scanWhole
  split
  · split
    · simp [Scanned.rest]
    · exact Nat.le_trans (length_scanFraction_le _ _) (by simp)
  · exact length_scanPart_le fun _ _ => length_scanFraction_le _ _

theorem length_scan_le (s : List Char) : (scan s).rest.length ≤ s.length := by
  unfold scan
  split
  · exact Nat.le_trans (length_scanWhole_le _ _) (by simp)
  · exact length_scanWhole_le _ _

end Numeral

end TokenInspector
