/-!
# Doubles as exact numbers

A finite double is a whole number of units, the unit being `2^-1074`, the smallest positive
double. Comparing, truncating and rounding are then exact arithmetic on natural numbers.
`Double.ofBits` decodes the 64 bits of the binary format; `nearestUnits` rounds a quotient to
53 significant bits, a tie going to the even neighbour.
-/

namespace TokenInspector

/-- A double: a sign and a number of units of `2^-1074`, an infinity, or not a number. -/
inductive Double where
  | finite (negative : Bool) (units : Nat)
  | infinite (negative : Bool)
  | nan
  deriving DecidableEq, Repr

namespace Double

/-- The number one, in units. -/
def one : Nat := 1 <<< 1074

/-- The first power of two past every finite double, in units. -/
def limit : Nat := 1 <<< 2098

/-- The bit in front of the 52 bits of a fraction, which only subnormal doubles lack. -/
def leadingBit : Nat := 1 <<< 52

/-- Gives a magnitude its sign. -/
def signed (negative : Bool) (magnitude : Nat) : Int :=
  if negative then -(magnitude : Int) else magnitude

/-- Decodes sign, exponent and fraction; exponent 0 is subnormal, 2047 is an infinity or NaN. -/
def ofBits (bits : UInt64) : Double :=
  let negative := bits.toNat.testBit 63
  let exponent := bits.toNat >>> 52 % 2048
  let fraction := bits.toNat % leadingBit
  if exponent = 0 then finite negative fraction
  else if exponent = 2047 then
    if fraction = 0 then infinite negative else nan
  else finite negative ((leadingBit + fraction) <<< (exponent - 1))

/-! ### Order -/

/-- Where a double stands among the integers, in units; an infinity stands past all others. -/
def rank : Double → Option Int
  | finite negative units => some (signed negative units)
  | infinite negative => some (signed negative limit)
  | nan => none

/-- The two zeros are equal, and NaN equals nothing. -/
instance : BEq Double where
  beq a b := match a.rank, b.rank with
    | some x, some y => x == y
    | _, _ => false

instance : LT Double where
  lt a b := ∃ x y, a.rank = some x ∧ b.rank = some y ∧ x < y

instance : DecidableLT Double := fun a b =>
  match ha : a.rank, hb : b.rank with
  | some x, some y =>
    if h : x < y then isTrue ⟨x, y, ha, hb, h⟩
    else isFalse fun ⟨_, _, hx, hy, hlt⟩ => by
      rw [ha] at hx; rw [hb] at hy; cases hx; cases hy; exact h hlt
  | none, _ => isFalse fun ⟨_, _, hx, _, _⟩ => by rw [ha] at hx; cases hx
  | some _, none => isFalse fun ⟨_, _, _, hy, _⟩ => by rw [hb] at hy; cases hy

/-! ### Integers -/

/-- The value of a double that is a whole number. -/
def integer? : Double → Option Int
  | finite negative units => if units % one = 0 then some (signed negative (units / one)) else none
  | _ => none

/-- The integer of 64 bits nearest to `n`. -/
def clampInt64 (n : Int) : Int64 := 
  Int64.ofInt (max Int64.minValue.toInt (min n Int64.maxValue.toInt))

/-- Drops the fraction and clamps to 64 bits; NaN counts as zero. -/
def toInt64 : Double → Int64
  | finite negative units => clampInt64 (signed negative (units / one))
  | infinite negative => clampInt64 (signed negative limit)
  | nan => 0

/-! ### Rounding -/

/-- The integer nearest to `num / den`, a tie going to the even one. -/
def roundHalfEven (num den : Nat) : Nat :=
  let quotient := num / den
  let remainder := num % den
  if 2 * remainder < den then quotient
  else if den < 2 * remainder then quotient + 1
  else quotient + quotient % 2

/-- Rounds `num / den` units to 53 significant bits, or to a whole unit if that is coarser. -/
def nearestUnits (num den : Nat) : Nat :=
  let place := (num / den).log2 - 52
  roundHalfEven num (den <<< place) <<< place

/-- The units of the double nearest to `n`. -/
def nearestTo (n : Nat) : Nat := nearestUnits (n * one) 1

/-- The units of the double nearest to a power of ten. -/
def powTen (exponent : Nat) : Nat := nearestTo (Nat.pow 10 exponent)

/-- The largest power of ten that a double can hold. -/
def maxPowTen : Nat := 308

/-- Divides by a power of ten, in steps of at most `10^308`, rounding at each step. -/
def scaleDown (units exponent : Nat) : Nat :=
  if exponent ≤ maxPowTen then nearestUnits (units * one) (powTen exponent)
  else if units = 0 then 0
  else scaleDown (nearestUnits (units * one) (powTen maxPowTen)) (exponent - maxPowTen)
termination_by exponent
decreasing_by simp only [maxPowTen] at *; omega

/-- Multiplies by a power of ten, rounding once; `none` if the product is not finite. -/
def scaleUp? (units exponent : Nat) : Option Nat :=
  if exponent ≤ maxPowTen then
    let product := nearestUnits (units * powTen exponent) one
    if product < limit then some product else none
  else if units = 0 then some 0
  else none

/-- Reads `significand * 10^exponent`: rounds the significand, then scales it. -/
def ofDecimal? (negative : Bool) (significand : Nat) (exponent : Int) : Option Double :=
  if exponent < 0 then some (finite negative (scaleDown (nearestTo significand) exponent.natAbs))
  else (scaleUp? (nearestTo significand) exponent.natAbs).map (finite negative)

end Double

end TokenInspector
