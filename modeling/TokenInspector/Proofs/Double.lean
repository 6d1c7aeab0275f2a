import TokenInspector.Double
import Mathlib.Data.Rat.Floor
import Mathlib.Tactic.FieldSimp
import Mathlib.Tactic.Ring

/-!
# Doubles as rational numbers

`Binary64.ofBits` says what 64 bits stand for: a rational number, computed from sign, exponent and
fraction, an infinity, or no number. A double stands for its units over the units of one
(`Double.meaning`), and decoding keeps the meaning of the bits (`meaning_ofBits`).

Conversion to an integer of 64 bits truncates the rational number toward zero and clamps it
(`toInt_toInt64`). A number that is whole and in range is converted to itself
(`toInt64_of_meaning`), and the doubles that count as integers are those that stand for a whole
number (`integer?_eq_some`). Rounding does not lead below a number of at most 53 bits that was
reached (`mul_two_pow_le_nearestUnits`), and a longer integer is rounded at the place of its 53rd
bit (`nearestTo_eq`).
-/

namespace TokenInspector

/-- What 64 bits stand for. -/
inductive Binary64 where
  | number (q : ℚ)
  | infinity (negative : Bool)
  | nan
  deriving DecidableEq

namespace Binary64

/-- One bit of sign, 11 bits of exponent, 52 bits of fraction. Exponent 0 makes the number
subnormal, exponent 2047 makes it an infinity or NaN. -/
def ofBits (bits : UInt64) : Binary64 :=
  let negative := decide (2 ^ 63 ≤ bits.toNat)
  let sign : ℚ := if negative then -1 else 1
  let exponent : Nat := bits.toNat / 2 ^ 52 % 2 ^ 11
  let fraction : Nat := bits.toNat % 2 ^ 52
  if exponent = 2047 then if fraction = 0 then infinity negative else nan
  else if exponent = 0 then number (sign * (fraction / 2 ^ 52) * 2 ^ (-1022 : ℤ))
  else number (sign * (1 + fraction / 2 ^ 52) * 2 ^ ((exponent : ℤ) - 1023))

/-- The integer next to a number on the side of zero. -/
def truncate (q : ℚ) : ℤ := if 0 ≤ q then ⌊q⌋ else ⌈q⌉

/-- The integer of 64 bits nearest to `n`. -/
def clamp (n : ℤ) : ℤ := max (-2 ^ 63) (min n (2 ^ 63 - 1))

/-- The integer of 64 bits that is taken for a value: a number is truncated and clamped, an infinity
is past all integers, and NaN counts as zero. -/
def toInteger : Binary64 → ℤ
  | number q => clamp (truncate q)
  | infinity negative => if negative then -2 ^ 63 else 2 ^ 63 - 1
  | nan => 0

end Binary64

namespace Double

/-- What a double stands for. -/
def meaning : Double → Binary64
  | finite negative units => .number (signed negative units / one)
  | infinite negative => .infinity negative
  | nan => .nan

/-! ### Decoding -/

theorem cast_one_shiftLeft (n : Nat) : ((1 <<< n : Nat) : ℚ) = 2 ^ (n : ℤ) := by
  rw [Nat.one_shiftLeft, Nat.cast_pow, zpow_natCast, Nat.cast_ofNat]

theorem cast_one : (one : ℚ) = 2 ^ (52 : ℤ) * 2 ^ (1022 : ℤ) := by
  rw [← zpow_add₀ two_ne_zero]
  exact cast_one_shiftLeft 1074

theorem one_pos : 0 < one := by
  rw [one, Nat.one_shiftLeft]
  exact Nat.two_pow_pos 1074

theorem cast_signed (negative : Bool) (n : Nat) :
    (signed negative n : ℚ) = (if negative then -1 else 1) * n := by
  cases negative <;> simp [signed]

theorem testBit_sign (bits : UInt64) : bits.toNat.testBit 63 = decide (2 ^ 63 ≤ bits.toNat) := by
  have hlt : bits.toNat < 2 ^ 64 := bits.toNat_lt
  rw [Nat.testBit_eq_decide_div_mod_eq, decide_eq_decide]
  omega

/-- A unit is `2^-52` of the least normal number. -/
theorem div_one_eq (q : ℚ) : q / one = q / 2 ^ 52 * 2 ^ (-1022 : ℤ) := by
  rw [cast_one, zpow_neg, ← div_eq_mul_inv, div_div]
  rfl

theorem meaning_subnormal (negative : Bool) (fraction : Nat) :
    (finite negative fraction).meaning =
      .number ((if negative then -1 else 1) * (fraction / 2 ^ 52) * 2 ^ (-1022 : ℤ)) := by
  rw [meaning, cast_signed, div_one_eq, mul_div_assoc]

theorem meaning_normal (negative : Bool) {exponent : Nat} (h : exponent ≠ 0) (fraction : Nat) :
    (finite negative ((leadingBit + fraction) <<< (exponent - 1))).meaning =
      .number ((if negative then -1 else 1) * (1 + fraction / 2 ^ 52) *
        2 ^ ((exponent : ℤ) - 1023)) := by
  have hpower : (2 : ℚ) ^ ((exponent : ℤ) - 1023) = 2 ^ (exponent - 1) * 2 ^ (-1022 : ℤ) := by
    rw [← zpow_natCast, ← zpow_add₀ two_ne_zero]
    congr 1
    omega
  rw [meaning, cast_signed, div_one_eq, hpower, Nat.shiftLeft_eq, leadingBit, Nat.one_shiftLeft]
  generalize (2 : ℚ) ^ (-1022 : ℤ) = least
  push_cast
  congr 1
  field_simp
  ring

theorem meaning_ofBits (bits : UInt64) : (ofBits bits).meaning = .ofBits bits := by
  have hfraction : bits.toNat % leadingBit = bits.toNat % 2 ^ 52 := rfl
  have hexponent : bits.toNat >>> 52 % 2048 = bits.toNat / 2 ^ 52 % 2 ^ 11 := by
    exact congrArg (· % 2048) (Nat.shiftRight_eq_div_pow _ 52)
  simp only [ofBits, Binary64.ofBits, testBit_sign, hfraction, hexponent]
  by_cases hzero : bits.toNat / 2 ^ 52 % 2 ^ 11 = 0
  · rw [if_pos hzero, if_neg (by omega), if_pos hzero, meaning_subnormal]
  · rw [if_neg hzero, if_neg hzero]
    split
    · split <;> rfl
    · exact meaning_normal _ hzero _

/-! ### Conversion -/

theorem truncate_intCast (n : ℤ) : Binary64.truncate n = n := by
  simp [Binary64.truncate]

theorem truncate_neg (q : ℚ) : Binary64.truncate (-q) = -Binary64.truncate q := by
  unfold Binary64.truncate
  rcases lt_trichotomy q 0 with h | rfl | h
  · rw [if_pos (by linarith), if_neg (by linarith), Int.floor_neg]
  · simp
  · rw [if_neg (by linarith), if_pos h.le, Int.ceil_neg]

/-- Division of the units drops the fraction. -/
theorem truncate_signed_div (negative : Bool) (units : Nat) :
    Binary64.truncate (signed negative units / one) = signed negative (units / one) := by
  have htruncate : Binary64.truncate (units / one) = (units / one : Nat) := by
    rw [Binary64.truncate, if_pos (by positivity), Rat.floor_natCast_div_natCast]
    rfl
  cases negative with
  | false => exact htruncate
  | true =>
    have hsigned : ((signed true units : ℤ) : ℚ) = -(units : ℚ) := Int.cast_neg (units : ℤ)
    rw [hsigned, neg_div, truncate_neg, htruncate]
    rfl

theorem toInt_clampInt64 (n : ℤ) : (clampInt64 n).toInt = Binary64.clamp n := by
  have hmin : Int64.minValue.toInt = -2 ^ 63 := by decide
  have hmax : Int64.maxValue.toInt = 2 ^ 63 - 1 := by decide
  rw [clampInt64, hmin, hmax, Binary64.clamp]
  exact Int64.toInt_ofInt_of_le (by omega) (by omega)

/-- A double is converted to the integer that is taken for what it stands for. -/
theorem toInt_toInt64 (x : Double) : x.toInt64.toInt = x.meaning.toInteger := by
  cases x with
  | finite negative units =>
    rw [toInt64, toInt_clampInt64, meaning, Binary64.toInteger, truncate_signed_div]
  | infinite negative =>
    have hlimit : 2 ^ 63 ≤ limit :=
      (Nat.pow_le_pow_right (by decide) (by decide)).trans_eq (Nat.one_shiftLeft 2098).symm
    rw [toInt64, toInt_clampInt64, meaning, Binary64.toInteger, Binary64.clamp, signed]
    split <;> omega
  | nan => rfl

theorem clamp_toInt (n : Int64) : Binary64.clamp n.toInt = n.toInt := by
  have := n.le_toInt
  have := n.toInt_lt
  rw [Binary64.clamp]
  omega

/-- A whole number in range is converted to itself. -/
theorem toInt64_of_meaning {x : Double} {n : Int64} (h : x.meaning = .number n.toInt) :
    x.toInt64 = n := by
  rw [← Int64.toInt_inj, toInt_toInt64, h, Binary64.toInteger, truncate_intCast, clamp_toInt]

theorem signed_eq_mul_iff (negative : Bool) {units d : Nat} (hd : 0 < d) {n : ℤ} :
    signed negative units = n * d ↔ units % d = 0 ∧ signed negative (units / d) = n := by
  have hd' : (d : ℤ) ≠ 0 := by omega
  have hsigned : ∀ k : Nat, signed negative (k * d) = signed negative k * d := by
    intro k
    cases negative <;> simp [signed]
  constructor
  · intro h
    have habs : units = n.natAbs * d := by
      have habs := congrArg Int.natAbs h
      cases negative <;> simpa [signed, Int.natAbs_mul] using habs
    rw [habs, Nat.mul_mod_left, Nat.mul_div_cancel _ hd]
    rw [habs, hsigned] at h
    exact ⟨rfl, mul_right_cancel₀ hd' h⟩
  · rintro ⟨hmod, rfl⟩
    rw [← hsigned, Nat.div_mul_cancel (Nat.dvd_of_mod_eq_zero hmod)]

/-- The doubles that are whole numbers are those that stand for one. -/
theorem integer?_eq_some {x : Double} {n : ℤ} : x.integer? = some n ↔ x.meaning = .number n := by
  cases x with
  | finite negative units =>
    have hone : (one : ℚ) ≠ 0 := by exact_mod_cast one_pos.ne'
    rw [meaning, Binary64.number.injEq, div_eq_iff hone]
    have hcast : (signed negative units : ℚ) = n * one ↔ signed negative units = n * one := by
      exact_mod_cast Iff.rfl
    rw [hcast, signed_eq_mul_iff negative one_pos, integer?]
    split
    · rename_i hmod
      simp [hmod]
    · rename_i hmod
      simp [hmod]
  | infinite _ | nan => simp [integer?, meaning]

/-! ### Rounding -/

theorem div_le_roundHalfEven (num den : Nat) : num / den ≤ roundHalfEven num den := by
  unfold roundHalfEven
  dsimp only
  split
  · exact Nat.le_refl _
  · split <;> omega

/-- Rounding does not lead below a number of at most 53 significant bits. -/
theorem mul_two_pow_le_nearestUnits {c k num den : Nat} (hc : c < 2 ^ 53)
    (h : c * 2 ^ k ≤ num / den) : c * 2 ^ k ≤ nearestUnits num den := by
  rw [nearestUnits, Nat.shiftLeft_eq, Nat.shiftLeft_eq]
  generalize hplace : (num / den).log2 - 52 = place
  have hrounded : num / den / 2 ^ place ≤ roundHalfEven num (den * 2 ^ place) := by
    rw [Nat.div_div_eq_div_mul]
    exact div_le_roundHalfEven _ _
  refine Nat.le_trans ?_ (Nat.mul_le_mul_right _ hrounded)
  by_cases hk : place ≤ k
  · -- the number is a multiple of the place
    have hsplit : c * 2 ^ k = c * 2 ^ (k - place) * 2 ^ place := by
      rw [Nat.mul_assoc, ← Nat.pow_add, Nat.sub_add_cancel hk]
    rw [hsplit] at h ⊢
    exact Nat.mul_le_mul_right _ ((Nat.le_div_iff_mul_le (Nat.two_pow_pos place)).mpr h)
  · -- what is rounded has 53 bits from the place on, so it reaches past the number
    have hlog : (num / den).log2 = 52 + place := by omega
    have hpos : num / den ≠ 0 := by
      intro hzero
      rw [hzero, Nat.log2_zero] at hlog
      omega
    have hquotient : 2 ^ 52 ≤ num / den / 2 ^ place := by
      rw [Nat.le_div_iff_mul_le (Nat.two_pow_pos place), ← Nat.pow_add, ← hlog]
      exact Nat.log2_self_le hpos
    calc c * 2 ^ k ≤ 2 ^ 53 * 2 ^ k := Nat.mul_le_mul_right _ hc.le
      _ = 2 ^ 52 * 2 ^ (k + 1) := by rw [Nat.pow_succ 2 k]; omega
      _ ≤ 2 ^ 52 * 2 ^ place := Nat.mul_le_mul_left _ (Nat.pow_le_pow_right (by decide) (by omega))
      _ ≤ num / den / 2 ^ place * 2 ^ place := Nat.mul_le_mul_right _ hquotient

theorem exists_one_eq : ∃ k, one = 2 ^ k := by
  obtain ⟨k, hk⟩ : ∃ k, one = 1 <<< k := ⟨_, rfl⟩
  exact ⟨k, hk.trans (Nat.one_shiftLeft k)⟩

/-- The double nearest to an integer is not below a number of at most 53 bits that the integer
reaches. -/
theorem mul_two_pow_le_nearestTo {c k n : Nat} (hc : c < 2 ^ 53) (h : c * 2 ^ k ≤ n) :
    c * 2 ^ k * one ≤ nearestTo n := by
  obtain ⟨e, he⟩ := exists_one_eq
  rw [nearestTo, he, Nat.mul_assoc, ← Nat.pow_add]
  refine mul_two_pow_le_nearestUnits hc ?_
  rw [Nat.div_one, Nat.pow_add, ← Nat.mul_assoc]
  exact Nat.mul_le_mul_right _ h

theorem two_pow_le_nearestTo {k n : Nat} (h : 2 ^ k ≤ n) : 2 ^ k * one ≤ nearestTo n := by
  rw [← Nat.one_mul (2 ^ k)] at h ⊢
  exact mul_two_pow_le_nearestTo (by decide) h

theorem signed_of_integer? {negative : Bool} {units : Nat} {m : ℤ}
    (h : (finite negative units).integer? = some m) : signed negative units = m * one := by
  rw [integer?] at h
  split at h
  · rename_i hmod
    exact (signed_eq_mul_iff negative one_pos).mpr ⟨hmod, Option.some.inj h⟩
  · cases h

theorem two_pow_le_of_nearestTo {k n : Nat} (h : 2 ^ k ≤ n) {m : ℤ}
    (hm : (finite false (nearestTo n)).meaning = .number m) : 2 ^ k ≤ m := by
  have hunits := two_pow_le_nearestTo h
  have hsigned : (nearestTo n : ℤ) = m * one := signed_of_integer? (integer?_eq_some.mpr hm)
  have hone : (0 : ℤ) < one := by exact_mod_cast one_pos
  refine le_of_mul_le_mul_right ?_ hone
  rw [← hsigned]
  exact_mod_cast hunits

/-- Multiplying by a power of ten leads at least to ten times a power of two. -/
theorem ten_mul_two_pow_le_scaleUp? {units exponent product k : Nat} (hunits : 2 ^ k * one ≤ units)
    (hexponent : 0 < exponent) (h : scaleUp? units exponent = some product) :
    5 * 2 ^ (k + 1) * one ≤ product := by
  have hten : 5 * 2 ^ 1 ≤ Nat.pow 10 exponent := Nat.le_self_pow hexponent.ne' 10
  have hpower : 5 * 2 ^ 1 * one ≤ powTen exponent := mul_two_pow_le_nearestTo (by decide) hten
  obtain ⟨e, he⟩ := exists_one_eq
  unfold scaleUp? at h
  split at h
  · dsimp only at h
    split at h
    · obtain rfl := Option.some.inj h
      rw [he] at hunits hpower ⊢
      rw [Nat.mul_assoc, ← Nat.pow_add]
      refine mul_two_pow_le_nearestUnits (by decide) ?_
      rw [Nat.le_div_iff_mul_le (Nat.two_pow_pos e)]
      calc 5 * 2 ^ (k + 1 + e) * 2 ^ e = 2 ^ k * 2 ^ e * (5 * 2 ^ 1 * 2 ^ e) := by ring
        _ ≤ units * powTen exponent := Nat.mul_le_mul hunits hpower
    · cases h
  · have hpos : 0 < 2 ^ k * one := Nat.mul_pos (Nat.two_pow_pos k) one_pos
    rw [if_neg (by omega)] at h
    cases h

theorem roundHalfEven_mul_right (num den : Nat) {d : Nat} (hd : 0 < d) :
    roundHalfEven (num * d) (den * d) = roundHalfEven num den := by
  have hlt : ∀ a b, a * d < b * d ↔ a < b := fun a b => Nat.mul_lt_mul_right hd
  simp only [roundHalfEven, Nat.mul_div_mul_right _ _ hd, Nat.mul_mod_mul_right,
    ← Nat.mul_assoc, hlt]

theorem log2_mul_two_pow {n : Nat} (hn : n ≠ 0) (k : Nat) : (n * 2 ^ k).log2 = n.log2 + k := by
  have hpower := Nat.two_pow_pos k
  rw [Nat.log2_eq_iff (Nat.mul_ne_zero hn hpower.ne'), Nat.pow_add, Nat.add_right_comm, Nat.pow_add]
  exact ⟨Nat.mul_le_mul_right _ (Nat.log2_self_le hn),
    Nat.mul_lt_mul_of_pos_right Nat.lt_log2_self hpower⟩

/-- An integer of more than 52 bits is rounded at the place of the 53rd. -/
theorem nearestTo_eq {n : Nat} (hn : 2 ^ 52 ≤ n) :
    nearestTo n = roundHalfEven n (2 ^ (n.log2 - 52)) * 2 ^ (n.log2 - 52) * one := by
  have hlog : 52 ≤ n.log2 := (Nat.le_log2 (by omega)).mpr hn
  obtain ⟨e, he⟩ := exists_one_eq
  have hplace : (n * 2 ^ e).log2 - 52 = n.log2 - 52 + e := by
    rw [log2_mul_two_pow (by omega)]
    omega
  rw [nearestTo, nearestUnits, Nat.div_one, he, hplace, Nat.shiftLeft_eq, Nat.shiftLeft_eq,
    Nat.one_mul, Nat.pow_add, roundHalfEven_mul_right _ _ (Nat.two_pow_pos e), Nat.mul_assoc]

end Double

end TokenInspector
