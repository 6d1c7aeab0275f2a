import TokenInspector.Enumeration.Display
import Mathlib.Data.Finset.Lattice.Fold

/-!
# Bits of a value

`bits v` is the set of the positions at which a value has a bit, position 63 being the sign. Masking
is set algebra on it, and values without a common bit add up as integers (`toInt_or`).
-/

namespace TokenInspector

/-- The positions of the bits of a value. -/
def bits (v : Int64) : Finset Nat := (Finset.range 64).filter (v.toBitVec.getLsbD ·)

theorem mem_bits {v : Int64} {k : Nat} : k ∈ bits v ↔ v.toBitVec.getLsbD k = true := by
  unfold bits
  rw [Finset.mem_filter, Finset.mem_range]
  constructor
  · exact And.right
  · intro h
    exact ⟨BitVec.lt_of_getLsbD h, h⟩

theorem bits_injective : Function.Injective bits := by
  intro a b h
  apply Int64.toBitVec_inj.mp
  apply BitVec.eq_of_getLsbD_eq
  intro k _
  rw [Bool.eq_iff_iff, ← mem_bits, ← mem_bits, h]

@[simp] theorem bits_zero : bits 0 = ∅ := by
  ext k
  simp [mem_bits]

theorem bits_eq_empty {v : Int64} : bits v = ∅ ↔ v = 0 := by
  rw [← bits_zero]
  exact bits_injective.eq_iff

theorem eq_zero_of_disjoint {v : Int64} (h : Disjoint (bits v) (bits v)) : v = 0 :=
  bits_eq_empty.mp (disjoint_self.mp h)

theorem bits_and (a b : Int64) : bits (a &&& b) = bits a ∩ bits b := by
  ext k
  simp [mem_bits]

theorem bits_or (a b : Int64) : bits (a ||| b) = bits a ∪ bits b := by
  ext k
  simp [mem_bits]

theorem bits_andNot (a b : Int64) : bits (a &&& ~~~b) = bits a \ bits b := by
  ext k
  rw [Finset.mem_sdiff]
  simp only [mem_bits, Int64.toBitVec_and, Int64.toBitVec_not, BitVec.getLsbD_and,
    BitVec.getLsbD_not, Bool.and_eq_true, decide_eq_true_eq, Bool.not_eq_true',
    Bool.not_eq_true]
  constructor
  · rintro ⟨ha, -, hb⟩
    exact ⟨ha, hb⟩
  · rintro ⟨ha, hb⟩
    exact ⟨ha, BitVec.lt_of_getLsbD ha, hb⟩

theorem and_eq_right_iff {a b : Int64} : a &&& b = b ↔ bits b ⊆ bits a := by
  rw [← bits_injective.eq_iff, bits_and, Finset.inter_eq_right]

/-- The last bit is the sign. -/
theorem sign_mem_bits {v : Int64} : 63 ∈ bits v ↔ v < 0 := by
  have hmsb : v.toBitVec.getLsbD 63 = v.toBitVec.msb := (BitVec.msb_eq_getLsbD_last _).symm
  rw [mem_bits, hmsb, BitVec.msb_eq_toInt, decide_eq_true_eq, Int64.lt_iff_toInt_lt,
    Int64.toInt_toBitVec]
  rfl

theorem covers_iff {a b : Int64} :
    EnumDefinition.covers a b = true ↔ b ≠ 0 ∧ bits b ⊆ bits a := by
  simp [EnumDefinition.covers, and_eq_right_iff]

/-- At most one of two values without a common bit is negative, so their union is their sum. -/
theorem toInt_or {a b : Int64} (h : Disjoint (bits a) (bits b)) :
    (a ||| b).toInt = a.toInt + b.toInt := by
  have hand : a.toBitVec &&& b.toBitVec = 0#64 := by
    rw [Finset.disjoint_iff_inter_eq_empty, ← bits_and, bits_eq_empty] at h
    exact congrArg Int64.toBitVec h
  have hnat : (a ||| b).toBitVec.toNat = a.toBitVec.toNat + b.toBitVec.toNat := by
    rw [Int64.toBitVec_or, ← BitVec.add_eq_or_of_and_eq_zero _ _ hand,
      BitVec.toNat_add_of_and_eq_zero hand]
  have hmsb : (a ||| b).toBitVec.msb = (a.toBitVec.msb || b.toBitVec.msb) := by simp
  have hsign : (a.toBitVec.msb && b.toBitVec.msb) = false := by
    rw [← BitVec.msb_and, hand, BitVec.msb_zero]
  simp only [← Int64.toInt_toBitVec, BitVec.toInt_eq_msb_cond, hnat, hmsb]
  cases ha : a.toBitVec.msb <;> cases hb : b.toBitVec.msb <;> simp_all <;> omega

theorem toInt_andNot {a b : Int64} (h : bits b ⊆ bits a) :
    b.toInt + (a &&& ~~~b).toInt = a.toInt := by
  rw [← toInt_or]
  · congr 1
    apply bits_injective
    rw [bits_or, bits_andNot, Finset.union_sdiff_of_subset h]
  · rw [bits_andNot]
    exact Finset.disjoint_sdiff

/-- Taking bits away from a value that is not negative does not make it larger. -/
theorem le_of_bits_subset {a b : Int64} (ha : 0 ≤ a) (h : bits b ⊆ bits a) : b ≤ a := by
  have hrest : ¬ (a &&& ~~~b) < 0 := by
    rw [← sign_mem_bits, bits_andNot, Finset.mem_sdiff, sign_mem_bits]
    intro hneg
    exact Std.not_lt_of_ge ha hneg.1
  have hsum := toInt_andNot h
  rw [Int64.lt_iff_toInt_lt, Int64.toInt_zero] at hrest
  rw [Int64.le_iff_toInt_le]
  omega

end TokenInspector
