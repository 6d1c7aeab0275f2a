import TokenInspector.Proofs.Enumeration.BuiltInNames

/-!
# Values that members cover

The members taken for a value have no bit in common, and all their bits are bits of the value
(`isPartial_takeToEnd`). They cover the value if each of its bits is the value of a member: a bit
that is left over would be taken, whatever was taken before it. They do not if one of its bits
belongs only to members that do not fit, and then no member is the value either
(`display_of_uncovered`). For the built-in flags there is no third case.

Of members without common bits any set is taken back from its union (`takeToEnd_unionOf`).
-/

namespace TokenInspector

/-! ### Single bits -/

theorem bits_bit {k : Nat} (h : k < 64) : bits (bit k) = {k} := by
  ext j
  rw [Finset.mem_singleton, mem_bits]
  show (BitVec.ofNat 64 (1 <<< k)).getLsbD j = true ↔ j = k
  rw [BitVec.getLsbD_ofNat, Nat.one_shiftLeft, Nat.testBit_two_pow]
  simp only [Bool.and_eq_true, decide_eq_true_eq]
  constructor
  · rintro ⟨-, hk⟩
    exact hk.symm
  · rintro rfl
    exact ⟨h, rfl⟩

theorem lt_of_mem_bits {v : Int64} {k : Nat} (h : k ∈ bits v) : k < 64 :=
  Finset.mem_range.mp (Finset.filter_subset _ _ h)

namespace EnumDefinition

variable {definition : EnumDefinition} {members : List EnumMember} {member : EnumMember}
  {value : Int64}

/-! ### What is taken -/

/-- Members that have bits, none of them in common, and only bits of the value. -/
structure IsPartial (value : Int64) (chosen : List EnumMember) : Prop where
  ne_zero : ∀ member ∈ chosen, member.value ≠ 0
  subset : ∀ member ∈ chosen, bits member.value ⊆ bits value
  disjoint : chosen.Pairwise fun a b => Disjoint (bits a.value) (bits b.value)

theorem isPartial_takeToEnd (value : Int64) (members : List EnumMember) :
    IsPartial value (takeToEnd value members).1 := by
  induction members generalizing value with
  | nil => exact ⟨by simp [takeToEnd], by simp [takeToEnd], .nil⟩
  | cons member rest ih =>
    unfold takeToEnd
    split
    · rename_i hc
      obtain ⟨hne, hsub⟩ := covers_iff.mp hc
      have hrest := ih (value &&& ~~~member.value)
      have hbits := bits_andNot value member.value
      refine ⟨List.forall_mem_cons.mpr ⟨hne, hrest.ne_zero⟩, List.forall_mem_cons.mpr ⟨hsub, ?_⟩,
        List.pairwise_cons.mpr ⟨?_, hrest.disjoint⟩⟩
      · intro other hother
        exact (hrest.subset other hother).trans (hbits ▸ Finset.sdiff_subset)
      · -- what follows is taken from what the member leaves
        intro other hother
        have hother := hrest.subset other hother
        rw [hbits] at hother
        exact Finset.disjoint_of_subset_right hother Finset.disjoint_sdiff
    · exact ih value

theorem IsPartial.reverse {chosen : List EnumMember} (h : IsPartial value chosen) :
    IsPartial value chosen.reverse where
  ne_zero member hm := h.ne_zero member (List.mem_reverse.mp hm)
  subset member hm := h.subset member (List.mem_reverse.mp hm)
  disjoint := List.pairwise_reverse.mpr (h.disjoint.imp fun hab => hab.symm)

/-- Members of the definition, without common bits, whose bits are just those of the value. -/
structure IsCover (definition : EnumDefinition) (value : Int64) (chosen : List EnumMember) : Prop
    extends IsPartial value chosen where
  mem : chosen ⊆ definition.members
  union : unionOf chosen = value

/-- The text is found as the names of members that cover the value, without a look for a member
with just that value. -/
def IsNamed (definition : EnumDefinition) (value : Int64) (text : String) : Prop :=
  flagNames? definition.sorted value = some text ∧
    ∃ chosen, IsCover definition value chosen ∧ text = "|".intercalate (chosen.map (·.name))

theorem isNamed_of_left (hv : value ≠ 0)
    (hleft : (takeFlags value definition.sorted.reverse).2 = 0) :
    IsNamed definition value (definition.display value true) := by
  have hbits := bits_takeFlags definition.sorted.reverse value
  have hsub := takeFlags_subset definition.sorted.reverse value
  have hpartial := isPartial_takeToEnd value definition.sorted.reverse
  rw [hleft, bits_zero, Finset.union_empty] at hbits
  rw [← takeFlags_eq_takeToEnd] at hpartial
  have hnames : flagNames? definition.sorted value = some ("|".intercalate
      ((takeFlags value definition.sorted.reverse).1.reverse.map (·.name))) := if_pos hleft
  rw [display_flags definition hv, hnames, Option.getD_some]
  refine ⟨hnames, _, ⟨hpartial.reverse, ?_, ?_⟩, rfl⟩
  · intro member hm
    have hm := hsub (List.mem_reverse.mp hm)
    exact mem_sorted.mp (List.mem_reverse.mp hm)
  · rw [unionOf_congr fun member => List.mem_reverse]
    exact bits_injective hbits

theorem IsNamed.isJoined {text : String} (h : IsNamed definition value text) (hv : value ≠ 0) :
    IsJoined definition text value := by
  obtain ⟨-, chosen, hcover, rfl⟩ := h
  refine ⟨chosen, ?_, hcover.mem, rfl, hcover.union⟩
  rintro rfl
  exact hv hcover.union.symm

/-! ### Values that are covered -/

/-- Nothing is left of a value whose bits are values of members. -/
theorem left_eq_zero (h : ∀ k ∈ bits value, ∃ member ∈ definition.members, member.value = bit k) :
    (takeFlags value definition.sorted.reverse).2 = 0 := by
  obtain ⟨L, hL, -⟩ := existsUnique_isGreedy definition.sorted value
  obtain ⟨taken, left, hwalk, -, hleft, -⟩ := hL.takeFlags_eq
  rw [hwalk]
  show left = 0
  rw [← bits_eq_empty, Finset.eq_empty_iff_forall_notMem]
  intro k hk
  have hvalue : k ∈ bits value := (hleft ▸ Finset.sdiff_subset : bits left ⊆ bits value) hk
  obtain ⟨member, hm, hbit⟩ := h k hvalue
  have hsingle : bits member.value = {k} := hbit ▸ bits_bit (lt_of_mem_bits hvalue)
  have hne : member.value ≠ 0 := by
    rw [Ne, ← bits_eq_empty, hsingle]
    exact Finset.singleton_ne_empty k
  -- the member of this bit would fit into what is left
  refine hL.not_subset (mem_sorted.mpr hm) hne ?_
  rwa [hsingle, ← hleft, Finset.singleton_subset_iff]

theorem isNamed_of_bits (hv : value ≠ 0)
    (h : ∀ k ∈ bits value, ∃ member ∈ definition.members, member.value = bit k) :
    IsNamed definition value (definition.display value true) :=
  isNamed_of_left hv (left_eq_zero h)

/-! ### Values that are not covered -/

/-- A bit that no member within the value has is left over, and no member is the value. -/
theorem display_of_uncovered (hv : value ≠ 0) {k : Nat} (hk : k ∈ bits value)
    (h : ∀ member ∈ definition.members, bits member.value ⊆ bits value → k ∉ bits member.value) :
    definition.display value true = decimal value := by
  have hbits := bits_takeFlags definition.sorted.reverse value
  have hsub := takeFlags_subset definition.sorted.reverse value
  have hpartial := isPartial_takeToEnd value definition.sorted.reverse
  rw [← takeFlags_eq_takeToEnd] at hpartial
  have hmem : ∀ member ∈ definition.sorted, member ∈ definition.members :=
    fun member hm => mem_sorted.mp hm
  have hleft : (takeFlags value definition.sorted.reverse).2 ≠ 0 := by
    intro hzero
    rw [hzero, bits_zero, Finset.union_empty] at hbits
    obtain ⟨member, htaken, hbit⟩ := mem_bits_unionOf.mp (hbits ▸ hk)
    have hm := hmem member (List.mem_reverse.mp (hsub htaken))
    exact h member hm (hpartial.subset member htaken) hbit
  have hnames : flagNames? definition.sorted value = none := if_neg hleft
  have hexact : definition.members.find? (·.value = value) = none := by
    rw [List.find?_eq_none]
    intro member hm hvalue
    obtain rfl : member.value = value := of_decide_eq_true hvalue
    exact h member hm Finset.Subset.rfl hk
  rw [display_flags definition hv, hnames, Option.getD_none, exactName_sorted, hexact]
  rfl

/-! ### Members without common bits -/

/-- No two members have a common bit; a value of zero has no bits. -/
def AreDisjoint (members : List EnumMember) : Prop :=
  members.Pairwise fun a b => Disjoint (bits a.value) (bits b.value)

theorem AreDisjoint.perm {others : List EnumMember} (h : AreDisjoint members)
    (hperm : members.Perm others) : AreDisjoint others :=
  hperm.pairwise h fun hab => hab.symm

theorem unionOf_cons (member : EnumMember) (members : List EnumMember) :
    unionOf (member :: members) = member.value ||| unionOf members := rfl

theorem disjoint_unionOf (h : ∀ other ∈ members, Disjoint (bits member.value) (bits other.value)) :
    Disjoint (bits member.value) (bits (unionOf members)) := by
  rw [Finset.disjoint_left]
  intro k hk hunion
  obtain ⟨other, hother, hbit⟩ := mem_bits_unionOf.mp hunion
  exact Finset.disjoint_left.mp (h other hother) hk hbit

/-- Taking one of two values that have no common bit from their union leaves the other. -/
theorem or_andNot {a b : Int64} (h : Disjoint (bits a) (bits b)) : (a ||| b) &&& ~~~a = b := by
  apply bits_injective
  rw [bits_andNot, bits_or, Finset.union_sdiff_cancel_left h]

/-- The walk takes the members of a union and no others: at each member, what remains is the union
of those chosen members that are still to come. -/
theorem takeToEnd_unionOf (hdisjoint : AreDisjoint members) {isChosen : EnumMember → Bool}
    (hne : ∀ member ∈ members, isChosen member = true → member.value ≠ 0) :
    takeToEnd (unionOf (members.filter isChosen)) members = (members.filter isChosen, 0) := by
  induction members with
  | nil => rfl
  | cons member rest ih =>
    obtain ⟨hfirst, hrest⟩ := List.pairwise_cons.mp hdisjoint
    obtain ⟨hmember, hne⟩ := List.forall_mem_cons.mp hne
    have hfree : Disjoint (bits member.value) (bits (unionOf (rest.filter isChosen))) :=
      disjoint_unionOf fun other hother => hfirst other (List.mem_of_mem_filter hother)
    have ih := ih hrest hne
    unfold takeToEnd
    by_cases hchosen : isChosen member = true
    · have hcovers : covers (member.value ||| unionOf (rest.filter isChosen)) member.value := by
        rw [covers_iff, bits_or]
        exact ⟨hmember hchosen, Finset.subset_union_left⟩
      rw [List.filter_cons_of_pos hchosen, unionOf_cons, if_pos hcovers, or_andNot hfree, ih]
    · have hcovers : ¬ covers (unionOf (rest.filter isChosen)) member.value := by
        rw [covers_iff]
        rintro ⟨hzero, hsub⟩
        exact hzero (eq_zero_of_disjoint (Finset.disjoint_of_subset_right hsub hfree))
      rw [List.filter_cons_of_neg hchosen, if_neg hcovers, ih]

theorem flagNames?_unionOf (hdisjoint : AreDisjoint definition.members)
    {isChosen : EnumMember → Bool}
    (hne : ∀ member ∈ definition.members, isChosen member = true → member.value ≠ 0) :
    flagNames? definition.sorted (unionOf (definition.sorted.filter isChosen)) =
      some ("|".intercalate ((definition.sorted.filter isChosen).map (·.name))) := by
  have hperm : definition.members.Perm definition.sorted.reverse :=
    ((List.reverse_perm _).trans (sorted_perm definition)).symm
  have hwalk := takeToEnd_unionOf (hdisjoint.perm hperm)
    fun member hm => hne member (hperm.mem_iff.mpr hm)
  have hunion : unionOf (definition.sorted.reverse.filter isChosen) =
      unionOf (definition.sorted.filter isChosen) := by
    rw [List.filter_reverse]
    exact unionOf_congr fun member => List.mem_reverse
  rw [hunion, ← takeFlags_eq_takeToEnd] at hwalk
  rw [flagNames?, hwalk]
  simp only [if_true, List.filter_reverse, List.reverse_reverse]

/-- Members without common bits that have bits have distinct values, so they ascend strictly. -/
theorem filter_sorted_pairwise (hdisjoint : AreDisjoint definition.members)
    {isChosen : EnumMember → Bool}
    (hne : ∀ member ∈ definition.members, isChosen member = true → member.value ≠ 0) :
    (definition.sorted.filter isChosen).Pairwise (·.value < ·.value) := by
  have hsorted := hdisjoint.perm (sorted_perm definition).symm
  have hboth := (definition.sorted_pairwise.and hsorted).filter isChosen
  refine hboth.imp_of_mem fun {a b} ha hb hab => ?_
  refine Std.lt_of_le_of_ne hab.1 fun heq => ?_
  obtain ⟨ha, hchosen⟩ := List.mem_filter.mp ha
  refine hne a (mem_sorted.mp ha) hchosen (eq_zero_of_disjoint ?_)
  exact heq ▸ hab.2

end EnumDefinition

/-! ### Built-in flags -/

namespace BuiltIn

/-- The built-in enums of flags. -/
def flagEnums : List BuiltIn := [tokenFlags, modifierFlags, nodeFlags]

/-- The bits of the members of a built-in enum. -/
def namedBits (known : BuiltIn) : Finset Nat :=
  bits (EnumDefinition.unionOf known.definition.members)

/-- Composite flags have no bit that has no name of its own. -/
theorem exists_member_of_namedBits : ∀ known ∈ flagEnums, ∀ k ∈ known.namedBits,
    ∃ member ∈ known.definition.members, member.value = bit k := by
  decide +kernel

theorem sign_not_mem_namedBits : ∀ known ∈ flagEnums, 63 ∉ known.namedBits := by
  decide +kernel

theorem isFlags_of_mem : ∀ known ∈ flagEnums, known.isFlags = true := by
  decide

variable {known : BuiltIn} {value : Int64}

theorem display_of_mem (hknown : known ∈ flagEnums) (value : Int64) :
    known.display value = known.definition.display value true := by
  rw [BuiltIn.display, isFlags_of_mem known hknown]

/-- A bit outside the named ones belongs to no member. -/
theorem exists_unnamed (h : ¬ bits value ⊆ known.namedBits) :
    ∃ k ∈ bits value, ∀ member ∈ known.definition.members, k ∉ bits member.value := by
  obtain ⟨k, hk, hunnamed⟩ := Finset.not_subset.mp h
  refine ⟨k, hk, fun member hm hbit => hunnamed ?_⟩
  exact EnumDefinition.mem_bits_unionOf.mpr ⟨member, hm, hbit⟩

/-- Each bit of a value has a name of its own, or one of them has no name at all. -/
theorem named_or_unnamed (hknown : known ∈ flagEnums) (value : Int64) :
    (∀ k ∈ bits value, ∃ member ∈ known.definition.members, member.value = bit k) ∨
      ∃ k ∈ bits value, ∀ member ∈ known.definition.members, k ∉ bits member.value := by
  by_cases h : bits value ⊆ known.namedBits
  · exact .inl fun k hk => exists_member_of_namedBits known hknown k (h hk)
  · exact .inr (exists_unnamed h)

theorem isNamed_of_subset (hknown : known ∈ flagEnums) (hv : value ≠ 0)
    (h : bits value ⊆ known.namedBits) : known.definition.IsNamed value (known.display value) := by
  rw [display_of_mem hknown]
  exact EnumDefinition.isNamed_of_bits hv fun k hk =>
    exists_member_of_namedBits known hknown k (h hk)

/-- A value of flags is shown in decimal just if it has a bit that has no name. -/
theorem display_eq_decimal_iff (hknown : known ∈ flagEnums) (hv : value ≠ 0) :
    known.display value = decimal value ↔ ¬ bits value ⊆ known.namedBits := by
  constructor
  · intro hdecimal hsub
    have hjoined := (isNamed_of_subset hknown hv hsub).isJoined hv
    exact EnumDefinition.ne_decimal_of_isJoined known.plainNames hjoined value hdecimal
  · intro h
    obtain ⟨k, hk, hunnamed⟩ := exists_unnamed h
    rw [display_of_mem hknown]
    exact EnumDefinition.display_of_uncovered hv hk fun member hm _ => hunnamed member hm

theorem not_subset_of_neg (hknown : known ∈ flagEnums) (hneg : value < 0) :
    ¬ bits value ⊆ known.namedBits :=
  fun hsub => sign_not_mem_namedBits known hknown (hsub (sign_mem_bits.mpr hneg))

end BuiltIn

namespace EnumDefinition

/-- Members cover a value if each of its bits is the value of a member, and a value is shown in
decimal if one of its bits belongs to no member within it. For the built-in flags one of the two
holds of every value, by the bits that have names, which never include the sign. -/
theorem display_coverage :
    (∀ (definition : EnumDefinition) (value : Int64), value ≠ 0 →
      ((∀ k ∈ bits value, ∃ member ∈ definition.members, member.value = bit k) →
        definition.IsNamed value (definition.display value true)) ∧
      ∀ k ∈ bits value,
        (∀ member ∈ definition.members, bits member.value ⊆ bits value → k ∉ bits member.value) →
        definition.display value true = decimal value) ∧
    ∀ known ∈ [BuiltIn.tokenFlags, .modifierFlags, .nodeFlags], ∀ value : Int64, value ≠ 0 →
      ((∀ k ∈ bits value, ∃ member ∈ known.definition.members, member.value = bit k) ∨
        ∃ k ∈ bits value, ∀ member ∈ known.definition.members, k ∉ bits member.value) ∧
      (known.display value = decimal value ↔ ¬ bits value ⊆ known.namedBits) ∧
      (known.display value ≠ decimal value → known.definition.IsNamed value (known.display value)) ∧
      (value < 0 → known.display value = decimal value) := by
  refine ⟨?_, ?_⟩
  · intro definition value hv
    exact ⟨isNamed_of_bits hv, fun k hk hother => display_of_uncovered hv hk hother⟩
  · intro known hknown value hv
    have hiff := BuiltIn.display_eq_decimal_iff hknown hv
    refine ⟨BuiltIn.named_or_unnamed hknown value, hiff, fun hne => ?_,
      fun hneg => hiff.mpr (BuiltIn.not_subset_of_neg hknown hneg)⟩
    exact BuiltIn.isNamed_of_subset hknown hv (Decidable.not_not.mp fun h => hne (hiff.mpr h))

theorem display_coverage_overlapping :
    Int64.minValue + 3 ≠ 0 ∧
    (∀ k ∈ bits (Int64.minValue + 3), ∃ member ∈ overlappingFlags.members, member.value = bit k) ∧
    overlappingFlags.IsNamed (Int64.minValue + 3) "Top|Both" ∧
    (2 ∈ bits 7 ∧ ∀ member ∈ overlappingFlags.members,
      bits member.value ⊆ bits 7 → 2 ∉ bits member.value) ∧
    overlappingFlags.display 7 true = "7" ∧
    BuiltIn.modifierFlags.display (bit 17 + 1) = "131073" ∧
    BuiltIn.nodeFlags.display (-1) = "-1" ∧
    BuiltIn.nodeFlags.definition.IsNamed 7 "BlockScoped" := by
  obtain ⟨hgeneral, hflags⟩ := display_coverage
  have hv : Int64.minValue + 3 ≠ 0 := by decide
  have hbits : ∀ k ∈ bits (Int64.minValue + 3),
      ∃ member ∈ overlappingFlags.members, member.value = bit k := by decide +kernel
  have hbit : 2 ∈ bits 7 := by decide +kernel
  have hother : ∀ member ∈ overlappingFlags.members,
      bits member.value ⊆ bits 7 → 2 ∉ bits member.value := by decide +kernel
  have hmodifiers := hflags .modifierFlags (by simp) (bit 17 + 1) (by decide)
  have hnodes := hflags .nodeFlags (by simp)
  refine ⟨hv, hbits, (hgeneral _ _ hv).1 hbits, ⟨hbit, hother⟩, ?_, ?_, ?_, ?_⟩
  · exact (hgeneral _ 7 (by decide)).2 2 hbit hother
  · exact hmodifiers.2.1.mpr (by decide +kernel)
  · exact (hnodes (-1) (by decide)).2.2.2 (by decide)
  · exact (hnodes 7 (by decide)).2.2.1 (by decide +kernel)

/-- Of members without common bits, the union of any of them is shown as their names, in ascending
order of value, whatever the order in which they are declared or chosen. -/
theorem display_unionOf_disjoint {definition : EnumDefinition}
    (hdisjoint : AreDisjoint definition.members) {chosen : List EnumMember} (hne : chosen ≠ [])
    (hchosen : ∀ member ∈ chosen, member ∈ definition.members ∧ member.value ≠ 0) :
    ∃ listed : List EnumMember, listed.Pairwise (·.value < ·.value) ∧
      (∀ member, member ∈ listed ↔ member ∈ chosen) ∧
      definition.display (unionOf chosen) true = "|".intercalate (listed.map (·.name)) := by
  have hvalue : ∀ member ∈ definition.members, decide (member ∈ chosen) = true →
      member.value ≠ 0 := fun member _ hmember => (hchosen member (of_decide_eq_true hmember)).2
  have hlisted : ∀ member,
      member ∈ definition.sorted.filter (· ∈ chosen) ↔ member ∈ chosen := by
    intro member
    rw [List.mem_filter, decide_eq_true_eq, (sorted_perm definition).mem_iff]
    exact and_iff_right_of_imp fun hm => (hchosen member hm).1
  have hunion : unionOf chosen ≠ 0 := by
    obtain ⟨member, hm⟩ := List.exists_mem_of_ne_nil chosen hne
    intro hzero
    refine (hchosen member hm).2 (bits_eq_empty.mp ?_)
    rw [Finset.eq_empty_iff_forall_notMem]
    intro k hk
    have hk := mem_bits_unionOf.mpr ⟨member, hm, hk⟩
    rw [hzero, bits_zero] at hk
    exact Finset.notMem_empty k hk
  refine ⟨_, filter_sorted_pairwise hdisjoint hvalue, hlisted, ?_⟩
  rw [display_flags definition hunion, ← unionOf_congr hlisted,
    flagNames?_unionOf hdisjoint hvalue, Option.getD_some]

/-- Flags of several bits, declared out of order, one of them the sign bit. -/
def disjointFlags : EnumDefinition :=
  .ofPairs [("High", 12), ("None", 0), ("Top", Int64.minValue), ("Low", 3), ("Zero", 0)]

theorem display_unionOf_disjoint_negative :
    AreDisjoint disjointFlags.members ∧
    (∀ member ∈ [⟨3, "Low"⟩, ⟨Int64.minValue, "Top"⟩],
      member ∈ disjointFlags.members ∧ member.value ≠ 0) ∧
    ∃ listed : List EnumMember, listed.Pairwise (·.value < ·.value) ∧
      (∀ member, member ∈ listed ↔ member ∈ [⟨3, "Low"⟩, ⟨Int64.minValue, "Top"⟩]) ∧
      disjointFlags.display (Int64.minValue + 3) true = "|".intercalate (listed.map (·.name)) := by
  have hdisjoint : AreDisjoint disjointFlags.members := by
    unfold AreDisjoint
    decide +kernel
  have hchosen : ∀ member ∈ [⟨3, "Low"⟩, ⟨Int64.minValue, "Top"⟩],
      member ∈ disjointFlags.members ∧ member.value ≠ 0 := by decide
  exact ⟨hdisjoint, hchosen, display_unionOf_disjoint hdisjoint (List.cons_ne_nil _ _) hchosen⟩

end EnumDefinition

end TokenInspector
