import TokenInspector.Proofs.Enumeration.ReadBack
import Mathlib.Data.Finset.Max

/-!
# Values that are members

For flags a positive value that is a member is shown by the name of that member alone: in the sorted
list nothing above the last member with the value fits into it, since a value within a positive one
is not larger (`le_of_bits_subset`). So the walk takes just that member, and the look for a member
with the whole value, which comes after a failed walk, never finds one. It does for negative values.

Without flags the text is found without sorting: `declaredName` takes the first member declared with
the value, and names zero only if no member is negative.
-/

namespace TokenInspector

namespace EnumDefinition

variable {definition : EnumDefinition} {members : List EnumMember} {value : Int64} {place : Nat}

/-! ### The last member with a value -/

theorem exists_lastPlace (hv : value ≠ 0) (h : ∃ member ∈ members, member.value = value) :
    ∃ place, valueAt members place = value ∧
      ∀ above, place < above → valueAt members above ≠ value := by
  obtain ⟨places, hplaces⟩ : ∃ places : Finset Nat,
      ∀ place, place ∈ places ↔ valueAt members place = value := by
    refine ⟨(Finset.range members.length).filter (valueAt members · = value), fun place => ?_⟩
    rw [Finset.mem_filter, Finset.mem_range]
    exact and_iff_right_of_imp fun hp => lt_length_of_valueAt (hp ▸ hv)
  obtain ⟨member, hm, hvalue⟩ := h
  obtain ⟨i, hi⟩ := List.mem_iff_getElem?.mp hm
  have hne : places.Nonempty := ⟨i, (hplaces i).mpr ((valueAt_of_getElem? hi).trans hvalue)⟩
  refine ⟨places.max' hne, (hplaces _).mp (places.max'_mem hne), ?_⟩
  intro above habove heq
  exact Nat.not_le_of_lt habove (places.le_max' above ((hplaces above).mpr heq))

/-- Members above the last one with a positive value do not fit into it. -/
theorem not_fits_above (hv : 0 < value) (hplace : valueAt definition.sorted place = value)
    (hlast : ∀ above, place < above → valueAt definition.sorted above ≠ value) {above : Nat}
    (habove : place < above) (hne : valueAt definition.sorted above ≠ 0) :
    ¬ bits (valueAt definition.sorted above) ⊆ bits value := by
  intro hsub
  have hle := le_of_bits_subset (Std.le_of_lt hv) hsub
  have hge := valueAt_sorted_le definition habove (lt_length_of_valueAt hne)
  rw [hplace] at hge
  exact hlast above habove (Std.le_antisymm hle hge)

/-- The place of the last member with a positive value is taken, and no other. -/
theorem isGreedy_lastPlace (hv : 0 < value) (hplace : valueAt definition.sorted place = value)
    (hlast : ∀ above, place < above → valueAt definition.sorted above ≠ value) :
    IsGreedy definition.sorted value {place} := by
  have hne : value ≠ 0 := (Std.ne_of_lt hv).symm
  intro other
  rw [Finset.mem_singleton, Finset.filter_singleton]
  rcases Nat.lt_trichotomy other place with hlt | rfl | hgt
  · -- below, no bit is left
    rw [if_pos hlt, bitsAt, Finset.singleton_biUnion, hplace, sdiff_self, Finset.bot_eq_empty,
      Finset.subset_empty, bits_eq_empty]
    exact ⟨fun h => absurd h (Nat.ne_of_lt hlt), fun h => absurd h.2 h.1⟩
  · rw [if_neg (Nat.lt_irrefl _), bitsAt, Finset.biUnion_empty, Finset.sdiff_empty, hplace]
    exact ⟨fun _ => ⟨hne, Finset.Subset.rfl⟩, fun _ => rfl⟩
  · rw [if_neg (Nat.lt_asymm hgt), bitsAt, Finset.biUnion_empty, Finset.sdiff_empty]
    exact ⟨fun h => absurd h (Nat.ne_of_gt hgt),
      fun h => absurd h.2 (not_fits_above hv hplace hlast hgt h.1)⟩

/-- A walk that takes one place only, all of whose bits make up the value. -/
theorem IsGreedy.takeFlags_singleton {member : EnumMember}
    (h : IsGreedy members value {place}) (hmember : members[place]? = some member)
    (hvalue : member.value = value) : takeFlags value members.reverse = ([member], 0) := by
  obtain ⟨taken, left, hwalk, htaken, hleft, -⟩ := h.takeFlags_eq
  have htaken : taken = [member] := by
    rw [Finset.sort_singleton, List.map_singleton, hmember] at htaken
    have hreverse : taken.reverse = [member] :=
      List.map_injective_iff.mpr (Option.some_injective _) htaken.symm
    rw [← List.reverse_reverse taken, hreverse]
    rfl
  have hleft : left = 0 := by
    rw [bitsAt, Finset.singleton_biUnion, valueAt_of_getElem? hmember, hvalue, sdiff_self] at hleft
    exact bits_eq_empty.mp hleft
  rw [hwalk, htaken, hleft]

/-! ### Positive values of flags -/

/-- The member has the value, and of those that have it, it is the one declared last. -/
def IsDeclaredLast (definition : EnumDefinition) (value : Int64) (member : EnumMember) : Prop :=
  ∃ d, definition.members[d]? = some member ∧ member.value = value ∧
    ∀ (e : Nat) (other : EnumMember), definition.members[e]? = some other →
      other.value = value → e ≤ d

/-- The walk takes the member declared last with a positive value, and leaves nothing. -/
theorem takeFlags_of_pos (hv : 0 < value)
    (h : ∃ member ∈ definition.members, member.value = value) :
    ∃ member, IsDeclaredLast definition value member ∧
      takeFlags value definition.sorted.reverse = ([member], 0) := by
  have hsorted : ∃ member ∈ definition.sorted, member.value = value := by
    obtain ⟨member, hm, hvalue⟩ := h
    exact ⟨member, mem_sorted.mpr hm, hvalue⟩
  obtain ⟨place, hplace, hlast⟩ := exists_lastPlace (Std.ne_of_lt hv).symm hsorted
  have hgreedy := isGreedy_lastPlace hv hplace hlast
  obtain ⟨d, -, hdeclared, hlater⟩ := hgreedy.declaredLast (Finset.mem_singleton_self place)
  have hmember := List.getElem?_eq_getElem (hgreedy.lt_length (Finset.mem_singleton_self place))
  have hvalue := (valueAt_of_getElem? hmember).symm.trans hplace
  rw [hplace] at hlater
  exact ⟨_, ⟨d, hdeclared.trans hmember, hvalue, hlater⟩,
    hgreedy.takeFlags_singleton hmember hvalue⟩

/-- A positive value that is a member is shown as the member declared last with it, alone; a
positive value that the walk fails on is no member and is shown in decimal. -/
theorem display_of_pos (definition : EnumDefinition) {value : Int64} (hv : 0 < value) :
    ((∃ member ∈ definition.members, member.value = value) →
      ∃ member, IsDeclaredLast definition value member ∧
        takeFlags value definition.sorted.reverse = ([member], 0) ∧
        definition.display value true = member.name) ∧
    (flagNames? definition.sorted value = none →
      definition.sorted.find? (·.value = value) = none ∧
        definition.display value true = decimal value) := by
  have hdisplay := display_flags definition (Std.ne_of_lt hv).symm
  have hnames : ∀ member, takeFlags value definition.sorted.reverse = ([member], 0) →
      flagNames? definition.sorted value = some member.name := by
    intro member hwalk
    rw [flagNames?, hwalk]
    exact congrArg some (String.intercalate_singleton ..)
  constructor
  · intro h
    obtain ⟨member, hlast, hwalk⟩ := takeFlags_of_pos hv h
    refine ⟨member, hlast, hwalk, ?_⟩
    rw [hdisplay, hnames member hwalk, Option.getD_some]
  · intro hnone
    have hfind : definition.sorted.find? (·.value = value) = none := by
      rw [find?_sorted, List.find?_eq_none]
      intro member hm hvalue
      obtain ⟨last, -, hwalk⟩ := takeFlags_of_pos hv ⟨member, hm, of_decide_eq_true hvalue⟩
      rw [hnames last hwalk] at hnone
      cases hnone
    refine ⟨hfind, ?_⟩
    rw [hdisplay, hnone, Option.getD_none, exactName, hfind]
    rfl

/-- Two names of one composite value, a larger member with the same bits and a negative one. -/
def compositeFlags : EnumDefinition :=
  .ofPairs [("Low", 1), ("Pair", 3), ("All", -1), ("High", 2), ("Twin", 3), ("Wide", 7)]

theorem display_of_pos_composite :
    (0 : Int64) < 3 ∧ (∃ member ∈ compositeFlags.members, member.value = 3) ∧
    (∃ member, IsDeclaredLast compositeFlags 3 member ∧
      takeFlags 3 compositeFlags.sorted.reverse = ([member], 0) ∧
      compositeFlags.display 3 true = member.name) ∧
    (0 : Int64) < 5 ∧ flagNames? compositeFlags.sorted 5 = none ∧
    compositeFlags.sorted.find? (·.value = 5) = none ∧
    compositeFlags.display 5 true = decimal 5 := by
  have hthree : (0 : Int64) < 3 := by decide
  have hfive : (0 : Int64) < 5 := by decide
  have hmember : ∃ member ∈ compositeFlags.members, member.value = 3 := by decide
  have hnone : flagNames? compositeFlags.sorted 5 = none := by decide
  exact ⟨hthree, hmember, (display_of_pos compositeFlags hthree).1 hmember, hfive, hnone,
    (display_of_pos compositeFlags hfive).2 hnone⟩

/-- A negative value lies below the members that fit into it, so they are taken before it. -/
example : flagNames? compositeFlags.sorted (-1) = none ∧
    compositeFlags.display (-1) true = "All" := by
  decide

/-! ### Names without sorting -/

/-- The name of the first member declared with a value, or else the value in decimal; zero has no
name if a member is negative. -/
def declaredName (definition : EnumDefinition) (value : Int64) : String :=
  if value = 0 ∧ ∃ member ∈ definition.members, member.value < 0 then "0"
  else
    match definition.members.find? (·.value = value) with
    | some member => member.name
    | none => decimal value

variable {first : EnumMember} {rest : List EnumMember}

theorem decimal_zero : decimal 0 = "0" := by
  decide

/-- The first of the sorted members has the lowest value. -/
theorem first_le (hsorted : definition.sorted = first :: rest) :
    first ∈ definition.members ∧ ∀ member ∈ definition.members, first.value ≤ member.value := by
  have hpairwise := definition.sorted_pairwise
  rw [hsorted, List.pairwise_cons] at hpairwise
  have hmem : ∀ member, member ∈ definition.members ↔ member ∈ first :: rest := by
    intro member
    rw [← hsorted, mem_sorted]
  refine ⟨(hmem first).mpr List.mem_cons_self, fun member hm => ?_⟩
  rcases List.mem_cons.mp ((hmem member).mp hm) with rfl | hm
  · exact Std.le_refl _
  · exact hpairwise.1 member hm

/-- A value below the first of the sorted members is no member. -/
theorem find?_of_lt_first (hsorted : definition.sorted = first :: rest)
    (hlt : value < first.value) : definition.members.find? (·.value = value) = none := by
  rw [List.find?_eq_none]
  intro member hm hvalue
  have hle := (first_le hsorted).2 member hm
  rw [of_decide_eq_true hvalue] at hle
  exact Std.not_le_of_gt hlt hle

/-- The head of the sorted members is zero just if zero is a member and no member is negative. -/
theorem zeroName_sorted (definition : EnumDefinition) :
    zeroName definition.sorted = definition.declaredName 0 := by
  unfold zeroName declaredName
  cases hsorted : definition.sorted with
  | nil =>
    have hmembers : definition.members = [] :=
      List.nil_perm.mp (hsorted ▸ sorted_perm definition)
    simp [hmembers, decimal_zero]
  | cons first rest =>
    obtain ⟨hfirst, hle⟩ := first_le hsorted
    show (if first.value = 0 then first.name else "0") = _
    by_cases hneg : ∃ member ∈ definition.members, member.value < 0
    · obtain ⟨member, hm, hlt⟩ := id hneg
      have hne : first.value ≠ 0 := Std.ne_of_lt (Std.lt_of_le_of_lt (hle member hm) hlt)
      rw [if_neg hne, if_pos ⟨rfl, hneg⟩]
    · have hguard : ¬ ((0 : Int64) = 0 ∧ ∃ member ∈ definition.members, member.value < 0) :=
        fun h => hneg h.2
      rw [if_neg hguard]
      have hge : 0 ≤ first.value := Std.not_lt.mp fun hlt => hneg ⟨first, hfirst, hlt⟩
      by_cases hzero : first.value = 0
      · have hfound : definition.members.find? (·.value = 0) = some first := by
          rw [← find?_sorted, hsorted]
          exact List.find?_cons_of_pos (decide_eq_true hzero)
        rw [if_pos hzero, hfound]
      · have hpos : 0 < first.value := Std.lt_of_le_of_ne hge fun heq => hzero heq.symm
        rw [if_neg hzero, find?_of_lt_first hsorted hpos, decimal_zero]

/-- Without flags, and for zero with flags too, the text is found without sorting. -/
theorem display_eq_declaredName (definition : EnumDefinition) (value : Int64) :
    definition.display value false = definition.declaredName value ∧
      definition.display 0 true = definition.declaredName 0 := by
  have hzero : ∀ flags, definition.display 0 flags = definition.declaredName 0 := by
    intro flags
    rw [← zeroName_sorted]
    rfl
  refine ⟨?_, hzero true⟩
  by_cases hv : value = 0
  · rw [hv, hzero false]
  · have hexact : definition.display value false = exactName definition.sorted value := by
      simp [display, hv]
    rw [hexact, exactName, find?_sorted, declaredName, if_neg (fun h => hv h.1)]
    rfl

/-- A negative member takes the name from zero. -/
example : (ofPairs [("Zero", 0), ("Below", -4)]).display 0 false = "0" := by
  decide

end EnumDefinition

end TokenInspector
