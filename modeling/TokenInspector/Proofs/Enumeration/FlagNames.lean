import TokenInspector.Proofs.Enumeration.Greedy

/-!
# Names of flags

The text of a value of flags is read off the greedy set of places in the sorted members:
`GreedyChoice definition value L` says that the places of `L` hold disjoint members, that no other
member fits into the bits they leave, and that the text is their names if their values add up to
the value and the exact name of the value otherwise. `display_greedy` shows it of every value but
zero.
-/

namespace TokenInspector

namespace EnumDefinition

/-! ### Sorted members -/

instance : Std.TransCmp compareMembers where
  eq_swap {a b} := Std.OrientedCmp.eq_swap (a := some a.value) (b := some b.value)
  isLE_trans {a b c} :=
    Std.TransCmp.isLE_trans (a := some a.value) (b := some b.value) (c := some c.value)

theorem compareMembers_isLE {a b : EnumMember} : (compareMembers a b).isLE ↔ a.value ≤ b.value :=
  compareKeys_isLE

theorem compareMembers_eq {a b : EnumMember} (h : a.value = b.value) :
    compareMembers a b = .eq := by
  simp [compareMembers, compareKeys, h]

theorem sorted_pairwise (definition : EnumDefinition) :
    definition.sorted.Pairwise (·.value ≤ ·.value) :=
  (stableSort_pairwise definition.members).imp compareMembers_isLE.mp

theorem sorted_ties {definition : EnumDefinition} {R : EnumMember → EnumMember → Prop}
    (h : definition.members.Pairwise R) :
    definition.sorted.Pairwise fun a b => a.value = b.value → R a b :=
  (stableSort_ties h).imp fun htie hvalue => htie (compareMembers_eq hvalue)

theorem valueAt_sorted_le (definition : EnumDefinition) {i j : Nat} (hij : i < j)
    (hj : j < definition.sorted.length) :
    valueAt definition.sorted i ≤ valueAt definition.sorted j := by
  have h := List.pairwise_iff_getElem.mp definition.sorted_pairwise i j (by omega) hj hij
  rwa [valueAt_of_getElem? (List.getElem?_eq_getElem hj),
    valueAt_of_getElem? (List.getElem?_eq_getElem (by omega))]

/-- The first of the sorted members with a value is the first one declared with it. -/
theorem find?_sorted (definition : EnumDefinition) (value : Int64) :
    definition.sorted.find? (·.value = value) = definition.members.find? (·.value = value) := by
  refine find?_stableSort ?_ definition.members
  intro a b ha hb
  simp only [decide_eq_true_eq] at ha hb
  rw [compareMembers_eq (ha.trans hb.symm)]
  decide

/-- The sorted members with the places at which they are declared. -/
def placed (definition : EnumDefinition) : List (EnumMember × Nat) :=
  sortPlaced compareMembers definition.members.zipIdx

/-- The places at which the sorted members are declared. -/
def declaredAt (definition : EnumDefinition) : List Nat :=
  sortedIndices compareMembers definition.members

theorem placed_pairwise (definition : EnumDefinition) :
    definition.placed.Pairwise (comparePlaced compareMembers · · = .lt) :=
  sortPlaced_pairwise (zipIdx_pairwise definition.members)

theorem mem_placed {definition : EnumDefinition} {member : EnumMember} {d : Nat} :
    (member, d) ∈ definition.placed ↔ definition.members[d]? = some member :=
  mem_sortPlaced

theorem sorted_getElem?_of_placed {definition : EnumDefinition} {place d : Nat}
    {member : EnumMember} (h : definition.placed[place]? = some (member, d)) :
    definition.sorted[place]? = some member := by
  rw [sorted, ← sortPlaced_map_fst, List.getElem?_map, ← placed, h]
  rfl

theorem declaredAt_of_placed {definition : EnumDefinition} {place d : Nat}
    {member : EnumMember} (h : definition.placed[place]? = some (member, d)) :
    definition.declaredAt[place]? = some d := by
  rw [declaredAt, ← sortPlaced_map_snd, List.getElem?_map, ← placed, h]
  rfl

theorem exists_placed (definition : EnumDefinition) {place : Nat}
    (h : place < definition.sorted.length) :
    ∃ member d, definition.placed[place]? = some (member, d) := by
  have hlen : definition.placed.length = definition.sorted.length := by
    rw [sorted, ← sortPlaced_map_fst, List.length_map, placed]
  exact ⟨_, _, List.getElem?_eq_getElem (hlen ▸ h)⟩

/-- Of the members that share a value, the last sorted one is the one declared last. -/
theorem le_of_placed {definition : EnumDefinition} {place d e : Nat} {member other : EnumMember}
    (hplaced : definition.placed[place]? = some (member, d))
    (hlast : ∀ above, place < above → valueAt definition.sorted above ≠ member.value)
    (hother : definition.members[e]? = some other) (hvalue : other.value = member.value) :
    e ≤ d := by
  obtain ⟨above, habove⟩ := List.mem_iff_getElem?.mp (mem_placed.mpr hother)
  rcases Nat.lt_trichotomy above place with h | rfl | h
  · have hlt := rel_of_pairwise definition.placed_pairwise habove hplaced h
    rw [comparePlaced_lt, compareMembers_eq hvalue] at hlt
    simp only [reduceCtorEq, false_or, true_and] at hlt
    exact Nat.le_of_lt hlt
  · rw [hplaced] at habove
    cases habove
    exact Nat.le_refl _
  · have hsorted := sorted_getElem?_of_placed habove
    exact absurd ((valueAt_of_getElem? hsorted).trans hvalue) (hlast above h)

/-! ### Greedy text -/

/-- What the taken places `L` say about a value: their members are disjoint and ascend, each is the
one declared last with its value, no other member fits into the bits that they leave, and they name
the value if they add up to it. -/
structure GreedyChoice (definition : EnumDefinition) (value : Int64) (L : Finset Nat) : Prop where
  disjoint : ∀ i ∈ L, ∀ j ∈ L, i < j →
    Disjoint (bits (valueAt definition.sorted i)) (bits (valueAt definition.sorted j))
  ascending : ∀ i ∈ L, ∀ j ∈ L, i < j →
    valueAt definition.sorted i < valueAt definition.sorted j
  declaredLast : ∀ i ∈ L, ∃ d, definition.declaredAt[i]? = some d ∧
    definition.members[d]? = definition.sorted[i]? ∧
    ∀ (e : Nat) (other : EnumMember), definition.members[e]? = some other →
      other.value = valueAt definition.sorted i → e ≤ d
  maximal : ∀ member ∈ definition.members, member.value ≠ 0 →
    ¬ bits member.value ⊆ bits value \ bitsAt definition.sorted L
  names : flagNames? definition.sorted value =
    if ∑ i ∈ L, (valueAt definition.sorted i).toInt = value.toInt then
      some ("|".intercalate (L.sort.map (nameAt definition.sorted)))
    else none
  text : definition.display value true =
    if ∑ i ∈ L, (valueAt definition.sorted i).toInt = value.toInt then
      "|".intercalate (L.sort.map (nameAt definition.sorted))
    else ((definition.members.find? (·.value = value)).map (·.name)).getD (toString value.toInt)

theorem exactName_sorted (definition : EnumDefinition) (value : Int64) :
    exactName definition.sorted value =
      ((definition.members.find? (·.value = value)).map (·.name)).getD (toString value.toInt) := by
  rw [exactName, find?_sorted]
  cases definition.members.find? (·.value = value) <;> rfl

theorem display_flags (definition : EnumDefinition) {value : Int64} (hv : value ≠ 0) :
    definition.display value true =
      (flagNames? definition.sorted value).getD (exactName definition.sorted value) := by
  simp [display, hv]

theorem IsGreedy.ascending {definition : EnumDefinition} {value : Int64} {L : Finset Nat}
    (h : IsGreedy definition.sorted value L) {i j : Nat} (hi : i ∈ L) (hj : j ∈ L) (hij : i < j) :
    valueAt definition.sorted i < valueAt definition.sorted j :=
  Std.lt_of_le_of_ne (valueAt_sorted_le definition hij (h.lt_length hj)) (h.valueAt_ne hi hij).symm

theorem IsGreedy.declaredLast {definition : EnumDefinition} {value : Int64} {L : Finset Nat}
    (h : IsGreedy definition.sorted value L) {i : Nat} (hi : i ∈ L) :
    ∃ d, definition.declaredAt[i]? = some d ∧ definition.members[d]? = definition.sorted[i]? ∧
      ∀ (e : Nat) (other : EnumMember), definition.members[e]? = some other →
        other.value = valueAt definition.sorted i → e ≤ d := by
  obtain ⟨member, d, hplaced⟩ := definition.exists_placed (h.lt_length hi)
  have hsorted := sorted_getElem?_of_placed hplaced
  have hvalue := valueAt_of_getElem? hsorted
  refine ⟨d, declaredAt_of_placed hplaced, ?_, ?_⟩
  · rw [hsorted]
    exact mem_placed.mp (List.mem_of_getElem? hplaced)
  · intro e other hother heq
    refine le_of_placed hplaced ?_ hother (heq.trans hvalue)
    intro above habove
    rw [← hvalue]
    exact h.valueAt_ne hi habove

/-- The walk down the sorted members takes the one greedy set of places, whether or not it stops
when nothing remains, and the text is read off that set. -/
theorem display_greedy (definition : EnumDefinition) {value : Int64} (hv : value ≠ 0) :
    (∃! L, IsGreedy definition.sorted value L) ∧
    (∀ L, IsGreedy definition.sorted value L → GreedyChoice definition value L) ∧
    takeFlags value definition.sorted.reverse = takeToEnd value definition.sorted.reverse := by
  refine ⟨existsUnique_isGreedy _ _, ?_, takeFlags_eq_takeToEnd _ _⟩
  intro L h
  refine ⟨fun i hi j hj => h.disjoint hi hj, fun i hi j hj => h.ascending hi hj,
    fun i hi => h.declaredLast hi, ?_, h.flagNames?_eq, ?_⟩
  · intro member hm hne
    exact h.not_subset ((sorted_perm definition).mem_iff.mpr hm) hne
  · rw [display_flags definition hv, h.flagNames?_eq, exactName_sorted]
    split <;> rfl

/-- Flags that overlap, two names of one value, and the sign bit. -/
def overlappingFlags : EnumDefinition :=
  .ofPairs [("None", 0), ("A", 1), ("AB", 3), ("B", 2), ("Both", 3), ("Top", Int64.minValue)]

theorem display_greedy_overlapping :
    Int64.minValue + 3 ≠ 0 ∧ IsGreedy overlappingFlags.sorted (Int64.minValue + 3) {0, 5} ∧
      GreedyChoice overlappingFlags (Int64.minValue + 3) {0, 5} ∧
      overlappingFlags.display (Int64.minValue + 3) true = "Top|Both" := by
  have hv : Int64.minValue + 3 ≠ 0 := by decide
  have hL : IsGreedy overlappingFlags.sorted (Int64.minValue + 3) {0, 5} := by decide +kernel
  exact ⟨hv, hL, (display_greedy overlappingFlags hv).2.1 _ hL, by decide⟩

end EnumDefinition

end TokenInspector
