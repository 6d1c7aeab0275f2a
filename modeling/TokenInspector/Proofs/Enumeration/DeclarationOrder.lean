import TokenInspector.Proofs.Enumeration.FlagNames
import Mathlib.Data.List.Nodup

/-!
# Order of declaration

Texts are read off the sorted members, and these depend on the order of declaration only where two
members have one value: definitions that list the same members, those of one value in the same order
(`IsReordering`), have the same sorted members and the same texts. The sorted members are themselves
such a list, and if no two members have one value any order is.
-/

namespace TokenInspector

namespace EnumDefinition

variable {definition other : EnumDefinition}

/-- Both definitions have the same members, and those of one value in the same order: the members of
`other` can be listed with their places in `definition` so that of two members with one value the
one that `definition` has first comes first. -/
def IsReordering (definition other : EnumDefinition) : Prop :=
  ∃ placed : List (EnumMember × Nat), placed.Perm definition.members.zipIdx ∧
    placed.map (·.1) = other.members ∧
    placed.Pairwise fun a b => a.1.value = b.1.value → a.2 < b.2

theorem compareMembers_eq_iff {a b : EnumMember} :
    compareMembers a b = .eq ↔ a.value = b.value := by
  constructor
  · intro h
    have hab := compareMembers_isLE.mp (Ordering.isLE_of_eq_eq h)
    have hba := compareMembers_isLE.mp (Ordering.isLE_of_eq_eq (Std.OrientedCmp.eq_symm h))
    exact Std.le_antisymm hab hba
  · exact compareMembers_eq

theorem isReordering_iff : definition.IsReordering other ↔
    ∃ placed, Reorders compareMembers definition.members other.members placed := by
  constructor
  · rintro ⟨placed, hperm, hitems, hties⟩
    exact ⟨placed, hperm, hitems, hties.imp fun h heq => h (compareMembers_eq_iff.mp heq)⟩
  · rintro ⟨placed, h⟩
    exact ⟨placed, h.perm, h.items, h.ties.imp fun h heq => h (compareMembers_eq heq)⟩

theorem IsReordering.sorted_eq (h : definition.IsReordering other) :
    other.sorted = definition.sorted := by
  obtain ⟨placed, h⟩ := isReordering_iff.mp h
  exact h.stableSort_eq

theorem isReordering_sorted (definition : EnumDefinition) :
    definition.IsReordering ⟨definition.sorted⟩ :=
  isReordering_iff.mpr ⟨_, reorders_stableSort definition.members⟩

/-- If no two members have one value, every order of them is sorted alike. -/
theorem sorted_eq_of_perm (hperm : definition.members.Perm other.members)
    (hvalues : (definition.members.map (·.value)).Nodup) : other.sorted = definition.sorted := by
  refine List.Perm.eq_of_pairwise ?_ other.sorted_pairwise definition.sorted_pairwise
    ((sorted_perm other).trans (hperm.symm.trans (sorted_perm definition).symm))
  intro a b ha hb hab hba
  have ha := hperm.mem_iff.mpr (mem_sorted.mp ha)
  exact List.inj_on_of_nodup_map hvalues ha (mem_sorted.mp hb) (Std.le_antisymm hab hba)

theorem display_congr (h : other.sorted = definition.sorted) (value : Int64) (flags : Bool) :
    other.display value flags = definition.display value flags := by
  simp only [display, h]

/-- The order of declaration matters only among members of one value. -/
theorem display_of_isReordering (definition : EnumDefinition) :
    (∀ other, definition.IsReordering other → other.sorted = definition.sorted ∧
      ∀ value flags, other.display value flags = definition.display value flags) ∧
    definition.IsReordering ⟨definition.sorted⟩ ∧
    (∀ value flags, (EnumDefinition.mk definition.sorted).display value flags =
      definition.display value flags) ∧
    ∀ other : EnumDefinition, definition.members.Perm other.members →
      (definition.members.map (·.value)).Nodup → other.sorted = definition.sorted ∧
        ∀ value flags, other.display value flags = definition.display value flags := by
  refine ⟨?_, definition.isReordering_sorted, ?_, ?_⟩
  · intro other h
    exact ⟨h.sorted_eq, display_congr h.sorted_eq⟩
  · exact display_congr definition.isReordering_sorted.sorted_eq
  · intro other hperm hvalues
    have hsorted := sorted_eq_of_perm hperm hvalues
    exact ⟨hsorted, display_congr hsorted⟩

/-- Two names of one value, and members out of order. -/
def scattered : EnumDefinition := .ofPairs [("B", 2), ("Top", -1), ("A", 1), ("Both", 2)]

/-- The same members in another order, the two names in the same one. -/
def gathered : EnumDefinition := .ofPairs [("A", 1), ("B", 2), ("Both", 2), ("Top", -1)]

theorem display_of_isReordering_scattered :
    scattered.IsReordering gathered ∧ gathered.sorted = scattered.sorted ∧
    gathered.display 3 true = scattered.display 3 true ∧
    gathered.display 2 false = scattered.display 2 false := by
  have horder : scattered.IsReordering gathered :=
    ⟨[(⟨1, "A"⟩, 2), (⟨2, "B"⟩, 0), (⟨2, "Both"⟩, 3), (⟨-1, "Top"⟩, 1)], by decide, by decide,
      by decide⟩
  obtain ⟨hreorder, -, -, -⟩ := display_of_isReordering scattered
  obtain ⟨hsorted, hdisplay⟩ := hreorder gathered horder
  exact ⟨horder, hsorted, hdisplay 3 true, hdisplay 2 false⟩

/-- The order of two names of one value does matter. -/
example : (ofPairs [("B", 2), ("Both", 2)]).display 2 false = "B" ∧
    (ofPairs [("Both", 2), ("B", 2)]).display 2 false = "Both" := by
  decide

end EnumDefinition

end TokenInspector
