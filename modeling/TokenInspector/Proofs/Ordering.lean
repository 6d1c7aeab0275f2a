import TokenInspector.Ordering

/-!
# Stable sorting

`comparePlaced` compares items by a comparison and breaks ties by their places. For a comparison
that is a total preorder (`Std.TransCmp`) the places that `sortedIndices` lists are strictly
ascending in it, so `stableSort` is sorted and keeps equal items in their order. There is only one
such list of the items with their places, so `stableSort` does not depend on how the items come, as
long as equal ones keep their order (`Reorders`).
-/

namespace TokenInspector

/-! ### Comparing keys -/

section

variable {α : Type} [BEq α] [LawfulBEq α] [LT α] [DecidableLT α] [LE α] [Std.LawfulOrderLT α]

theorem compareKeys_of_lt [Std.IsPreorder α] {a b : α} (h : a < b) :
    compareKeys (some a) (some b) = .lt := by
  have hne : (a == b) = false := by simpa using Std.ne_of_lt h
  simp [compareKeys, hne, h]

theorem compareKeys_of_gt [Std.IsPreorder α] {a b : α} (h : b < a) :
    compareKeys (some a) (some b) = .gt := by
  have hne : (a == b) = false := by simpa using (Std.ne_of_lt h).symm
  simp [compareKeys, hne, Std.not_gt_of_lt h]

variable [Std.IsLinearOrder α]

theorem compareKeys_isLE {a b : α} : (compareKeys (some a) (some b)).isLE ↔ a ≤ b := by
  rcases Std.lt_trichotomy a b with h | h | h
  · simp [compareKeys_of_lt h, Std.le_of_lt h]
  · subst h
    simp [compareKeys, Std.le_refl]
  · simp [compareKeys_of_gt h, Std.not_le_of_gt h]

instance : Std.TransCmp (compareKeys : Option α → Option α → Ordering) where
  eq_swap {a b} := by
    rcases a with _ | a <;> rcases b with _ | b <;> try rfl
    rcases Std.lt_trichotomy a b with h | h | h
    · rw [compareKeys_of_lt h, compareKeys_of_gt h, Ordering.swap_gt]
    · subst h
      simp [compareKeys]
    · rw [compareKeys_of_lt h, compareKeys_of_gt h, Ordering.swap_lt]
  isLE_trans {a b c} hab hbc := by
    rcases a with _ | a <;> rcases b with _ | b <;> rcases c with _ | c <;> try trivial
    rw [compareKeys_isLE] at hab hbc ⊢
    exact Std.le_trans hab hbc

end

theorem rel_of_pairwise {α : Type} {R : α → α → Prop} {items : List α} (h : items.Pairwise R)
    {i j : Nat} {a b : α} (ha : items[i]? = some a) (hb : items[j]? = some b) (hij : i < j) :
    R a b := by
  obtain ⟨hi, rfl⟩ := List.getElem?_eq_some_iff.mp ha
  obtain ⟨hj, rfl⟩ := List.getElem?_eq_some_iff.mp hb
  exact List.pairwise_iff_getElem.mp h i j hi hj hij

/-! ### Sorting with places -/

section

variable {α : Type} {cmp : α → α → Ordering}

/-- Compares items by `cmp`, then by their places. -/
def comparePlaced (cmp : α → α → Ordering) (a b : α × Nat) : Ordering :=
  (cmp a.1 b.1).then (compare a.2 b.2)

theorem comparePlaced_lt {a b : α × Nat} :
    comparePlaced cmp a b = .lt ↔ cmp a.1 b.1 = .lt ∨ cmp a.1 b.1 = .eq ∧ a.2 < b.2 := by
  rw [comparePlaced, Ordering.then_eq_lt, Nat.compare_eq_lt]

theorem isLE_of_comparePlaced {a b : α × Nat} (h : comparePlaced cmp a b = .lt) :
    (cmp a.1 b.1).isLE := by
  rw [Ordering.isLE_iff_eq_lt_or_eq_eq]
  rcases comparePlaced_lt.mp h with h | ⟨h, -⟩
  · exact .inl h
  · exact .inr h

/-- Sorts items with places by the items alone. -/
def sortPlaced (cmp : α → α → Ordering) (items : List (α × Nat)) : List (α × Nat) :=
  stableSort (fun a b => cmp a.1 b.1) items

theorem insertSorted_placed [Std.TransCmp cmp] {item : α × Nat} {items : List (α × Nat)}
    (hitems : items.Pairwise (comparePlaced cmp · · = .lt))
    (hitem : ∀ other ∈ items, cmp item.1 other.1 = .eq → item.2 < other.2) :
    (insertSorted (fun a b => cmp a.1 b.1) item items).Pairwise (comparePlaced cmp · · = .lt) := by
  induction items with
  | nil => simp [insertSorted]
  | cons other rest ih =>
    obtain ⟨hother, hrest⟩ := List.pairwise_cons.mp hitems
    simp only [insertSorted]
    split
    · rename_i hgt
      refine List.pairwise_cons.mpr ⟨?_, ih hrest fun x hx => hitem x (List.mem_cons_of_mem _ hx)⟩
      intro x hx
      rcases List.mem_cons.mp ((insertSorted_perm _ _ _).mem_iff.mp hx) with rfl | hx
      · exact comparePlaced_lt.mpr (.inl (Std.OrientedCmp.lt_of_gt hgt))
      · exact hother x hx
    · rename_i hle
      refine List.pairwise_cons.mpr ⟨?_, hitems⟩
      intro x hx
      have hx1 : (cmp item.1 x.1).isLE := by
        rcases List.mem_cons.mp hx with rfl | hx
        · exact Ordering.ne_gt_iff_isLE.mp hle
        · exact Std.TransCmp.isLE_trans (Ordering.ne_gt_iff_isLE.mp hle)
            (isLE_of_comparePlaced (hother x hx))
      rw [comparePlaced_lt]
      rcases Ordering.isLE_iff_eq_lt_or_eq_eq.mp hx1 with h | h
      · exact .inl h
      · exact .inr ⟨h, hitem x hx h⟩

/-- Items are sorted by `cmp` first and by place second if the places of equal items ascend. -/
theorem sortPlaced_pairwise_of_ties [Std.TransCmp cmp] {items : List (α × Nat)}
    (h : items.Pairwise fun a b => cmp a.1 b.1 = .eq → a.2 < b.2) :
    (sortPlaced cmp items).Pairwise (comparePlaced cmp · · = .lt) := by
  induction items with
  | nil => exact .nil
  | cons item rest ih =>
    obtain ⟨hitem, hrest⟩ := List.pairwise_cons.mp h
    refine insertSorted_placed (ih hrest) ?_
    intro other hother
    exact hitem other ((stableSort_perm _ rest).mem_iff.mp hother)

theorem sortPlaced_pairwise [Std.TransCmp cmp] {items : List (α × Nat)}
    (h : items.Pairwise (·.2 < ·.2)) :
    (sortPlaced cmp items).Pairwise (comparePlaced cmp · · = .lt) := by
  refine sortPlaced_pairwise_of_ties (h.imp ?_)
  intro a b hlt _
  exact hlt

theorem zipIdx_pairwise (items : List α) : items.zipIdx.Pairwise (·.2 < ·.2) := by
  rw [← List.pairwise_map (f := Prod.snd) (R := (· < ·)), List.zipIdx_map_snd]
  exact List.pairwise_lt_range'

theorem sortPlaced_map_fst (items : List α) :
    (sortPlaced cmp items.zipIdx).map (·.1) = stableSort cmp items := by
  rw [sortPlaced, stableSort_map, List.zipIdx_map_fst]

theorem sortPlaced_map_snd (items : List α) :
    (sortPlaced cmp items.zipIdx).map (·.2) = sortedIndices cmp items := rfl

theorem mem_sortPlaced {items : List α} {item : α} {place : Nat} :
    (item, place) ∈ sortPlaced cmp items.zipIdx ↔ items[place]? = some item := by
  rw [sortPlaced, (stableSort_perm _ _).mem_iff, List.mem_zipIdx_iff_getElem?]

theorem stableSort_pairwise [Std.TransCmp cmp] (items : List α) :
    (stableSort cmp items).Pairwise fun a b => (cmp a b).isLE := by
  rw [← sortPlaced_map_fst, List.pairwise_map]
  exact (sortPlaced_pairwise (zipIdx_pairwise items)).imp isLE_of_comparePlaced

theorem comparePlaced_swap [Std.OrientedCmp cmp] (a b : α × Nat) :
    (comparePlaced cmp a b).swap = comparePlaced cmp b a := by
  rw [comparePlaced, comparePlaced, Ordering.swap_then, ← Std.OrientedCmp.eq_swap, Nat.compare_swap]

theorem comparePlaced_asymm [Std.OrientedCmp cmp] {a b : α × Nat}
    (h : comparePlaced cmp a b = .lt) : comparePlaced cmp b a ≠ .lt := by
  rw [← comparePlaced_swap, h]
  decide

/-- Items with their places can be sorted in one way only. -/
theorem eq_of_perm_of_placed [Std.TransCmp cmp] {a b : List (α × Nat)} (h : a.Perm b)
    (ha : a.Pairwise (comparePlaced cmp · · = .lt)) (hb : b.Pairwise (comparePlaced cmp · · = .lt)) :
    a = b :=
  h.eq_of_pairwise (fun _ _ _ _ hxy hyx => absurd hyx (comparePlaced_asymm hxy)) ha hb

/-- `placed` lists the items of `a` with their places, `b` lists them without, and of items that
compare equal those with earlier places come first. -/
structure Reorders (cmp : α → α → Ordering) (a b : List α) (placed : List (α × Nat)) : Prop where
  perm : placed.Perm a.zipIdx
  items : placed.map (·.1) = b
  ties : placed.Pairwise fun x y => cmp x.1 y.1 = .eq → x.2 < y.2

theorem Reorders.stableSort_eq [Std.TransCmp cmp] {a b : List α} {placed : List (α × Nat)}
    (h : Reorders cmp a b placed) : stableSort cmp b = stableSort cmp a := by
  have hplaced : sortPlaced cmp placed = sortPlaced cmp a.zipIdx := by
    refine eq_of_perm_of_placed ?_ (sortPlaced_pairwise_of_ties h.ties)
      (sortPlaced_pairwise (zipIdx_pairwise a))
    exact (stableSort_perm _ placed).trans (h.perm.trans (stableSort_perm _ _).symm)
  rw [← h.items, ← stableSort_map, ← sortPlaced, hplaced, sortPlaced_map_fst]

/-- Sorting itself is such a reordering. -/
theorem reorders_stableSort [Std.TransCmp cmp] (items : List α) :
    Reorders cmp items (stableSort cmp items) (sortPlaced cmp items.zipIdx) where
  perm := stableSort_perm _ _
  items := sortPlaced_map_fst items
  ties := by
    refine (sortPlaced_pairwise (zipIdx_pairwise items)).imp ?_
    intro x y hlt heq
    rw [comparePlaced_lt, heq] at hlt
    simpa using hlt

/-- Items that compare equal keep whatever order the items have. -/
theorem stableSort_ties [Std.TransCmp cmp] {R : α → α → Prop} {items : List α}
    (h : items.Pairwise R) : (stableSort cmp items).Pairwise fun a b => cmp a b = .eq → R a b := by
  rw [← sortPlaced_map_fst, List.pairwise_map]
  refine (reorders_stableSort items).ties.imp_of_mem ?_
  intro (a, i) (b, j) ha hb htie heq
  exact rel_of_pairwise h (mem_sortPlaced.mp ha) (mem_sortPlaced.mp hb) (htie heq)

end

/-! ### Keeping the order of a class of items -/

section

variable {α : Type} {cmp : α → α → Ordering} {p : α → Bool}

theorem filter_insertSorted (h : ∀ a b, p a → p b → cmp a b ≠ .gt) (item : α) (items : List α) :
    (insertSorted cmp item items).filter p = (item :: items).filter p := by
  induction items with
  | nil => rfl
  | cons other rest ih =>
    simp only [insertSorted]
    split
    · rename_i hgt
      rw [List.filter_cons, ih]
      by_cases hp : p item
      · have hother : ¬ p other := fun ho => h item other hp ho hgt
        simp [hp, hother]
      · simp [List.filter_cons, hp]
    · rfl

/-- Items of a class in which none is greater than another keep their order. -/
theorem filter_stableSort (h : ∀ a b, p a → p b → cmp a b ≠ .gt) (items : List α) :
    (stableSort cmp items).filter p = items.filter p := by
  induction items with
  | nil => rfl
  | cons item rest ih =>
    have hstep := filter_insertSorted h item (stableSort cmp rest)
    rwa [List.filter_cons, ih, ← List.filter_cons] at hstep

theorem find?_stableSort (h : ∀ a b, p a → p b → cmp a b ≠ .gt) (items : List α) :
    (stableSort cmp items).find? p = items.find? p := by
  rw [← List.head?_filter, filter_stableSort h, List.head?_filter]

end

end TokenInspector
