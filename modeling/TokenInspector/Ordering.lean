/-!
# Optional keys and stable sorting

`compareKeys` orders keys that may be absent. `stableSort` sorts a list by a comparison and
keeps items that compare equal in the order they came in; `sortedIndices` gives the same
arrangement as positions in the list.
-/

namespace TokenInspector

/-- An absent key comes before every key; two keys are equal, less, or else greater. -/
def compareKeys {α : Type} [BEq α] [LT α] [DecidableLT α] : Option α → Option α → Ordering
  | none, none => .eq
  | none, some _ => .lt
  | some _, none => .gt
  | some a, some b => if a == b then .eq else if a < b then .lt else .gt

/-- Puts `item` in front of the first item that it does not compare greater than. -/
def insertSorted {α : Type} (cmp : α → α → Ordering) (item : α) : List α → List α
  | [] => [item]
  | other :: rest =>
    if cmp item other = .gt then other :: insertSorted cmp item rest
    else item :: other :: rest

/-- Sorts by `cmp`; items that compare equal keep their order. -/
def stableSort {α : Type} (cmp : α → α → Ordering) (items : List α) : List α :=
  items.foldr (insertSorted cmp) []

/-- The positions of the items in the order in which `stableSort` lists them. -/
def sortedIndices {α : Type} (cmp : α → α → Ordering) (items : List α) : List Nat :=
  (stableSort (fun a b => cmp a.1 b.1) items.zipIdx).map (·.2)

theorem insertSorted_perm {α : Type} (cmp : α → α → Ordering) (item : α) (items : List α) :
    (insertSorted cmp item items).Perm (item :: items) := by
  induction items with
  | nil => exact .refl _
  | cons other rest ih =>
    unfold insertSorted
    split
    · exact (ih.cons other).trans (.swap item other rest)
    · exact .refl _

/-- Sorting neither adds nor drops an item. -/
theorem stableSort_perm {α : Type} (cmp : α → α → Ordering) (items : List α) :
    (stableSort cmp items).Perm items := by
  induction items with
  | nil => exact .refl _
  | cons item rest ih => exact (insertSorted_perm cmp item _).trans (ih.cons item)

theorem insertSorted_map {α β : Type} (cmp : β → β → Ordering) (f : α → β) (item : α)
    (items : List α) :
    (insertSorted (fun a b => cmp (f a) (f b)) item items).map f =
      insertSorted cmp (f item) (items.map f) := by
  induction items with
  | nil => rfl
  | cons other rest ih =>
    by_cases h : cmp (f item) (f other) = .gt <;> simp [insertSorted, h, ih]

/-- Sorting by a key of the items arranges the keys as sorting them would. -/
theorem stableSort_map {α β : Type} (cmp : β → β → Ordering) (f : α → β) (items : List α) :
    (stableSort (fun a b => cmp (f a) (f b)) items).map f = stableSort cmp (items.map f) := by
  induction items with
  | nil => rfl
  | cons item rest ih =>
    simp only [stableSort, List.foldr_cons, List.map_cons] at ih ⊢
    rw [insertSorted_map, ih]

end TokenInspector
