import TokenInspector.Proofs.Ordering
import Mathlib.Data.List.FinRange

/-!
# The stable order of items

`IsStableOrder cmp items order`: `order` lists every place of `items` once, no item there compares
greater than a later one, and items that compare equal stand by their places. For a total preorder
`sortedIndices` is such a list and the only one. So the places may be sorted by item and then by
place with any sort at all (`SortsTotal`): no two places compare equal, so whether that sort is
stable does not matter.
-/

namespace TokenInspector

section

variable {α : Type} {cmp : α → α → Ordering} {items : List α} {order : List Nat}

/-! ### Sorted places -/

/-- The places of the items in an order in which no item compares greater than a later one, and those
that compare equal stand by ascending place. -/
structure IsStableOrder (cmp : α → α → Ordering) (items : List α) (order : List Nat) : Prop where
  perm : order.Perm (List.range items.length)
  sorted : order.Pairwise fun i j =>
    ∀ a b, items[i]? = some a → items[j]? = some b → cmp a b ≠ .gt
  ties : order.Pairwise fun i j =>
    ∀ a b, items[i]? = some a → items[j]? = some b → cmp a b = .eq → i < j

/-- The item at place `i` comes before the one at place `j`, by `cmp` first and by place second. -/
def Precedes (cmp : α → α → Ordering) (items : List α) (i j : Nat) : Prop :=
  ∀ a b, items[i]? = some a → items[j]? = some b → comparePlaced cmp (a, i) (b, j) = .lt

theorem isStableOrder_iff : IsStableOrder cmp items order ↔
    order.Perm (List.range items.length) ∧ order.Pairwise (Precedes cmp items) := by
  constructor
  · rintro ⟨hperm, hsorted, hties⟩
    refine ⟨hperm, hsorted.imp₂ ?_ hties⟩
    intro i j hle htie a b ha hb
    rw [comparePlaced_lt]
    cases hcmp : cmp a b with
    | lt => exact .inl rfl
    | eq => exact .inr ⟨rfl, htie a b ha hb hcmp⟩
    | gt => exact absurd hcmp (hle a b ha hb)
  · rintro ⟨hperm, hordered⟩
    refine ⟨hperm, hordered.imp ?_, hordered.imp ?_⟩
    · intro i j h a b ha hb
      exact Ordering.ne_gt_iff_isLE.mpr (isLE_of_comparePlaced (h a b ha hb))
    · intro i j h a b ha hb heq
      have hlt := comparePlaced_lt.mp (h a b ha hb)
      rw [heq] at hlt
      simpa using hlt

theorem sortedIndices_perm (cmp : α → α → Ordering) (items : List α) :
    (sortedIndices cmp items).Perm (List.range items.length) := by
  have h := (stableSort_perm (fun a b => cmp a.1 b.1) items.zipIdx).map (·.2)
  rwa [List.zipIdx_map_snd, ← List.range_eq_range'] at h

/-- The items at the sorted places are the sorted items. -/
theorem map_sortedIndices (cmp : α → α → Ordering) (items : List α) :
    (sortedIndices cmp items).map (items[·]?) = (stableSort cmp items).map some := by
  rw [← sortPlaced_map_snd, ← sortPlaced_map_fst, List.map_map, List.map_map]
  refine List.map_congr_left ?_
  intro placed hplaced
  exact mem_sortPlaced.mp hplaced

theorem isStableOrder_sortedIndices [Std.TransCmp cmp] (items : List α) :
    IsStableOrder cmp items (sortedIndices cmp items) := by
  refine isStableOrder_iff.mpr ⟨sortedIndices_perm cmp items, ?_⟩
  rw [← sortPlaced_map_snd, List.pairwise_map]
  refine (sortPlaced_pairwise (zipIdx_pairwise items)).imp_of_mem ?_
  intro x y hx hy hlt a b ha hb
  rw [mem_sortPlaced.mp hx] at ha
  rw [mem_sortPlaced.mp hy] at hb
  cases ha
  cases hb
  exact hlt

/-- Places of items that precede each other are the same place. -/
theorem Precedes.antisymm [Std.TransCmp cmp] {i j : Nat} (hi : i < items.length)
    (hj : j < items.length) (hij : Precedes cmp items i j) (hji : Precedes cmp items j i) :
    i = j := by
  have ha := List.getElem?_eq_getElem hi
  have hb := List.getElem?_eq_getElem hj
  exact absurd (hji _ _ hb ha) (comparePlaced_asymm (hij _ _ ha hb))

theorem IsStableOrder.eq_sortedIndices [Std.TransCmp cmp] (h : IsStableOrder cmp items order) :
    order = sortedIndices cmp items := by
  have hsorted : IsStableOrder cmp items (sortedIndices cmp items) :=
    isStableOrder_sortedIndices items
  obtain ⟨hperm, hordered⟩ := isStableOrder_iff.mp h
  obtain ⟨hperm', hordered'⟩ := isStableOrder_iff.mp hsorted
  refine (hperm.trans hperm'.symm).eq_of_pairwise ?_ hordered hordered'
  intro i j hi hj hij hji
  have hi := List.mem_range.mp (hperm.mem_iff.mp hi)
  have hj := List.mem_range.mp (hperm'.mem_iff.mp hj)
  exact hij.antisymm hi hj hji

/-! ### Sorting the places with any sort -/

theorem transCmp_map {β : Type} [Std.TransCmp cmp] (f : β → α) :
    Std.TransCmp fun a b => cmp (f a) (f b) where
  eq_swap := Std.OrientedCmp.eq_swap
  isLE_trans := Std.TransCmp.isLE_trans

instance [Std.TransCmp cmp] : Std.TransCmp (comparePlaced cmp) :=
  @Std.instTransCmpCompareLex _ _ _ (transCmp_map Prod.fst) (transCmp_map Prod.snd)

/-- Compares places by the items there, then by the places themselves. -/
def comparePlaces (cmp : α → α → Ordering) (items : List α) (i j : Fin items.length) : Ordering :=
  comparePlaced cmp (items[i], i.val) (items[j], j.val)

instance [Std.TransCmp cmp] : Std.TransCmp (comparePlaces cmp items) :=
  transCmp_map fun i : Fin items.length => (items[i], i.val)

/-- No two places compare equal. -/
instance [Std.TransCmp cmp] : Std.LawfulEqCmp (comparePlaces cmp items) where
  eq_of_compare {i j} h := by
    rw [comparePlaces, comparePlaced, Ordering.then_eq_eq, Nat.compare_eq_eq] at h
    exact Fin.ext h.2

/-- What is known of `sort`: if different things never compare equal, it arranges them so that none
compares greater than a later one. -/
def SortsTotal (sort : ∀ {β : Type}, (β → β → Ordering) → List β → List β) : Prop :=
  ∀ {β : Type} (cmp : β → β → Ordering) [Std.TransCmp cmp] [Std.LawfulEqCmp cmp] (items : List β),
    (sort cmp items).Perm items ∧ (sort cmp items).Pairwise fun a b => cmp a b ≠ .gt

/-- The places of the items, sorted by item and then by place with `sort`. -/
def placesSortedBy (sort : ∀ {β : Type}, (β → β → Ordering) → List β → List β)
    (cmp : α → α → Ordering) (items : List α) : List (Fin items.length) :=
  sort (comparePlaces cmp items) (List.finRange items.length)

variable {sort : ∀ {β : Type}, (β → β → Ordering) → List β → List β}

theorem SortsTotal.isStableOrder [Std.TransCmp cmp] (h : SortsTotal sort) (items : List α) :
    IsStableOrder cmp items ((placesSortedBy sort cmp items).map (·.val)) := by
  obtain ⟨hperm, hsorted⟩ := h (comparePlaces cmp items) (List.finRange items.length)
  have hnodup : (placesSortedBy sort cmp items).Nodup :=
    hperm.nodup_iff.mpr (List.nodup_finRange _)
  refine isStableOrder_iff.mpr ⟨?_, ?_⟩
  · have hplaces := hperm.map (·.val)
    rwa [List.map_coe_finRange_eq_range] at hplaces
  · rw [List.pairwise_map]
    refine hsorted.imp₂ ?_ hnodup
    intro i j hle hne a b ha hb
    obtain rfl : items[i] = a := by simpa using ha
    obtain rfl : items[j] = b := by simpa using hb
    cases hcmp : comparePlaces cmp items i j with
    | lt => exact hcmp
    | eq => exact absurd (Std.LawfulEqCmp.eq_of_compare hcmp) hne
    | gt => exact absurd hcmp hle

theorem SortsTotal.map_placesSortedBy [Std.TransCmp cmp] (h : SortsTotal sort) (items : List α) :
    (placesSortedBy sort cmp items).map (items[·]) = stableSort cmp items := by
  have horder : (placesSortedBy sort cmp items).map (·.val) = sortedIndices cmp items :=
    (h.isStableOrder items).eq_sortedIndices
  have hitems := map_sortedIndices cmp items
  rw [← horder, List.map_map] at hitems
  refine (List.map_inj_right fun _ _ => Option.some.inj).mp ?_
  rw [← hitems, List.map_map]
  refine List.map_congr_left ?_
  intro i _
  simp

/-! ### Sorting again -/

theorem stableSort_of_pairwise (h : items.Pairwise fun a b => cmp a b ≠ .gt) :
    stableSort cmp items = items := by
  induction items with
  | nil => rfl
  | cons item rest ih =>
    obtain ⟨hitem, hrest⟩ := List.pairwise_cons.mp h
    have hstep : stableSort cmp (item :: rest) = insertSorted cmp item (stableSort cmp rest) := rfl
    rw [hstep, ih hrest]
    cases rest with
    | nil => rfl
    | cons next rest => exact if_neg (hitem next List.mem_cons_self)

theorem sortedIndices_of_pairwise (h : items.Pairwise fun a b => cmp a b ≠ .gt) :
    sortedIndices cmp items = List.range items.length := by
  have hplaced : items.zipIdx.Pairwise fun a b => cmp a.1 b.1 ≠ .gt := by
    rwa [← List.pairwise_map (f := Prod.fst) (R := fun a b => cmp a b ≠ .gt), List.zipIdx_map_fst]
  rw [sortedIndices, stableSort_of_pairwise hplaced, List.zipIdx_map_snd, ← List.range_eq_range']

theorem stableSort_ne_gt [Std.TransCmp cmp] (items : List α) :
    (stableSort cmp items).Pairwise fun a b => cmp a b ≠ .gt :=
  (stableSort_pairwise items).imp Ordering.ne_gt_iff_isLE.mpr

/-! ### The directions of a comparison -/

/-- The comparison in the other direction. -/
def reversed (cmp : α → α → Ordering) (a b : α) : Ordering := (cmp a b).swap

instance [Std.TransCmp cmp] : Std.TransCmp (reversed cmp) := by
  have h : reversed cmp = fun a b => cmp b a := by
    funext a b
    exact Std.OrientedCmp.eq_swap.symm
  rw [h]
  exact Std.TransCmp.opposite

end

/-- Sorting lists the items along their stable order, the only one there is, whatever sort the places
are given to; sorting the sorted items changes nothing. -/
structure SortsStably {α : Type} (cmp : α → α → Ordering) (items : List α) : Prop where
  order : IsStableOrder cmp items (sortedIndices cmp items)
  unique : ∀ order, IsStableOrder cmp items order → order = sortedIndices cmp items
  listed : (sortedIndices cmp items).map (items[·]?) = (stableSort cmp items).map some
  anySort : ∀ sort : ∀ {β : Type}, (β → β → Ordering) → List β → List β, SortsTotal sort →
    (placesSortedBy sort cmp items).map (·.val) = sortedIndices cmp items ∧
      (placesSortedBy sort cmp items).map (items[·]) = stableSort cmp items
  again : stableSort cmp (stableSort cmp items) = stableSort cmp items
  placesAgain : sortedIndices cmp (stableSort cmp items) = List.range items.length

theorem sortsStably {α : Type} (cmp : α → α → Ordering) [Std.TransCmp cmp] (items : List α) :
    SortsStably cmp items where
  order := isStableOrder_sortedIndices items
  unique _ h := h.eq_sortedIndices
  listed := map_sortedIndices cmp items
  anySort _ h := ⟨(h.isStableOrder items).eq_sortedIndices, h.map_placesSortedBy items⟩
  again := stableSort_of_pairwise (stableSort_ne_gt items)
  placesAgain := by
    rw [sortedIndices_of_pairwise (stableSort_ne_gt items), (stableSort_perm cmp items).length_eq]

/-- Keys are sorted in both directions, with the absent ones at the start or at the end. -/
structure SortsKeys {α : Type} [BEq α] [LT α] [DecidableLT α] (keys : List (Option α)) : Prop where
  ascending : SortsStably compareKeys keys
  descending : SortsStably (reversed compareKeys) keys
  noneFirst : (stableSort compareKeys keys).Pairwise fun a b => b = none → a = none
  noneLast : (stableSort (reversed (α := Option α) compareKeys) keys).Pairwise
    fun a b => a = none → b = none

theorem sortsKeys {α : Type} [BEq α] [LawfulBEq α] [LT α] [DecidableLT α] [LE α]
    [Std.LawfulOrderLT α] [Std.IsLinearOrder α] (keys : List (Option α)) : SortsKeys keys where
  ascending := sortsStably compareKeys keys
  descending := sortsStably (reversed compareKeys) keys
  noneFirst := by
    refine (stableSort_ne_gt keys).imp ?_
    rintro (_ | a) b hle rfl
    · rfl
    · exact absurd rfl hle
  noneLast := by
    refine (stableSort_ne_gt keys).imp ?_
    rintro a (_ | b) hle rfl
    · rfl
    · exact absurd rfl hle

/-- Keys and whatever a total preorder compares are sorted stably. -/
theorem stableSort_isStable :
    (∀ keys : List (Option Int64), SortsKeys keys) ∧
    (∀ keys : List (Option String), SortsKeys keys) ∧
    ∀ (α : Type) (cmp : α → α → Ordering) [Std.TransCmp cmp] (items : List α),
      SortsStably cmp items :=
  ⟨sortsKeys, sortsKeys, fun _ cmp _ items => sortsStably cmp items⟩

/-- A sort that is not stable: it begins with the last things. -/
def lateFirst {β : Type} (cmp : β → β → Ordering) (items : List β) : List β :=
  items.reverse.mergeSort fun a b => (cmp a b).isLE

theorem sortsTotal_lateFirst : SortsTotal lateFirst := by
  intro β cmp _ _ items
  refine ⟨(List.mergeSort_perm _ _).trans (List.reverse_perm items), ?_⟩
  have htotal : ∀ a b, ((cmp a b).isLE || (cmp b a).isLE) = true := by
    intro a b
    have hswap : cmp b a = (cmp a b).swap := Std.OrientedCmp.eq_swap
    rw [hswap]
    cases cmp a b <;> rfl
  have hsorted := List.pairwise_mergeSort (fun _ _ _ => Std.TransCmp.isLE_trans) htotal items.reverse
  exact hsorted.imp Ordering.ne_gt_iff_isLE.mpr

/-- Keys with ties, two of them absent. -/
def tiedKeys : List (Option Int64) := [some 2, none, some (-1), some 2, none]

/-- Words are sorted by length, a total preorder in which different words compare equal. -/
theorem stableSort_isStable_ties :
    SortsTotal lateFirst ∧
    (placesSortedBy lateFirst compareKeys tiedKeys).map (·.val) = [1, 4, 2, 0, 3] ∧
    (placesSortedBy lateFirst (reversed compareKeys) tiedKeys).map (·.val) = [0, 3, 2, 1, 4] ∧
    (∀ order, IsStableOrder compareKeys [some "b", none, some "a"] order → order = [1, 2, 0]) ∧
    Std.TransCmp (fun a b : String => compare a.length b.length) ∧
    stableSort (fun a b : String => compare a.length b.length) ["or", "a", "", "in", "b"] =
      ["", "a", "b", "or", "in"] ∧
    IsStableOrder (fun a b : String => compare a.length b.length) ["or", "a", "", "in", "b"]
      [2, 1, 4, 0, 3] := by
  have hlength : Std.TransCmp fun a b : String => compare a.length b.length :=
    transCmp_map String.length
  obtain ⟨hintegers, htexts, hitems⟩ := stableSort_isStable
  have hkeys := hintegers tiedKeys
  obtain ⟨hascending, -⟩ := hkeys.ascending.anySort _ sortsTotal_lateFirst
  obtain ⟨hdescending, -⟩ := hkeys.descending.anySort _ sortsTotal_lateFirst
  have hwords := hitems _ (fun a b : String => compare a.length b.length)
    ["or", "a", "", "in", "b"]
  refine ⟨sortsTotal_lateFirst, hascending.trans (by decide), hdescending.trans (by decide), ?_,
    hlength, by decide, ?_⟩
  · intro order horder
    exact ((htexts _).ascending.unique order horder).trans (by decide)
  · have hplaces : sortedIndices (fun a b : String => compare a.length b.length)
        ["or", "a", "", "in", "b"] = [2, 1, 4, 0, 3] := by decide
    exact hplaces ▸ hwords.order

end TokenInspector
