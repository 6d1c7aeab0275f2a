import TokenInspector.Proofs.Ordering
import TokenInspector.Proofs.Enumeration.Bits
import Mathlib.Data.Finset.Sort
import Mathlib.Algebra.BigOperators.Group.Finset.Basic
import Mathlib.Algebra.Group.Int.Defs

/-!
# The greedy choice of flags

Members stand at places `0, 1, ...` of their sorted list. `IsGreedy members value L` says which
places `L` the walk down the list takes: a place is taken iff its value has bits and all of them
are bits of `value` that no taken place above has. There is exactly one such set
(`existsUnique_isGreedy`), `takeFlags` lists its members from the top, and what remains of the
value are the bits that the set leaves uncovered (`IsGreedy.takeFlags_eq`).
-/

namespace TokenInspector

namespace EnumDefinition

/-! ### The walk without a stop -/

/-- Takes each member whose bits all remain, to the end of the list. -/
def takeToEnd (remaining : Int64) : List EnumMember → List EnumMember × Int64
  | [] => ([], remaining)
  | member :: rest =>
    if covers remaining member.value then
      let (taken, left) := takeToEnd (remaining &&& ~~~member.value) rest
      (member :: taken, left)
    else takeToEnd remaining rest

theorem covers_zero (flag : Int64) : covers 0 flag = false := by
  rw [Bool.eq_false_iff]
  intro h
  obtain ⟨hne, hsub⟩ := covers_iff.mp h
  rw [bits_zero, Finset.subset_empty, bits_eq_empty] at hsub
  exact hne hsub

theorem takeToEnd_zero (members : List EnumMember) : takeToEnd 0 members = ([], 0) := by
  induction members with
  | nil => rfl
  | cons member rest ih => simp [takeToEnd, covers_zero, ih]

/-- Nothing is taken once nothing remains. -/
theorem takeFlags_eq_takeToEnd (remaining : Int64) (members : List EnumMember) :
    takeFlags remaining members = takeToEnd remaining members := by
  induction members generalizing remaining with
  | nil => rfl
  | cons member rest ih =>
    simp only [takeFlags, takeToEnd]
    split
    · rename_i h
      subst h
      simp [covers_zero, takeToEnd_zero]
    · split
      · rw [ih]
      · exact ih _

/-! ### Places -/

/-- The value of the member at a place; zero past the end. -/
def valueAt (members : List EnumMember) (place : Nat) : Int64 :=
  (members[place]?.map (·.value)).getD 0

/-- The name of the member at a place; empty past the end. -/
def nameAt (members : List EnumMember) (place : Nat) : String :=
  (members[place]?.map (·.name)).getD ""

/-- The bits of the members at some places. -/
def bitsAt (members : List EnumMember) (L : Finset Nat) : Finset Nat :=
  L.biUnion fun place => bits (valueAt members place)

/-- `L` holds the places whose value has bits, all of them bits of `value` that no place of `L`
above has. -/
def IsGreedy (members : List EnumMember) (value : Int64) (L : Finset Nat) : Prop :=
  ∀ place, place ∈ L ↔ valueAt members place ≠ 0 ∧
    bits (valueAt members place) ⊆ bits value \ bitsAt members (L.filter (place < ·))

variable {members : List EnumMember} {member : EnumMember} {value : Int64} {K L : Finset Nat}

theorem valueAt_of_getElem? {place : Nat} (h : members[place]? = some member) :
    valueAt members place = member.value := by
  simp [valueAt, h]

theorem lt_length_of_valueAt {place : Nat} (h : valueAt members place ≠ 0) :
    place < members.length := by
  by_contra hlen
  exact h (by simp [valueAt, List.getElem?_eq_none (Nat.le_of_not_lt hlen)])

theorem valueAt_concat_of_lt {place : Nat} (h : place < members.length) :
    valueAt (members ++ [member]) place = valueAt members place := by
  simp [valueAt, List.getElem?_append_left h]

theorem valueAt_concat_length : valueAt (members ++ [member]) members.length = member.value := by
  simp [valueAt]

theorem valueAt_concat_of_gt {place : Nat} (h : members.length < place) :
    valueAt (members ++ [member]) place = 0 := by
  simp [valueAt, List.getElem?_eq_none (show (members ++ [member]).length ≤ place by simp; omega)]

theorem bitsAt_concat (h : ∀ place ∈ L, place < members.length) :
    bitsAt (members ++ [member]) L = bitsAt members L :=
  Finset.biUnion_congr rfl fun place hp => by rw [valueAt_concat_of_lt (h place hp)]

theorem sum_valueAt_concat (h : ∀ place ∈ L, place < members.length) :
    ∑ place ∈ L, (valueAt (members ++ [member]) place).toInt =
      ∑ place ∈ L, (valueAt members place).toInt :=
  Finset.sum_congr rfl fun place hp => by rw [valueAt_concat_of_lt (h place hp)]

theorem bitsAt_insert (place : Nat) :
    bitsAt members (insert place L) = bits (valueAt members place) ∪ bitsAt members L :=
  Finset.biUnion_insert

theorem bits_subset_bitsAt {place : Nat} (h : place ∈ L) :
    bits (valueAt members place) ⊆ bitsAt members L :=
  Finset.subset_biUnion_of_mem (fun other => bits (valueAt members other)) h

/-! ### Greedy sets -/

theorem IsGreedy.lt_length (h : IsGreedy members value L) {place : Nat} (hp : place ∈ L) :
    place < members.length :=
  lt_length_of_valueAt ((h place).mp hp).1

theorem isGreedy_iff : IsGreedy members value L ↔ (∀ place ∈ L, place < members.length) ∧
    ∀ place < members.length, (place ∈ L ↔ valueAt members place ≠ 0 ∧
      bits (valueAt members place) ⊆ bits value \ bitsAt members (L.filter (place < ·))) := by
  constructor
  · intro h
    exact ⟨fun place hp => h.lt_length hp, fun place _ => h place⟩
  · intro ⟨hlt, hplace⟩ place
    by_cases hp : place < members.length
    · exact hplace place hp
    · have hnot : place ∉ L := fun hL => hp (hlt place hL)
      have hzero : ¬ valueAt members place ≠ 0 := fun hv => hp (lt_length_of_valueAt hv)
      simp only [hnot, hzero, false_and]

instance : Decidable (IsGreedy members value L) := decidable_of_iff _ isGreedy_iff.symm

/-- A place is taken or not depending on the places above only. -/
theorem IsGreedy.unique (hK : IsGreedy members value K) (hL : IsGreedy members value L) :
    K = L := by
  have hplace : ∀ n place, members.length ≤ place + n → (place ∈ K ↔ place ∈ L) := by
    intro n
    induction n with
    | zero =>
      intro place hn
      constructor
      · intro hp
        have := hK.lt_length hp
        omega
      · intro hp
        have := hL.lt_length hp
        omega
    | succ n ih =>
      intro place hn
      have habove : K.filter (place < ·) = L.filter (place < ·) := by
        ext other
        simp only [Finset.mem_filter, and_congr_left_iff]
        intro hlt
        exact ih other (by omega)
      rw [hK place, hL place, habove]
  ext place
  exact hplace members.length place (by omega)

theorem filter_lt_eq_empty {n : Nat} (h : ∀ place ∈ L, place < n) : L.filter (n < ·) = ∅ := by
  rw [Finset.filter_eq_empty_iff]
  intro place hp
  have := h place hp
  omega

/-- One more member on top that is not taken. -/
theorem IsGreedy.concat_skip (h : IsGreedy members value L)
    (hc : ¬ covers value member.value) : IsGreedy (members ++ [member]) value L := by
  intro place
  have hlt : ∀ other ∈ L, other < members.length := fun other ho => h.lt_length ho
  rw [bitsAt_concat fun other ho => hlt other (Finset.mem_filter.mp ho).1]
  rcases Nat.lt_trichotomy place members.length with hp | rfl | hp
  · rw [valueAt_concat_of_lt hp]
    exact h place
  · rw [valueAt_concat_length, filter_lt_eq_empty hlt, bitsAt, Finset.biUnion_empty,
      Finset.sdiff_empty, ← covers_iff]
    exact ⟨fun hp => absurd (hlt _ hp) (Nat.lt_irrefl _), fun hp => absurd hp hc⟩
  · rw [valueAt_concat_of_gt hp]
    simp only [ne_eq, not_true_eq_false, false_and, iff_false]
    intro hpL
    exact Nat.lt_asymm hp (hlt place hpL)

/-- One more member on top that is taken; the others share the bits that it leaves. -/
theorem IsGreedy.concat_take (h : IsGreedy members (value &&& ~~~member.value) L)
    (hc : covers value member.value) :
    IsGreedy (members ++ [member]) value (insert members.length L) := by
  intro place
  have hlt : ∀ other ∈ L, other < members.length := fun other ho => h.lt_length ho
  rcases Nat.lt_trichotomy place members.length with hp | rfl | hp
  · have hfilter : (insert members.length L).filter (place < ·) =
        insert members.length (L.filter (place < ·)) := by
      rw [Finset.filter_insert, if_pos hp]
    rw [hfilter, bitsAt_insert, valueAt_concat_length, valueAt_concat_of_lt hp,
      bitsAt_concat fun other ho => hlt other (Finset.mem_filter.mp ho).1, Finset.mem_insert,
      or_iff_right (Nat.ne_of_lt hp), h place, bits_andNot, sdiff_sdiff_left]
    rfl
  · have hfilter : (insert members.length L).filter (members.length < ·) = ∅ := by
      rw [Finset.filter_insert, if_neg (Nat.lt_irrefl _), filter_lt_eq_empty hlt]
    rw [hfilter, valueAt_concat_length, bitsAt, Finset.biUnion_empty, Finset.sdiff_empty,
      ← covers_iff]
    exact ⟨fun _ => hc, fun _ => Finset.mem_insert_self _ _⟩
  · rw [valueAt_concat_of_gt hp, Finset.mem_insert, or_iff_right (Nat.ne_of_gt hp)]
    simp only [ne_eq, not_true_eq_false, false_and, iff_false]
    intro hpL
    exact Nat.lt_asymm hp (hlt place hpL)

theorem sort_insert_top {n : Nat} (h : ∀ place ∈ L, place < n) :
    (insert n L).sort = L.sort ++ [n] := by
  have hn : n ∉ L := fun hn => Nat.lt_irrefl n (h n hn)
  have hnodup : (L.sort ++ [n]).Nodup := by
    rw [List.nodup_append]
    refine ⟨L.sort_nodup _, List.nodup_singleton n, ?_⟩
    intro place hp other ho
    rw [List.mem_singleton] at ho
    rw [Finset.mem_sort] at hp
    have := h place hp
    omega
  have hset : (L.sort ++ [n]).toFinset = insert n L := by
    ext place
    simp
  rw [← hset, List.toFinset_sort _ hnodup, List.pairwise_append]
  refine ⟨L.pairwise_sort _, List.pairwise_singleton _ _, ?_⟩
  intro place hp other ho
  rw [List.mem_singleton] at ho
  rw [Finset.mem_sort] at hp
  have := h place hp
  omega

theorem map_getElem?_concat (h : ∀ place ∈ L, place < members.length) :
    L.sort.map ((members ++ [member])[·]?) = L.sort.map (members[·]?) :=
  List.map_congr_left fun place hp =>
    List.getElem?_append_left (h place ((Finset.mem_sort _).mp hp))

/-- The walk down the list takes the members of a greedy set, and what remains of the value are the
bits that they leave. -/
theorem exists_isGreedy (members : List EnumMember) (value : Int64) :
    ∃ L taken left, IsGreedy members value L ∧
      takeFlags value members.reverse = (taken, left) ∧
      L.sort.map (members[·]?) = taken.reverse.map some ∧
      bits left = bits value \ bitsAt members L ∧
      ∑ place ∈ L, (valueAt members place).toInt + left.toInt = value.toInt := by
  simp only [takeFlags_eq_takeToEnd]
  induction members using List.reverseRecOn generalizing value with
  | nil =>
    refine ⟨∅, [], value, ?_, rfl, by simp, by simp [bitsAt], by simp⟩
    intro place
    simp [valueAt]
  | append_singleton members member ih =>
    rw [List.reverse_append, List.reverse_singleton, List.singleton_append]
    by_cases hc : covers value member.value
    · obtain ⟨L, taken, left, hL, hwalk, htaken, hleft, hsum⟩ := ih (value &&& ~~~member.value)
      have hlt : ∀ place ∈ L, place < members.length := fun place hp => hL.lt_length hp
      have hnot : members.length ∉ L := fun hn => Nat.lt_irrefl _ (hlt _ hn)
      refine ⟨insert members.length L, member :: taken, left, hL.concat_take hc, ?_, ?_, ?_, ?_⟩
      · rw [takeToEnd, if_pos hc, hwalk]
      · rw [sort_insert_top hlt, List.map_append, map_getElem?_concat hlt, htaken]
        simp
      · rw [bitsAt_insert, valueAt_concat_length, bitsAt_concat hlt, hleft, bits_andNot,
          sdiff_sdiff_left]
        rfl
      · rw [Finset.sum_insert hnot, valueAt_concat_length, sum_valueAt_concat hlt, Int.add_assoc,
          hsum, toInt_andNot (covers_iff.mp hc).2]
    · obtain ⟨L, taken, left, hL, hwalk, htaken, hleft, hsum⟩ := ih value
      have hlt : ∀ place ∈ L, place < members.length := fun place hp => hL.lt_length hp
      refine ⟨L, taken, left, hL.concat_skip hc, ?_, ?_, ?_, ?_⟩
      · rw [takeToEnd, if_neg hc, hwalk]
      · rw [map_getElem?_concat hlt, htaken]
      · rw [bitsAt_concat hlt, hleft]
      · rw [sum_valueAt_concat hlt, hsum]

theorem existsUnique_isGreedy (members : List EnumMember) (value : Int64) :
    ∃! L, IsGreedy members value L := by
  obtain ⟨L, -, -, hL, -⟩ := exists_isGreedy members value
  exact ⟨L, hL, fun K hK => hK.unique hL⟩

theorem IsGreedy.takeFlags_eq (h : IsGreedy members value L) :
    ∃ taken left, takeFlags value members.reverse = (taken, left) ∧
      L.sort.map (members[·]?) = taken.reverse.map some ∧
      bits left = bits value \ bitsAt members L ∧
      ∑ place ∈ L, (valueAt members place).toInt + left.toInt = value.toInt := by
  obtain ⟨K, taken, left, hK, hwalk⟩ := exists_isGreedy members value
  rw [h.unique hK]
  exact ⟨taken, left, hwalk⟩

/-- A place is taken if its value fits into what some places leave, those taken above among them. -/
theorem IsGreedy.mem_of_subset (h : IsGreedy members value L) {place : Nat}
    (hne : valueAt members place ≠ 0)
    (hsub : bits (valueAt members place) ⊆ bits value \ bitsAt members K)
    (habove : L.filter (place < ·) ⊆ K) : place ∈ L := by
  refine (h place).mpr ⟨hne, hsub.trans ?_⟩
  apply Finset.sdiff_subset_sdiff (Finset.Subset.refl _)
  exact Finset.biUnion_subset_biUnion_of_subset_left _ habove

/-- The taken members are disjoint: each has only bits that those above leave. -/
theorem IsGreedy.disjoint (h : IsGreedy members value L) {i j : Nat} (hi : i ∈ L) (hj : j ∈ L)
    (hij : i < j) : Disjoint (bits (valueAt members i)) (bits (valueAt members j)) := by
  refine Finset.disjoint_of_subset_left ((h i).mp hi).2 ?_
  refine Finset.disjoint_of_subset_right ?_ Finset.sdiff_disjoint
  exact bits_subset_bitsAt (Finset.mem_filter.mpr ⟨hj, hij⟩)

/-- A taken place is the last one with its value. -/
theorem IsGreedy.valueAt_ne (h : IsGreedy members value L) {i j : Nat} (hi : i ∈ L)
    (hij : i < j) : valueAt members j ≠ valueAt members i := by
  intro hv
  obtain ⟨hne, hsub⟩ := (h i).mp hi
  have hj : j ∈ L := by
    refine h.mem_of_subset (hv ▸ hne) (hv ▸ hsub) ?_
    intro place hp
    rw [Finset.mem_filter] at hp ⊢
    exact ⟨hp.1, Nat.lt_trans hij hp.2⟩
  have hself := h.disjoint hi hj hij
  rw [hv] at hself
  exact hne (eq_zero_of_disjoint hself)

/-- No member that has bits fits into what a greedy set leaves. -/
theorem IsGreedy.not_subset (h : IsGreedy members value L) (hm : member ∈ members)
    (hne : member.value ≠ 0) : ¬ bits member.value ⊆ bits value \ bitsAt members L := by
  intro hsub
  obtain ⟨place, hplace⟩ := List.mem_iff_getElem?.mp hm
  have hv := valueAt_of_getElem? hplace
  have hp : place ∈ L := h.mem_of_subset (hv ▸ hne) (hv ▸ hsub) (Finset.filter_subset _ _)
  have hself : Disjoint (bits member.value) (bits member.value) := by
    refine Finset.disjoint_of_subset_left hsub ?_
    exact Finset.disjoint_of_subset_right (hv ▸ bits_subset_bitsAt hp) Finset.sdiff_disjoint
  exact hne (eq_zero_of_disjoint hself)

theorem IsGreedy.flagNames?_eq (h : IsGreedy members value L) :
    flagNames? members value =
      if ∑ place ∈ L, (valueAt members place).toInt = value.toInt then
        some ("|".intercalate (L.sort.map (nameAt members)))
      else none := by
  obtain ⟨taken, left, hwalk, htaken, -, hsum⟩ := h.takeFlags_eq
  have hnames : L.sort.map (nameAt members) = taken.reverse.map (·.name) := by
    have hname : nameAt members = (fun found : Option EnumMember =>
        (found.map (·.name)).getD "") ∘ (members[·]?) := rfl
    rw [hname, ← List.map_map, htaken, List.map_map]
    rfl
  have hleft : left = 0 ↔ ∑ place ∈ L, (valueAt members place).toInt = value.toInt := by
    rw [← Int64.toInt_inj, Int64.toInt_zero]
    omega
  simp only [flagNames?, hwalk, hnames, hleft]

end EnumDefinition

end TokenInspector
