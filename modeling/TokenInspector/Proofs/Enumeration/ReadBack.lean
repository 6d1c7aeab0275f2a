import TokenInspector.Proofs.Enumeration.FlagNames
import TokenInspector.Enumeration.BuiltIn
import Std.Data.String.ToInt
import Mathlib.Data.List.Nodup

/-!
# Reading a text back

If the names of a definition are distinct, have no bar and are no decimal texts (`PlainNames`), the
text of a value tells the value (`Tells`): it is the decimal text of that value, or its parts
between bars are names of members whose bits make up the value. So no two values have one text. The
names of the built-in enums are plain.
-/

namespace TokenInspector

/-- The decimal text of a value. -/
def decimal (value : Int64) : String := toString value.toInt

theorem decimal_injective : Function.Injective decimal := by
  intro a b h
  simp only [decimal, Int.toString_eq_repr] at h
  exact Int64.toInt_inj.mp (Int.repr_injective h)

theorem isDigit_of_mem_repr {n : Nat} {c : Char} (h : c ∈ n.repr.toList) : c.isDigit = true := by
  rw [Nat.toList_repr] at h
  exact Nat.isDigit_of_mem_toDigits (by decide) (by decide) h

theorem mem_decimal {value : Int64} {c : Char} (h : c ∈ (decimal value).toList) :
    c.isDigit = true ∨ c = '-' := by
  rw [decimal, Int.toString_eq_repr, Int.repr_eq_if] at h
  split at h
  · exact .inl (isDigit_of_mem_repr h)
  · rw [String.toList_append, List.mem_append] at h
    rcases h with h | h
    · exact .inr (by simpa using h)
    · exact .inl (isDigit_of_mem_repr h)

theorem bar_not_mem_decimal (value : Int64) : '|' ∉ (decimal value).toList := by
  intro h
  rcases mem_decimal h with h | h
  · exact absurd h (by decide)
  · exact absurd h (by decide)

/-- The parts of a text between bars. -/
def barParts (text : String) : List String := (text.split '|').toList.map (·.copy)

theorem barParts_intercalate {names : List String} (hne : names ≠ [])
    (h : ∀ name ∈ names, '|' ∉ name.toList) : barParts ("|".intercalate names) = names := by
  have hsplit := String.toList_split_intercalate h
  rwa [if_neg hne] at hsplit

theorem barParts_decimal (value : Int64) : barParts (decimal value) = [decimal value] := by
  have hbar : ∀ name ∈ [decimal value], '|' ∉ name.toList := by
    simpa using bar_not_mem_decimal value
  have h := barParts_intercalate (List.cons_ne_nil _ _) hbar
  rwa [String.intercalate_singleton] at h

namespace EnumDefinition

/-! ### Unions of members -/

/-- The values of members taken together. -/
def unionOf (members : List EnumMember) : Int64 := members.foldr (·.value ||| ·) 0

theorem mem_bits_unionOf {members : List EnumMember} {k : Nat} :
    k ∈ bits (unionOf members) ↔ ∃ member ∈ members, k ∈ bits member.value := by
  induction members with
  | nil => simp [unionOf]
  | cons member rest ih =>
    rw [show unionOf (member :: rest) = member.value ||| unionOf rest from rfl, bits_or,
      Finset.mem_union, ih]
    simp

/-- A union depends on which members there are only. -/
theorem unionOf_congr {l₁ l₂ : List EnumMember} (h : ∀ member, member ∈ l₁ ↔ member ∈ l₂) :
    unionOf l₁ = unionOf l₂ := by
  apply bits_injective
  ext k
  simp only [mem_bits_unionOf, h]

theorem bits_takeFlags (members : List EnumMember) (value : Int64) :
    bits (unionOf (takeFlags value members).1) ∪ bits (takeFlags value members).2 = bits value := by
  rw [takeFlags_eq_takeToEnd]
  induction members generalizing value with
  | nil => simp [takeToEnd, unionOf]
  | cons member rest ih =>
    unfold takeToEnd
    split
    · rename_i hc
      have ih := ih (value &&& ~~~member.value)
      rw [show unionOf (member :: (takeToEnd (value &&& ~~~member.value) rest).1) =
        member.value ||| unionOf (takeToEnd (value &&& ~~~member.value) rest).1 from rfl, bits_or,
        Finset.union_assoc, ih, bits_andNot, Finset.union_sdiff_of_subset (covers_iff.mp hc).2]
    · exact ih value

theorem takeFlags_subset (members : List EnumMember) (value : Int64) :
    (takeFlags value members).1 ⊆ members := by
  rw [takeFlags_eq_takeToEnd]
  induction members generalizing value with
  | nil => exact List.Subset.refl _
  | cons member rest ih =>
    unfold takeToEnd
    split
    · exact List.cons_subset_cons member (ih _)
    · exact List.subset_cons_of_subset member (ih value)

/-! ### What a text tells -/

/-- Distinct names without a bar, none of them a decimal text. -/
structure PlainNames (definition : EnumDefinition) : Prop where
  distinct : (definition.members.map (·.name)).Nodup
  noBar : ∀ member ∈ definition.members, '|' ∉ member.name.toList
  notDecimal : ∀ member ∈ definition.members, ∀ value, member.name ≠ decimal value

/-- A decimal text tells its value; another text tells the union of the members that its parts
name, all of which are names. -/
def Tells (definition : EnumDefinition) (text : String) (value : Int64) : Prop :=
  (∀ v, text = decimal v → v = value) ∧
  ((∀ v, text ≠ decimal v) →
    (∀ part ∈ barParts text, ∃ member ∈ definition.members, member.name = part) ∧
    unionOf (definition.members.filter (·.name ∈ barParts text)) = value)

/-- The text is the names of members whose bits make up the value. -/
def IsJoined (definition : EnumDefinition) (text : String) (value : Int64) : Prop :=
  ∃ members ≠ [], members ⊆ definition.members ∧
    text = "|".intercalate (members.map (·.name)) ∧ unionOf members = value

variable {definition : EnumDefinition} {text : String} {value : Int64}

theorem isJoined_name {member : EnumMember} (h : member ∈ definition.members) :
    IsJoined definition member.name member.value := by
  refine ⟨[member], List.cons_ne_nil _ _, by simpa using h, ?_, ?_⟩
  · rw [List.map_singleton, String.intercalate_singleton]
  · simp [unionOf]

theorem exactName_cases (definition : EnumDefinition) (value : Int64) :
    exactName definition.sorted value = decimal value ∨
      IsJoined definition (exactName definition.sorted value) value := by
  unfold exactName
  split
  · rename_i member hfind
    have hvalue : member.value = value := by simpa using List.find?_some hfind
    have hmem := mem_sorted.mp (List.mem_of_find?_eq_some hfind)
    exact .inr (hvalue ▸ isJoined_name hmem)
  · exact .inl rfl

theorem isJoined_of_flagNames? (hv : value ≠ 0)
    (h : flagNames? definition.sorted value = some text) : IsJoined definition text value := by
  have hbits := bits_takeFlags definition.sorted.reverse value
  have hsub := takeFlags_subset definition.sorted.reverse value
  unfold flagNames? at h
  rcases hwalk : takeFlags value definition.sorted.reverse with ⟨taken, left⟩
  rw [hwalk] at h hbits hsub
  dsimp only at h hbits hsub
  split at h
  · rename_i hleft
    subst hleft
    rw [bits_zero, Finset.union_empty] at hbits
    have hunion : unionOf taken = value := bits_injective hbits
    refine ⟨taken.reverse, ?_, ?_, (Option.some.inj h).symm, ?_⟩
    · intro hnil
      rw [List.reverse_eq_nil_iff] at hnil
      exact hv (hunion.symm.trans (by rw [hnil]; rfl))
    · intro member hm
      have hm := hsub (List.mem_reverse.mp hm)
      exact mem_sorted.mp (List.mem_reverse.mp hm)
    · rw [← hunion]
      exact unionOf_congr fun member => List.mem_reverse
  · cases h

theorem zeroName_cases (definition : EnumDefinition) :
    zeroName definition.sorted = decimal 0 ∨
      IsJoined definition (zeroName definition.sorted) 0 := by
  unfold zeroName
  split
  · rename_i first rest hsorted
    split
    · rename_i hfirst
      have hmem : first ∈ definition.members := by
        rw [← mem_sorted, hsorted]
        exact List.mem_cons_self
      exact .inr (hfirst ▸ isJoined_name hmem)
    · exact .inl (by decide)
  · exact .inl (by decide)

/-- A text is the decimal text of its value or names it. -/
theorem display_cases (definition : EnumDefinition) (value : Int64) (flags : Bool) :
    definition.display value flags = decimal value ∨
      IsJoined definition (definition.display value flags) value := by
  simp only [display]
  split
  · rename_i hv
    exact hv ▸ zeroName_cases definition
  · rename_i hv
    split
    · cases h : flagNames? definition.sorted value with
      | none => exact exactName_cases definition value
      | some names => exact .inr (isJoined_of_flagNames? hv h)
    · exact exactName_cases definition value

theorem mem_intercalate {separator : String} {names : List String} {c : Char}
    (h : c ∈ (separator.intercalate names).toList) :
    c ∈ separator.toList ∨ ∃ name ∈ names, c ∈ name.toList := by
  induction names with
  | nil => cases h
  | cons name rest ih =>
    cases rest with
    | nil =>
      rw [String.intercalate_singleton] at h
      exact .inr ⟨name, List.mem_cons_self, h⟩
    | cons next rest =>
      rw [String.intercalate_cons_cons, String.toList_append, String.toList_append,
        List.mem_append, List.mem_append] at h
      rcases h with (h | h) | h
      · exact .inr ⟨name, List.mem_cons_self, h⟩
      · exact .inl h
      · exact (ih h).imp_right fun ⟨other, hother, hc⟩ => ⟨other, .tail _ hother, hc⟩

/-- What a text is made of. -/
theorem mem_display {flags : Bool} {c : Char} (h : c ∈ (definition.display value flags).toList) :
    c.isDigit = true ∨ c = '-' ∨ c = '|' ∨
      ∃ member ∈ definition.members, c ∈ member.name.toList := by
  rcases display_cases definition value flags with hdecimal | ⟨members, -, hsub, htext, -⟩
  · rw [hdecimal] at h
    exact (mem_decimal h).imp_right .inl
  · rw [htext] at h
    rcases mem_intercalate h with hbar | ⟨name, hname, hc⟩
    · exact .inr (.inr (.inl (by simpa using hbar)))
    · obtain ⟨member, hmember, rfl⟩ := List.mem_map.mp hname
      exact .inr (.inr (.inr ⟨member, hsub hmember, hc⟩))

/-! ### Plain names -/

theorem tells_decimal (definition : EnumDefinition) (value : Int64) :
    Tells definition (decimal value) value :=
  ⟨fun _ h => (decimal_injective h).symm, fun h => absurd rfl (h value)⟩

/-- Names without a bar are the parts of the text that joins them. -/
theorem barParts_names (hp : PlainNames definition) {members : List EnumMember}
    (hne : members ≠ []) (hsub : members ⊆ definition.members) :
    barParts ("|".intercalate (members.map (·.name))) = members.map (·.name) := by
  refine barParts_intercalate (by simpa using hne) ?_
  intro name hname
  obtain ⟨member, hm, rfl⟩ := List.mem_map.mp hname
  exact hp.noBar member (hsub hm)

theorem ne_decimal_of_isJoined (hp : PlainNames definition) (h : IsJoined definition text value)
    (v : Int64) : text ≠ decimal v := by
  obtain ⟨members, hne, hsub, rfl, -⟩ := h
  intro hv
  have hparts := barParts_names hp hne hsub
  rw [hv, barParts_decimal] at hparts
  have hname : decimal v ∈ members.map (·.name) := hparts ▸ List.mem_singleton_self _
  obtain ⟨member, hm, hname⟩ := List.mem_map.mp hname
  exact hp.notDecimal member (hsub hm) v hname

theorem tells_of_isJoined (hp : PlainNames definition) (h : IsJoined definition text value) :
    Tells definition text value := by
  refine ⟨fun v hv => absurd hv (ne_decimal_of_isJoined hp h v), fun _ => ?_⟩
  obtain ⟨members, hne, hsub, rfl, hunion⟩ := h
  rw [barParts_names hp hne hsub]
  refine ⟨?_, ?_⟩
  · intro part hpart
    obtain ⟨member, hm, rfl⟩ := List.mem_map.mp hpart
    exact ⟨member, hsub hm, rfl⟩
  · rw [← hunion]
    refine unionOf_congr fun member => ?_
    simp only [List.mem_filter, List.mem_map, decide_eq_true_eq]
    constructor
    · rintro ⟨hm, other, ho, hname⟩
      rwa [List.inj_on_of_nodup_map hp.distinct hm (hsub ho) hname.symm]
    · intro hm
      exact ⟨hsub hm, member, hm, rfl⟩

theorem display_tells (hp : PlainNames definition) (value : Int64) (flags : Bool) :
    Tells definition (definition.display value flags) value := by
  rcases display_cases definition value flags with h | h
  · rw [h]
    exact tells_decimal definition value
  · exact tells_of_isJoined hp h

/-- A text tells at most one value. -/
theorem Tells.unique {v w : Int64} (hv : Tells definition text v) (hw : Tells definition text w) :
    v = w := by
  by_cases h : ∃ u, text = decimal u
  · obtain ⟨u, hu⟩ := h
    exact (hv.1 u hu).symm.trans (hw.1 u hu)
  · rw [not_exists] at h
    exact (hv.2 h).2.symm.trans (hw.2 h).2

theorem display_inj (hp : PlainNames definition) {flags : Bool} {v w : Int64}
    (h : definition.display v flags = definition.display w flags) : v = w :=
  (display_tells hp v flags).unique (h ▸ display_tells hp w flags)

end EnumDefinition

end TokenInspector
