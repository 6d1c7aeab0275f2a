import TokenInspector.Proofs.Source.Offsets

/-!
# Offsets of any position

A position need not be one that the text has: its character may be past the end of its line, or its
line past the last one. Up to the position of the end, `offset p ≤ o` just if `p` is not after the
position of `o` (`WellFormed.offset_le_iff`); past it, `offset` is the length. So `offset` keeps the
order of positions, stays within the text, and leads to the first position of the text that is not
before the given one (`IsNext`).
-/

namespace TokenInspector

theorem Position.le_trans {p q r : Position} (hpq : p ≤ q) (hqr : q ≤ r) : p ≤ r := by
  rw [le_iff_toNat] at *
  omega

namespace LineMap

variable {map : LineMap} {p q e : Position} {o start next : Nat}

/-! ### The line of a position -/

theorem offset_of_line (hstart : map.starts[p.line.toNat]? = some start) :
    map.offset p =
      min (start + p.character.toNat) (map.starts[p.line.toNat + 1]?.getD map.length) := by
  simp only [offset, hstart]

theorem offset_of_noLine (h : map.starts[p.line.toNat]? = none) : map.offset p = map.length := by
  simp only [offset, h]

/-- A line ends, where the next one starts or the text ends, not before it starts. -/
theorem WellFormed.lineEnd_bounds (h : map.WellFormed) {i : Nat}
    (hstart : map.starts[i]? = some start) :
    start ≤ map.starts[i + 1]?.getD map.length ∧
      map.starts[i + 1]?.getD map.length ≤ map.length := by
  cases hnext : map.starts[i + 1]? with
  | none => exact ⟨h.bounded start (List.mem_of_getElem? hstart), Nat.le_refl _⟩
  | some next =>
    exact ⟨h.start_le hstart hnext (Nat.le_succ i), h.bounded next (List.mem_of_getElem? hnext)⟩

theorem WellFormed.start_le_offset (h : map.WellFormed)
    (hstart : map.starts[p.line.toNat]? = some start) : start ≤ map.offset p := by
  have := (h.lineEnd_bounds hstart).1
  rw [offset_of_line hstart]
  omega

theorem WellFormed.offset_le_length (h : map.WellFormed) (p : Position) :
    map.offset p ≤ map.length := by
  cases hstart : map.starts[p.line.toNat]? with
  | none => exact Nat.le_of_eq (offset_of_noLine hstart)
  | some start =>
    have := (h.lineEnd_bounds hstart).2
    rw [offset_of_line hstart]
    omega

/-- The end is on the last line. -/
theorem WellFormed.line_of_end (h : map.WellFormed) (he : map.At e map.length) :
    map.starts.length = e.line.toNat + 1 := by
  obtain ⟨start, hstart, -, hnext⟩ := he
  obtain ⟨hlt, -⟩ := List.getElem?_eq_some_iff.mp hstart
  apply Nat.le_antisymm _ hlt
  apply Nat.le_of_not_lt
  intro hafter
  have hafter := List.getElem?_eq_getElem hafter
  have := hnext _ hafter
  have := h.bounded _ (List.mem_of_getElem? hafter)
  omega

/-! ### Order of positions and offsets -/

/-- A position that is not after the one of an offset does not lead past that offset. -/
theorem WellFormed.offset_le_of_le (h : map.WellFormed) (hq : map.At q o) (hpq : p ≤ q) :
    map.offset p ≤ o := by
  obtain ⟨start, hstart, hsum, -⟩ := hq
  rcases Position.le_iff_toNat.mp hpq with hline | ⟨hline, hchar⟩
  · -- the line after that of `p` starts at `o` or before
    obtain ⟨hlt, -⟩ := List.getElem?_eq_some_iff.mp hstart
    have hp := List.getElem?_eq_getElem (show p.line.toNat < map.starts.length by omega)
    have hnext := List.getElem?_eq_getElem (show p.line.toNat + 1 < map.starts.length by omega)
    have := h.start_le hnext hstart hline
    rw [offset_of_line hp, hnext, Option.getD_some]
    omega
  · rw [offset_of_line (hline ▸ hstart)]
    omega

/-- A position that is not after the end, and that leads to an offset or before it, is not after the
position of that offset. -/
theorem WellFormed.le_of_offset_le (h : map.WellFormed) (he : map.At e map.length) (hpe : p ≤ e)
    (hq : map.At q o) (hle : map.offset p ≤ o) : p ≤ q := by
  have hlast := h.line_of_end he
  obtain ⟨last, hlastStart, hend, -⟩ := he
  obtain ⟨start, hstart, hsum, hbefore⟩ := hq
  rw [Position.le_iff_toNat] at hpe ⊢
  have hline : p.line.toNat ≤ q.line.toNat := by
    apply Nat.le_of_not_lt
    intro hlt
    have hp := List.getElem?_eq_getElem (show p.line.toNat < map.starts.length by omega)
    have hnext := List.getElem?_eq_getElem (show q.line.toNat + 1 < map.starts.length by omega)
    have := hbefore _ hnext
    have := h.start_le hnext hp hlt
    have := h.start_le_offset hp
    omega
  rcases Nat.lt_or_eq_of_le hline with hlt | hline
  · exact .inl hlt
  · refine .inr ⟨hline, ?_⟩
    rw [offset_of_line (hline ▸ hstart), hline] at hle
    cases hnext : map.starts[q.line.toNat + 1]? with
    | none =>
      -- the last line, where `p` is not past the end
      rw [List.getElem?_eq_none_iff] at hnext
      have heq : q.line.toNat = e.line.toNat := by omega
      rw [heq, hlastStart, Option.some.injEq] at hstart
      simp only [List.getElem?_eq_none hnext, Option.getD_none] at hle
      omega
    | some next =>
      have := hbefore next hnext
      rw [hnext, Option.getD_some] at hle
      omega

/-- Up to the end, offsets of positions and positions of offsets are ordered alike. -/
theorem WellFormed.offset_le_iff (h : map.WellFormed) (he : map.At e map.length) (hpe : p ≤ e)
    (hq : map.At q o) : map.offset p ≤ o ↔ p ≤ q :=
  ⟨h.le_of_offset_le he hpe hq, h.offset_le_of_le hq⟩

theorem WellFormed.offset_of_not_le (h : map.WellFormed) (he : map.At e map.length)
    (hpe : ¬ p ≤ e) : map.offset p = map.length := by
  have hlast := h.line_of_end he
  obtain ⟨start, hstart, hend, -⟩ := he
  rw [Position.le_iff_toNat] at hpe
  by_cases hline : p.line.toNat = e.line.toNat
  · have hnext : map.starts[p.line.toNat + 1]? = none := List.getElem?_eq_none (by omega)
    rw [offset_of_line (hline ▸ hstart), hnext, Option.getD_none]
    omega
  · exact offset_of_noLine (List.getElem?_eq_none (by omega))

theorem WellFormed.offset_mono (h : map.WellFormed) (hlen : map.length < UInt32.size)
    (hpq : p ≤ q) : map.offset p ≤ map.offset q := by
  obtain ⟨e, -, he⟩ := h.exists_position?_of_le hlen (Nat.le_refl _)
  by_cases hqe : q ≤ e
  · obtain ⟨r, -, hr⟩ := h.exists_position?_of_le hlen (h.offset_le_length q)
    have hqr := (h.offset_le_iff he hqe hr).mp (Nat.le_refl _)
    exact h.offset_le_of_le hr (Position.le_trans hpq hqr)
  · rw [h.offset_of_not_le he hqe]
    exact h.offset_le_length p

/-! ### The next position -/

/-- `q` is the first position of the text that is not before `p`. -/
structure IsNext (map : LineMap) (p q : Position) : Prop where
  hasPosition : map.HasPosition q
  le : p ≤ q
  first : ∀ r, map.HasPosition r → p ≤ r → q ≤ r

theorem At.hasPosition (hq : map.At q o) (ho : o ≤ map.length) : map.HasPosition q := by
  obtain ⟨start, hstart, hsum, hnext⟩ := hq
  refine ⟨start, hstart, ?_, ?_⟩
  · intro next hafter
    have := hnext next hafter
    omega
  · intro _
    omega

/-- A position that is not after the end leads to the next one of the text. -/
theorem WellFormed.isNext (h : map.WellFormed) (he : map.At e map.length) (hpe : p ≤ e)
    (hq : map.At q (map.offset p)) : map.IsNext p q where
  hasPosition := hq.hasPosition (h.offset_le_length p)
  le := (h.offset_le_iff he hpe hq).mp (Nat.le_refl _)
  first := by
    intro r hr hpr
    obtain ⟨hat, -⟩ := h.at_offset hr
    exact h.at_mono hq hat ((h.offset_le_iff he hpe hat).mpr hpr)

/-- Past the end of a line that has a next one, the next position is where that one starts. -/
theorem WellFormed.at_nextLine (h : map.WellFormed) (hlen : map.length < UInt32.size)
    (hstart : map.starts[p.line.toNat]? = some start)
    (hnext : map.starts[p.line.toNat + 1]? = some next) (hpast : next - start ≤ p.character.toNat) :
    map.At ⟨p.line + 1, 0⟩ (map.offset p) := by
  have hoffset : map.offset p = next := by
    have := h.start_le hstart hnext (Nat.le_succ _)
    rw [offset_of_line hstart, hnext, Option.getD_some]
    omega
  have hline : (p.line + 1).toNat = p.line.toNat + 1 := by
    have := h.le_start hnext
    have := h.bounded next (List.mem_of_getElem? hnext)
    rw [UInt32.toNat_add, UInt32.toNat_one]
    exact Nat.mod_eq_of_lt (show p.line.toNat + 1 < UInt32.size by omega)
  rw [hoffset]
  refine ⟨next, ?_, by simp, ?_⟩
  · rw [hline]
    exact hnext
  · intro after hafter
    rw [hline] at hafter
    exact h.start_lt hnext hafter (Nat.lt_succ_self _)

/-! ### Positions and offsets of a text -/

/-- How the offset of `p`, which need not be a position of the text, stands to the positions of
offsets, that of the end being `e`. -/
structure AdjointAt (map : LineMap) (e p : Position) : Prop where
  ordered : p ≤ e → ∀ o ≤ map.length, ∃ q, map.position? o = some q ∧ (map.offset p ≤ o ↔ p ≤ q)
  past_end : ¬ p ≤ e → map.offset p = map.length
  bounded : map.offset p ≤ map.length
  monotone : ∀ q, p ≤ q → map.offset p ≤ map.offset q
  next : p ≤ e → ∃ q, map.position? (map.offset p) = some q ∧ map.IsNext p q
  nextLine : ∀ start next, map.starts[p.line.toNat]? = some start →
    map.starts[p.line.toNat + 1]? = some next → next - start ≤ p.character.toNat →
    map.position? (map.offset p) = some ⟨p.line + 1, 0⟩

/-- For every position, whether the text has it or not, `offset` is ordered as the positions of
offsets are. -/
theorem offset_adjoint (text : String) (hlen : textUnits text.toList < UInt32.size) :
    ∃ e, (ofText text).position? (ofText text).length = some e ∧
      ∀ p, (ofText text).AdjointAt e p := by
  have h := wellFormed_ofText text
  obtain ⟨e, hend, he⟩ := h.exists_position?_of_le hlen (Nat.le_refl _)
  refine ⟨e, hend, fun p => ?_⟩
  obtain ⟨q, hq, hat⟩ := h.exists_position?_of_le hlen (h.offset_le_length p)
  exact {
    ordered := by
      intro hpe o ho
      obtain ⟨r, hr, hrat⟩ := h.exists_position?_of_le hlen ho
      exact ⟨r, hr, h.offset_le_iff he hpe hrat⟩
    past_end := h.offset_of_not_le he
    bounded := h.offset_le_length p
    monotone := fun _ hpr => h.offset_mono hlen hpr
    next := fun hpe => ⟨q, hq, h.isNext he hpe hat⟩
    nextLine := by
      intro start next hstart hnext hpast
      rw [hq, h.at_unique hat (h.at_nextLine hlen hstart hnext hpast)] }

/-- A character past the end of the second line, and a line past the last one. -/
theorem offset_adjoint_mixed :
    textUnits mixedLineEnds.toList < UInt32.size ∧
    (ofText mixedLineEnds).position? 8 = some ⟨3, 0⟩ ∧
    (⟨1, 4294967295⟩ : Position) ≤ ⟨3, 0⟩ ∧
    (∃ q, (ofText mixedLineEnds).position? 5 = some q ∧
      ((ofText mixedLineEnds).offset ⟨1, 4294967295⟩ ≤ 5 ↔ (⟨1, 4294967295⟩ : Position) ≤ q)) ∧
    (ofText mixedLineEnds).position? ((ofText mixedLineEnds).offset ⟨1, 4294967295⟩) =
      some ⟨2, 0⟩ ∧
    ¬ (⟨4294967295, 0⟩ : Position) ≤ ⟨3, 0⟩ ∧
    (ofText mixedLineEnds).offset ⟨4294967295, 0⟩ = (ofText mixedLineEnds).length := by
  have hlen : textUnits mixedLineEnds.toList < UInt32.size := by decide
  have hend : (ofText mixedLineEnds).position? (ofText mixedLineEnds).length = some ⟨3, 0⟩ := by
    decide
  have hbefore : (⟨1, 4294967295⟩ : Position) ≤ ⟨3, 0⟩ := by decide
  have hafter : ¬ (⟨4294967295, 0⟩ : Position) ≤ ⟨3, 0⟩ := by decide
  obtain ⟨e, he, hadjoint⟩ := offset_adjoint mixedLineEnds hlen
  rw [hend, Option.some.injEq] at he
  subst he
  have hcolumn := hadjoint ⟨1, 4294967295⟩
  exact ⟨hlen, hend, hbefore, hcolumn.ordered hbefore 5 (by decide),
    hcolumn.nextLine 3 6 (by decide) (by decide) (by decide), hafter,
    (hadjoint ⟨4294967295, 0⟩).past_end hafter⟩

end LineMap

end TokenInspector
