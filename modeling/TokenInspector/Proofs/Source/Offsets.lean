import TokenInspector.Source.LineMap
import TokenInspector.Proofs.Ordering

/-!
# Offsets and positions

The map of a text is well formed: its first line starts at 0, the starts ascend, and none is past
the end. `At map p o` says that position `p` is where offset `o` is, on the last line that starts
at `o` or before. In a well-formed map every offset up to the end has exactly one such position;
`position?` finds it, `offset` leads back, and a later offset has a later position.
-/

namespace TokenInspector

theorem charUnits_pos (c : Char) : 0 < charUnits c := by
  unfold charUnits
  split <;> decide

theorem textUnits_cons (c : Char) (s : List Char) :
    textUnits (c :: s) = charUnits c + textUnits s := by
  simp [textUnits]

theorem Position.le_iff_toNat {p q : Position} : p ≤ q ↔ p.line.toNat < q.line.toNat ∨
    p.line.toNat = q.line.toNat ∧ p.character.toNat ≤ q.character.toNat := by
  rw [UInt32.toNat_inj]
  rfl

namespace LineMap

/-! ### Starts of lines -/

theorem startsAfter_bounds {offset : Nat} {s : List Char} :
    ∀ start ∈ startsAfter offset s, offset < start ∧ start ≤ offset + textUnits s := by
  fun_induction startsAfter offset s with
  | case1 => simp
  | case2 offset rest ih =>
    intro start hs
    have hunits : textUnits ('\r' :: '\n' :: rest) = 2 + textUnits rest := by
      rw [textUnits_cons, textUnits_cons, ← Nat.add_assoc]
      rfl
    rcases List.mem_cons.mp hs with rfl | hs
    · omega
    · have := ih start hs
      omega
  | case3 offset c rest _ next _ ih =>
    intro start hs
    have := charUnits_pos c
    have hunits := textUnits_cons c rest
    rcases List.mem_cons.mp hs with rfl | hs
    · omega
    · have := ih start hs
      omega
  | case4 offset c rest _ next _ ih =>
    intro start hs
    have := charUnits_pos c
    have hunits := textUnits_cons c rest
    have := ih start hs
    omega

theorem startsAfter_pairwise {offset : Nat} {s : List Char} :
    (startsAfter offset s).Pairwise (· < ·) := by
  fun_induction startsAfter offset s with
  | case1 => exact .nil
  | case2 offset rest ih =>
    exact List.pairwise_cons.mpr ⟨fun start hs => (startsAfter_bounds start hs).1, ih⟩
  | case3 offset c rest _ next _ ih =>
    exact List.pairwise_cons.mpr ⟨fun start hs => (startsAfter_bounds start hs).1, ih⟩
  | case4 offset c rest _ next _ ih => exact ih

/-- The first line starts at 0, later lines start later, and none past the end. -/
structure WellFormed (map : LineMap) : Prop where
  first : map.starts[0]? = some 0
  ascending : map.starts.Pairwise (· < ·)
  bounded : ∀ start ∈ map.starts, start ≤ map.length

theorem wellFormed_ofText (text : String) : (ofText text).WellFormed where
  first := rfl
  ascending :=
    List.pairwise_cons.mpr ⟨fun start hs => (startsAfter_bounds start hs).1, startsAfter_pairwise⟩
  bounded := by
    intro start hs
    rcases List.mem_cons.mp hs with rfl | hs
    · exact Nat.zero_le _
    · have := (startsAfter_bounds start hs).2
      rwa [Nat.zero_add] at this

variable {map : LineMap}

theorem WellFormed.start_lt (h : map.WellFormed) {i j a b : Nat} (ha : map.starts[i]? = some a)
    (hb : map.starts[j]? = some b) (hij : i < j) : a < b :=
  rel_of_pairwise h.ascending ha hb hij

theorem WellFormed.start_le (h : map.WellFormed) {i j a b : Nat} (ha : map.starts[i]? = some a)
    (hb : map.starts[j]? = some b) (hij : i ≤ j) : a ≤ b := by
  rcases Nat.lt_or_eq_of_le hij with hlt | rfl
  · exact Nat.le_of_lt (h.start_lt ha hb hlt)
  · rw [ha, Option.some.injEq] at hb
    exact Nat.le_of_eq hb

/-- Starts ascend by at least one from 0. -/
theorem WellFormed.le_start (h : map.WellFormed) {i start : Nat}
    (hs : map.starts[i]? = some start) : i ≤ start := by
  induction i generalizing start with
  | zero => exact Nat.zero_le _
  | succ i ih =>
    obtain ⟨hlt, -⟩ := List.getElem?_eq_some_iff.mp hs
    have hprev := List.getElem?_eq_getElem (show i < map.starts.length by omega)
    have := ih hprev
    have := h.start_lt hprev hs (Nat.lt_succ_self i)
    omega

/-! ### The starts up to an offset -/

theorem lt_length_takeWhile_iff {starts : List Nat} (h : starts.Pairwise (· < ·)) {o i start : Nat}
    (hs : starts[i]? = some start) : i < (starts.takeWhile (· ≤ o)).length ↔ start ≤ o := by
  induction starts generalizing i with
  | nil => simp at hs
  | cons first rest ih =>
    obtain ⟨hfirst, hrest⟩ := List.pairwise_cons.mp h
    rw [List.takeWhile_cons]
    cases i with
    | zero =>
      simp only [List.getElem?_cons_zero, Option.some.injEq] at hs
      subst hs
      by_cases hle : first ≤ o <;> simp [hle]
    | succ i =>
      rw [List.getElem?_cons_succ] at hs
      have hlt := hfirst start (List.mem_of_getElem? hs)
      by_cases hle : first ≤ o
      · simpa [hle] using ih hrest hs
      · have hgt : ¬ start ≤ o := by omega
        simp [hle, hgt]

/-- The starts are partitioned: those up to an offset come first. -/
theorem WellFormed.lt_length_startsUpTo_iff (h : map.WellFormed) {o i start : Nat}
    (hs : map.starts[i]? = some start) : i < (map.startsUpTo o).length ↔ start ≤ o :=
  lt_length_takeWhile_iff h.ascending hs

theorem WellFormed.startsUpTo_pos (h : map.WellFormed) (o : Nat) :
    0 < (map.startsUpTo o).length :=
  (h.lt_length_startsUpTo_iff h.first).mpr (Nat.zero_le o)

/-- The last start up to an offset. -/
theorem WellFormed.exists_getLast? (h : map.WellFormed) (o : Nat) :
    ∃ start, (map.startsUpTo o).getLast? = some start ∧
      map.starts[(map.startsUpTo o).length - 1]? = some start ∧ start ≤ o ∧
      ∀ next, map.starts[(map.startsUpTo o).length - 1 + 1]? = some next → o < next := by
  have hpos := h.startsUpTo_pos o
  have hlast : (map.startsUpTo o).length - 1 < (map.startsUpTo o).length := by omega
  have hstart := List.prefix_iff_getElem?.mp (List.takeWhile_prefix (· ≤ o)) _ hlast
  refine ⟨_, ?_, hstart, (h.lt_length_startsUpTo_iff hstart).mp hlast, ?_⟩
  · rw [List.getLast?_eq_getElem?, List.getElem?_eq_getElem hlast]
    rfl
  · intro next hnext
    have hiff := h.lt_length_startsUpTo_iff (o := o) hnext
    omega

/-! ### The position of an offset -/

/-- Position `p` is where offset `o` is: that far behind the start of its line, before the next. -/
def At (map : LineMap) (p : Position) (o : Nat) : Prop :=
  ∃ start, map.starts[p.line.toNat]? = some start ∧ start + p.character.toNat = o ∧
    ∀ next, map.starts[p.line.toNat + 1]? = some next → o < next

variable {p q : Position} {a b o : Nat}

theorem toNat_ofNat {n : Nat} (h : n < UInt32.size) : (UInt32.ofNat n).toNat = n :=
  UInt32.toNat_ofNat_of_lt' h

/-- The position found for an offset is where it is, or where the end is. -/
theorem WellFormed.exists_position? (h : map.WellFormed) (hlen : map.length < UInt32.size)
    (o : Nat) : ∃ p, map.position? o = some p ∧ map.At p (min o map.length) := by
  obtain ⟨start, hlast, hstart, hle, hnext⟩ := h.exists_getLast? (min o map.length)
  have hposition : map.position? o = some
      ⟨UInt32.ofNat ((map.startsUpTo (min o map.length)).length - 1),
        UInt32.ofNat (min o map.length - start)⟩ := by
    simp only [position?, hlast, Option.map_some]
  have hline := toNat_ofNat (n := (map.startsUpTo (min o map.length)).length - 1) (by
    have := h.le_start hstart
    omega)
  have hchar := toNat_ofNat (n := min o map.length - start) (by omega)
  refine ⟨_, hposition, start, ?_, ?_, ?_⟩
  · rwa [hline]
  · rw [hchar]
    omega
  · rwa [hline]

theorem WellFormed.exists_position?_of_le (h : map.WellFormed) (hlen : map.length < UInt32.size)
    (ho : o ≤ map.length) : ∃ p, map.position? o = some p ∧ map.At p o := by
  obtain ⟨p, hp, hat⟩ := h.exists_position? hlen o
  rw [Nat.min_eq_left ho] at hat
  exact ⟨p, hp, hat⟩

/-- A later offset is not on an earlier line. -/
theorem WellFormed.line_le (h : map.WellFormed) (hp : map.At p a) (hq : map.At q b) (hab : a ≤ b) :
    p.line.toNat ≤ q.line.toNat := by
  obtain ⟨start, hstart, hpa, -⟩ := hp
  obtain ⟨-, -, -, hnext⟩ := hq
  apply Nat.le_of_not_lt
  intro hlt
  obtain ⟨hlen, -⟩ := List.getElem?_eq_some_iff.mp hstart
  have hafter := List.getElem?_eq_getElem (show q.line.toNat + 1 < map.starts.length by omega)
  have hb := hnext _ hafter
  have := h.start_le hafter hstart hlt
  omega

/-- A later offset has a later position. -/
theorem WellFormed.at_lt (h : map.WellFormed) (hp : map.At p a) (hq : map.At q b) (hab : a < b) :
    p < q := by
  have hline := h.line_le hp hq (Nat.le_of_lt hab)
  obtain ⟨start, hstart, hpa, -⟩ := hp
  obtain ⟨start', hstart', hqb, -⟩ := hq
  rcases Nat.lt_or_eq_of_le hline with hlt | heq
  · exact .inl hlt
  · refine .inr ⟨UInt32.toNat_inj.mp heq, ?_⟩
    rw [heq, hstart', Option.some.injEq] at hstart
    rw [UInt32.lt_iff_toNat_lt]
    omega

/-- An offset is at one position only. -/
theorem WellFormed.at_unique (h : map.WellFormed) (hp : map.At p o) (hq : map.At q o) : p = q := by
  have hline : p.line = q.line := by
    have := h.line_le hp hq (Nat.le_refl o)
    have := h.line_le hq hp (Nat.le_refl o)
    exact UInt32.toNat_inj.mp (by omega)
  obtain ⟨start, hstart, hpo, -⟩ := hp
  obtain ⟨start', hstart', hqo, -⟩ := hq
  rw [hline, hstart', Option.some.injEq] at hstart
  have hchar : p.character = q.character := UInt32.toNat_inj.mp (by omega)
  cases p
  cases q
  simp_all

/-- A later or equal offset has a later or equal position. -/
theorem WellFormed.at_mono (h : map.WellFormed) (hp : map.At p a) (hq : map.At q b) (hab : a ≤ b) :
    p ≤ q := by
  rw [Position.le_iff_toNat]
  rcases Nat.lt_or_eq_of_le hab with hlt | rfl
  · rcases h.at_lt hp hq hlt with hline | ⟨hline, hchar⟩
    · exact .inl hline
    · exact .inr ⟨congrArg _ hline, Nat.le_of_lt hchar⟩
  · rw [h.at_unique hp hq]
    exact .inr ⟨rfl, Nat.le_refl _⟩

/-- The offset of a position leads back to where it is. -/
theorem At.offset_eq (hp : map.At p o) (hlen : o ≤ map.length) : map.offset p = o := by
  obtain ⟨start, hstart, hpo, hnext⟩ := hp
  simp only [offset, hstart, hpo]
  cases hafter : map.starts[p.line.toNat + 1]? with
  | none => exact Nat.min_eq_left hlen
  | some next => exact Nat.min_eq_left (Nat.le_of_lt (hnext next hafter))

/-! ### Positions of a text -/

/-- A position that the text has: before the start of the next line, or on the last line up to the
end. -/
def HasPosition (map : LineMap) (p : Position) : Prop :=
  ∃ start, map.starts[p.line.toNat]? = some start ∧
    (∀ next, map.starts[p.line.toNat + 1]? = some next → p.character.toNat < next - start) ∧
    (map.starts[p.line.toNat + 1]? = none → p.character.toNat ≤ map.length - start)

/-- A position that the text has is where its offset is. -/
theorem WellFormed.at_offset (h : map.WellFormed) (hp : map.HasPosition p) :
    map.At p (map.offset p) ∧ map.offset p ≤ map.length := by
  obtain ⟨start, hstart, hinner, hlast⟩ := hp
  have hsum : start + p.character.toNat ≤ map.length ∧
      ∀ next, map.starts[p.line.toNat + 1]? = some next → start + p.character.toNat < next := by
    cases hafter : map.starts[p.line.toNat + 1]? with
    | none =>
      have := h.bounded start (List.mem_of_getElem? hstart)
      have := hlast hafter
      exact ⟨by omega, by simp⟩
    | some next =>
      have := h.bounded next (List.mem_of_getElem? hafter)
      have := hinner next hafter
      simp only [Option.some.injEq, forall_eq']
      omega
  have hat : map.At p (start + p.character.toNat) := ⟨start, hstart, rfl, hsum.2⟩
  rw [hat.offset_eq hsum.1]
  exact ⟨hat, hsum.1⟩

/-- Offsets and positions of a text are converted into each other, in order, and no conversion has
to count below zero. -/
theorem position_offset_roundTrip (text : String) (hlen : textUnits text.toList < UInt32.size) :
    (∀ o, ∃ p, (ofText text).position? o = some p ∧
      (ofText text).offset p = min o (ofText text).length) ∧
    (∀ p, (ofText text).HasPosition p →
      (ofText text).position? ((ofText text).offset p) = some p) ∧
    (∀ a b, a < b → b ≤ (ofText text).length → ∃ p q, (ofText text).position? a = some p ∧
      (ofText text).position? b = some q ∧ p < q) ∧
    (∀ o, 0 < ((ofText text).startsUpTo o).length ∧
      (∀ i start, (ofText text).starts[i]? = some start →
        (i < ((ofText text).startsUpTo o).length ↔ start ≤ o)) ∧
      ∃ start, (ofText text).starts[((ofText text).startsUpTo o).length - 1]? = some start ∧
        start ≤ o) := by
  have h := wellFormed_ofText text
  have hposition := h.exists_position? hlen
  refine ⟨?_, ?_, ?_, ?_⟩
  · intro o
    obtain ⟨p, hp, hat⟩ := hposition o
    exact ⟨p, hp, hat.offset_eq (Nat.min_le_right _ _)⟩
  · intro p hp
    obtain ⟨hat, hle⟩ := h.at_offset hp
    obtain ⟨q, hq, hqat⟩ := hposition ((ofText text).offset p)
    rw [Nat.min_eq_left hle] at hqat
    rw [hq, h.at_unique hqat hat]
  · intro a b hab hb
    obtain ⟨p, hp, hpat⟩ := hposition a
    obtain ⟨q, hq, hqat⟩ := hposition b
    exact ⟨p, q, hp, hq, h.at_lt hpat hqat (by omega)⟩
  · intro o
    obtain ⟨start, -, hstart, hle, -⟩ := h.exists_getLast? o
    exact ⟨h.startsUpTo_pos o, fun i start => h.lt_length_startsUpTo_iff, start, hstart, hle⟩

/-- A text with each of the three line ends, a surrogate pair and an empty last line. -/
def mixedLineEnds : String := "a\r\n😀\rb\n"

/-- Offset 2 is inside the first line end and offset 4 inside the pair. -/
theorem position_offset_roundTrip_mixed :
    textUnits mixedLineEnds.toList < UInt32.size ∧
    (∃ p, (ofText mixedLineEnds).position? 2 = some p ∧ (ofText mixedLineEnds).offset p = 2) ∧
    (∃ p, (ofText mixedLineEnds).position? 9 = some p ∧ (ofText mixedLineEnds).offset p = 8) ∧
    (ofText mixedLineEnds).position? ((ofText mixedLineEnds).offset ⟨3, 0⟩) = some ⟨3, 0⟩ ∧
    ∃ p q, (ofText mixedLineEnds).position? 2 = some p ∧
      (ofText mixedLineEnds).position? 4 = some q ∧ p < q := by
  have hlen : textUnits mixedLineEnds.toList < UInt32.size := by decide
  have hlength : (ofText mixedLineEnds).length = 8 := by decide
  have hlast : (ofText mixedLineEnds).HasPosition ⟨3, 0⟩ :=
    ⟨8, by decide, by simp [show (ofText mixedLineEnds).starts[4]? = none by decide], by decide⟩
  obtain ⟨hoffset, hposition, horder, -⟩ := position_offset_roundTrip mixedLineEnds hlen
  rw [hlength] at hoffset horder
  exact ⟨hlen, hoffset 2, hoffset 9, hposition _ hlast, horder 2 4 (by decide) (by decide)⟩

end LineMap

end TokenInspector
