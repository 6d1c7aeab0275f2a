import TokenInspector.Proofs.Source.Offsets
import TokenInspector.Proofs.Source.Units

/-!
# Line ends

Where lines start is a matter of the 16-bit units of a text alone. `EndsLine units o` says that a
line end stops at offset `o`: a line feed, or a carriage return that no line feed follows. So the
pair of both counts once, where it stops. `lineEnds units` lists these offsets in order, and the
starts after the first are just these (`startsAfter_eq`): no unit of a surrogate pair is a line end.
-/

namespace TokenInspector

/-- The unit of a line feed. -/
def lineFeed : Nat := '\n'.toNat

/-- The unit of a carriage return. -/
def carriageReturn : Nat := '\r'.toNat

/-- A line end of the units stops at offset `o`. -/
def EndsLine (units : List Nat) (o : Nat) : Prop :=
  1 ≤ o ∧ o ≤ units.length ∧ (units[o - 1]? = some lineFeed ∨
    units[o - 1]? = some carriageReturn ∧ (o = units.length ∨ units[o]? ≠ some lineFeed))

instance (units : List Nat) (o : Nat) : Decidable (EndsLine units o) :=
  inferInstanceAs (Decidable (_ ∧ _ ∧ (_ ∨ _ ∧ (_ ∨ _))))

/-- The offsets at which line ends stop, in order. -/
def lineEnds (units : List Nat) : List Nat := (List.range' 1 units.length).filter (EndsLine units)

variable {x : Nat} {units : List Nat}

theorem mem_lineEnds {o : Nat} : o ∈ lineEnds units ↔ EndsLine units o := by
  unfold lineEnds
  rw [List.mem_filter, List.mem_range'_1, decide_eq_true_eq]
  constructor
  · exact And.right
  · intro h
    have h1 := h.1
    have h2 := h.2.1
    exact ⟨by omega, h⟩

/-! ### One more unit in front -/

theorem endsLine_cons_one :
    EndsLine (x :: units) 1 ↔ x = lineFeed ∨ x = carriageReturn ∧ units.head? ≠ some lineFeed := by
  unfold EndsLine
  cases units <;> simp

theorem endsLine_cons_succ {o : Nat} (ho : 1 ≤ o) :
    EndsLine (x :: units) (1 + o) ↔ EndsLine units o := by
  obtain ⟨k, rfl⟩ := Nat.exists_eq_add_of_le' ho
  unfold EndsLine
  simp [Nat.add_comm 1]

theorem lineEnds_cons (x : Nat) (units : List Nat) :
    lineEnds (x :: units) =
      (if x = lineFeed ∨ x = carriageReturn ∧ units.head? ≠ some lineFeed then [1] else []) ++
        (lineEnds units).map (1 + ·) := by
  have hrest : (List.range' 2 units.length).filter (EndsLine (x :: units)) =
      (lineEnds units).map (1 + ·) := by
    rw [lineEnds, show 2 = 1 + 1 from rfl, ← List.map_add_range', List.filter_map]
    congr 1
    apply List.filter_congr
    intro o ho
    exact decide_eq_decide.mpr (endsLine_cons_succ (List.mem_range'_1.mp ho).1)
  rw [lineEnds, List.length_cons, List.range'_succ, List.filter_cons, hrest]
  simp only [decide_eq_true_eq, endsLine_cons_one]
  split <;> rfl

theorem lineEnds_cons_other (hfeed : x ≠ lineFeed) (hreturn : x ≠ carriageReturn) :
    lineEnds (x :: units) = (lineEnds units).map (1 + ·) := by
  simp [lineEnds_cons, hfeed, hreturn]

theorem map_add_add (a b : Nat) (l : List Nat) :
    (l.map (b + ·)).map (a + ·) = l.map (a + b + ·) := by
  rw [List.map_map]
  exact List.map_congr_left fun o _ => (Nat.add_assoc a b o).symm

theorem lineEnds_pair :
    lineEnds (carriageReturn :: lineFeed :: units) = 2 :: (lineEnds units).map (2 + ·) := by
  have hreturn : ¬ (carriageReturn = lineFeed ∨
      carriageReturn = carriageReturn ∧ (lineFeed :: units).head? ≠ some lineFeed) := by
    simp [carriageReturn, lineFeed]
  rw [lineEnds_cons, if_neg hreturn, lineEnds_cons, if_pos (.inl rfl), List.nil_append,
    List.map_append, map_add_add]
  rfl

/-- Every line feed and every carriage return ends a line, a pair of both only once. -/
theorem length_lineEnds (units : List Nat) :
    (lineEnds units).length + (units.zip units.tail).count (carriageReturn, lineFeed) =
      units.count carriageReturn + units.count lineFeed := by
  induction units with
  | nil => rfl
  | cons x rest ih =>
    have hzip : ((x :: rest).zip rest).count (carriageReturn, lineFeed) =
        (rest.zip rest.tail).count (carriageReturn, lineFeed) +
          if x = carriageReturn ∧ rest.head? = some lineFeed then 1 else 0 := by
      cases rest with
      | nil => simp
      | cons y rest => simp [List.count_cons]
    have hdistinct : carriageReturn ≠ lineFeed := by decide
    have hfirst : (if x = lineFeed ∨ x = carriageReturn ∧ rest.head? ≠ some lineFeed then [1]
          else []).length + (if x = carriageReturn ∧ rest.head? = some lineFeed then 1 else 0) =
        (if x == carriageReturn then 1 else 0) + if x == lineFeed then 1 else 0 := by
      by_cases hreturn : x = carriageReturn
      · by_cases hpair : rest.head? = some lineFeed <;> simp [hreturn, hpair, hdistinct]
      · by_cases hfeed : x = lineFeed <;> simp [hreturn, hfeed, hdistinct.symm]
    rw [List.tail_cons, hzip, lineEnds_cons, List.length_append, List.length_map, List.count_cons,
      List.count_cons]
    omega

/-! ### Line ends of a text -/

theorem utf16_cons (c : Char) (s : List Char) : utf16 (c :: s) = utf16Char c ++ utf16 s := rfl

theorem head?_utf16 (s : List Char) : (utf16 s).head? = some lineFeed ↔ s.head? = some '\n' := by
  cases s with
  | nil => simp [utf16]
  | cons c s =>
    rw [utf16_cons, utf16Char, List.head?_cons]
    split
    · simp only [List.cons_append, List.head?_cons, Option.some.injEq, lineFeed, Char.toNat_inj]
    · rename_i hc
      simp only [List.cons_append, List.head?_cons, Option.some.injEq]
      constructor
      · intro h
        have : lineFeed = 10 := rfl
        omega
      · rintro rfl
        exact absurd (by decide) hc

/-- A character that is not the first of a pair ends a line by itself or not at all. -/
theorem lineEnds_utf16_cons {c : Char} {s : List Char} (h : c = '\r' → s.head? ≠ some '\n') :
    lineEnds (utf16 (c :: s)) =
      (if c = '\r' ∨ c = '\n' then [charUnits c] else []) ++
        (lineEnds (utf16 s)).map (charUnits c + ·) := by
  rw [utf16_cons, utf16Char, charUnits]
  by_cases hc : c.toNat < 0x10000
  · have hend : (c.toNat = lineFeed ∨
        c.toNat = carriageReturn ∧ (utf16 s).head? ≠ some lineFeed) ↔ c = '\r' ∨ c = '\n' := by
      rw [Ne, head?_utf16, lineFeed, carriageReturn, Char.toNat_inj, Char.toNat_inj, or_comm]
      exact or_congr_left (and_iff_left_of_imp h)
    simp only [if_pos hc, List.singleton_append, lineEnds_cons, hend]
  · have hend : ¬ (c = '\r' ∨ c = '\n') := by
      rintro (rfl | rfl)
      · exact hc (by decide)
      · exact hc (by decide)
    -- neither surrogate is as small as a line end
    have hfeed : lineFeed = 10 := rfl
    have hreturn : carriageReturn = 13 := rfl
    simp only [if_neg hc, if_neg hend, List.cons_append, List.nil_append]
    rw [lineEnds_cons_other (by omega) (by omega), lineEnds_cons_other (by omega) (by omega),
      map_add_add]

theorem startsAfter_eq (offset : Nat) (s : List Char) :
    LineMap.startsAfter offset s = (lineEnds (utf16 s)).map (offset + ·) := by
  have hhead : ∀ {c : Char} {rest : List Char}, (∀ tail, c = '\r' → rest = '\n' :: tail → False) →
      c = '\r' → rest.head? ≠ some '\n' := by
    intro c rest hpair hc hrest
    obtain ⟨tail, htail⟩ := List.head?_eq_some_iff.mp hrest
    exact hpair tail hc htail
  fun_induction LineMap.startsAfter offset s with
  | case1 => rfl
  | case2 offset rest ih =>
    have hunits : utf16 ('\r' :: '\n' :: rest) = carriageReturn :: lineFeed :: utf16 rest := rfl
    rw [ih, hunits, lineEnds_pair, List.map_cons, map_add_add]
  | case3 offset c rest hpair next hend ih =>
    rw [ih, lineEnds_utf16_cons (hhead hpair), if_pos hend, List.map_append, map_add_add]
    rfl
  | case4 offset c rest hpair next hend ih =>
    rw [ih, lineEnds_utf16_cons (hhead hpair), if_neg hend, List.nil_append, map_add_add]

namespace LineMap

theorem starts_ofText (text : String) :
    (ofText text).starts = 0 :: lineEnds (utf16 text.toList) := by
  show 0 :: startsAfter 0 text.toList = _
  simp [startsAfter_eq]

/-! ### Lines up to an offset -/

theorem length_takeWhile_le {starts : List Nat} (h : starts.Pairwise (· < ·)) (o : Nat) :
    (starts.takeWhile (· ≤ o)).length = starts.countP (· ≤ o) := by
  induction starts with
  | nil => rfl
  | cons first rest ih =>
    obtain ⟨hfirst, hrest⟩ := List.pairwise_cons.mp h
    by_cases hle : first ≤ o
    · simp [hle, ih hrest]
    · have hlater : rest.countP (· ≤ o) = 0 := by
        rw [List.countP_eq_zero]
        intro start hstart
        have := hfirst start hstart
        rw [decide_eq_true_eq]
        omega
      simp [hle, hlater]

/-- The lines up to the one of a position are those that start at its offset or before it. -/
theorem WellFormed.length_startsUpTo {map : LineMap} {p : Position} {o : Nat} (h : map.WellFormed)
    (hp : map.At p o) : (map.startsUpTo o).length = p.line.toNat + 1 := by
  obtain ⟨start, hstart, hsum, hnext⟩ := hp
  have hlen : (map.startsUpTo o).length ≤ map.starts.length := (List.takeWhile_prefix _).length_le
  have hline := (h.lt_length_startsUpTo_iff (o := o) hstart).mpr (by omega)
  have hafter : ¬ p.line.toNat + 1 < (map.startsUpTo o).length := by
    intro hlt
    have hget := List.getElem?_eq_getElem (show p.line.toNat + 1 < map.starts.length by omega)
    have := (h.lt_length_startsUpTo_iff hget).mp hlt
    have := hnext _ hget
    omega
  omega

/-- The lines of a text with these units: the first starts at 0, and one more after each line end,
as many as there are line feeds and carriage returns if a pair of both counts once; an offset is on
the line that has as many line ends before it. -/
structure HasLines (map : LineMap) (units : List Nat) : Prop where
  length : map.length = units.length
  ascending : map.starts.Pairwise (· < ·)
  starts : ∀ o, o ∈ map.starts ↔ o = 0 ∨ EndsLine units o
  lineCount : map.lineCount = 1 + (lineEnds units).length
  pairsOnce : (lineEnds units).length + (units.zip units.tail).count (carriageReturn, lineFeed) =
    units.count carriageReturn + units.count lineFeed
  line : ∀ o ≤ units.length, ∃ p, map.position? o = some p ∧
    p.line.toNat = (lineEnds units).countP (· ≤ o)

theorem hasLines_ofText (text : String) (hlen : (utf16 text.toList).length < UInt32.size) :
    (ofText text).HasLines (utf16 text.toList) := by
  have h := wellFormed_ofText text
  have hstarts := starts_ofText text
  have hlength : (ofText text).length = (utf16 text.toList).length := (length_utf16 _).symm
  refine ⟨hlength, h.ascending, ?_, ?_, length_lineEnds _, ?_⟩
  · intro o
    rw [hstarts, List.mem_cons, mem_lineEnds]
  · rw [LineMap.lineCount, hstarts, List.length_cons, Nat.add_comm]
  · intro o ho
    rw [← hlength] at hlen ho
    obtain ⟨p, hp, hat⟩ := h.exists_position?_of_le hlen ho
    refine ⟨p, hp, ?_⟩
    have hcount := h.length_startsUpTo hat
    rw [startsUpTo, length_takeWhile_le h.ascending, hstarts, List.countP_cons] at hcount
    simpa using hcount.symm

/-- Line ends side by side, a surrogate pair before the last one. -/
def adjacentLineEnds : String := "\r\r\n\n😀\r"

theorem hasLines_ofText_adjacent :
    (utf16 adjacentLineEnds.toList).length < UInt32.size ∧
    (ofText adjacentLineEnds).HasLines [0x0D, 0x0D, 0x0A, 0x0A, 0xD83D, 0xDE00, 0x0D] ∧
    lineEnds [0x0D, 0x0D, 0x0A, 0x0A, 0xD83D, 0xDE00, 0x0D] = [1, 3, 4, 7] := by
  have hunits : utf16 adjacentLineEnds.toList =
      [0x0D, 0x0D, 0x0A, 0x0A, 0xD83D, 0xDE00, 0x0D] := by decide
  have hlen : (utf16 adjacentLineEnds.toList).length < UInt32.size := by decide
  have hlines := hasLines_ofText adjacentLineEnds hlen
  rw [hunits] at hlines
  exact ⟨hlen, hlines, by decide⟩

end LineMap

end TokenInspector
