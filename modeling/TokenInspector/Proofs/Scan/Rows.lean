import TokenInspector.Scan.Report
import TokenInspector.Proofs.Source.Offsets
import TokenInspector.Proofs.Source.Units

/-!
# The rows of a report

A report has one row for each token, and the rows chain: each starts where the one before it ends,
in offsets and in lines and columns (`IsChain`). The ends of a selection lead back to the offsets of
its row. If the tokens end in order, the selections cover the text up to the last end, each unit
once. `rowsFrom` lists the rows in one pass, carrying the end of the token before.
-/

namespace TokenInspector

namespace Position

/-- The position with line and character counted from one. -/
def fromOne (p : Position) : Position := ⟨p.line + 1, p.character + 1⟩

/-- The position with line and character counted from zero. -/
def fromZero (p : Position) : Position := ⟨p.line - 1, p.character - 1⟩

theorem fromZero_fromOne (p : Position) : p.fromOne.fromZero = p := by
  simp [fromOne, fromZero]

/-- Neither count of the position is the largest, so both can be counted from one. -/
def CanShift (p : Position) : Prop :=
  p.line.toNat + 1 < UInt32.size ∧ p.character.toNat + 1 < UInt32.size

theorem CanShift.toNat_fromOne {p : Position} (h : p.CanShift) :
    p.fromOne.line.toNat = p.line.toNat + 1 ∧ p.fromOne.character.toNat = p.character.toNat + 1 := by
  obtain ⟨hline, hchar⟩ := h
  simp only [fromOne, UInt32.toNat_add, UInt32.toNat_one]
  exact ⟨Nat.mod_eq_of_lt hline, Nat.mod_eq_of_lt hchar⟩

theorem CanShift.fromOne_le {p q : Position} (hp : p.CanShift) (hq : q.CanShift) (h : p ≤ q) :
    p.fromOne ≤ q.fromOne := by
  have hp := hp.toNat_fromOne
  have hq := hq.toNat_fromOne
  rw [le_iff_toNat] at h ⊢
  omega

end Position

namespace Selection

/-- Where a selection starts, line and column from one. -/
def start (selection : Selection) : Position := ⟨selection.startLine, selection.startColumn⟩

/-- Where a selection ends, line and column from one. -/
def stop (selection : Selection) : Position := ⟨selection.endLine, selection.endColumn⟩

/-- No line and no column is zero. -/
def CountsFromOne (selection : Selection) : Prop :=
  0 < selection.startLine ∧ 0 < selection.startColumn ∧
    0 < selection.endLine ∧ 0 < selection.endColumn

/-- The units of a text from the start of a selection to its end. -/
def slice (selection : Selection) (source : String) : List Nat :=
  let first := (LineMap.ofText source).offset selection.start.fromZero
  let last := (LineMap.ofText source).offset selection.stop.fromZero
  ((utf16 source.toList).drop first).take (last - first)

end Selection

namespace LineMap

variable {map : LineMap} {p : Position} {o : Nat}

/-- The counts of a position are at most its offset. -/
theorem WellFormed.at_le (h : map.WellFormed) (hp : map.At p o) :
    p.line.toNat ≤ o ∧ p.character.toNat ≤ o := by
  obtain ⟨start, hstart, hsum, -⟩ := hp
  have := h.le_start hstart
  omega

/-- A position that is not past the end can be counted from one. -/
theorem WellFormed.canShift (h : map.WellFormed) (hsize : map.length + 2 ≤ UInt32.size)
    (hp : map.At p o) (ho : o ≤ map.length) : p.CanShift := by
  have := h.at_le hp
  unfold Position.CanShift
  omega

end LineMap

/-! ### Rows in one pass -/

/-- What a row says of its token. -/
def ReportRow.token (row : ReportRow) : NamedToken := ⟨row.kind, row.name, row.stop⟩

/-- The rows of tokens, the first of which starts at `start`; `place` gives the positions. -/
def rowsFrom (place : UInt32 → Position) (start : UInt32) : List NamedToken → List ReportRow
  | [] => []
  | token :: rest =>
    ⟨token.kind, token.name, start, token.stop, .ofPositions (place start) (place token.stop)⟩ ::
      rowsFrom place token.stop rest

section

variable {place : UInt32 → Position} {start : UInt32} {tokens : List NamedToken}

/-- The end of the last token; `start` if there is none. -/
def lastStop (start : UInt32) (tokens : List NamedToken) : UInt32 :=
  (tokens.getLast?.map (·.stop)).getD start

theorem lastStop_cons (token : NamedToken) :
    lastStop start (token :: tokens) = lastStop token.stop tokens := by
  cases tokens with
  | nil => rfl
  | cons next rest => simp [lastStop, List.getLast?_cons]

theorem getElem?_rowsFrom (i : Nat) : (rowsFrom place start tokens)[i]? =
    tokens[i]?.map fun token =>
      let before := lastStop start (tokens.take i)
      ⟨token.kind, token.name, before, token.stop,
        .ofPositions (place before) (place token.stop)⟩ := by
  induction tokens generalizing start i with
  | nil => rfl
  | cons token rest ih =>
    cases i with
    | zero => rfl
    | succ i =>
      rw [rowsFrom, List.getElem?_cons_succ, ih, List.getElem?_cons_succ, List.take_succ_cons,
        lastStop_cons]

theorem length_rowsFrom : (rowsFrom place start tokens).length = tokens.length := by
  induction tokens generalizing start with
  | nil => rfl
  | cons token rest ih => exact congrArg (· + 1) ih

theorem map_token_rowsFrom : (rowsFrom place start tokens).map (·.token) = tokens := by
  induction tokens generalizing start with
  | nil => rfl
  | cons token rest ih => exact congrArg (token :: ·) ih

theorem rowsFrom_forall {P : ReportRow → Prop}
    (h : ∀ kind name first last,
      P ⟨kind, name, first, last, .ofPositions (place first) (place last)⟩) :
    ∀ row ∈ rowsFrom place start tokens, P row := by
  induction tokens generalizing start with
  | nil => simp [rowsFrom]
  | cons token rest ih => exact List.forall_mem_cons.mpr ⟨h _ _ _ _, ih⟩

end

namespace ScanResults

variable {results : ScanResults} {map : LineMap} {place : UInt32 → Position}

theorem span?_eq {i : Nat} {token : NamedToken} (h : results.tokens.toList[i]? = some token) :
    results.span? i = some ⟨lastStop 0 (results.tokens.toList.take i), token.stop⟩ := by
  rw [Array.getElem?_toList] at h
  cases i with
  | zero => simp [span?, h, lastStop]
  | succ before =>
    obtain ⟨hlt, -⟩ := Array.getElem?_eq_some_iff.mp h
    have hbefore : results.tokens[before]? = some results.tokens[before] :=
      Array.getElem?_eq_getElem (by omega)
    have hlast : (results.tokens.toList.take (before + 1)).getLast? = results.tokens[before]? := by
      rw [List.getLast?_take, if_neg (Nat.succ_ne_zero before), Array.getElem?_toList,
        Nat.add_sub_cancel, hbefore, Option.some_or]
    simp [span?, h, hbefore, lastStop, hlast]

theorem row?_eq (hplace : ∀ o, map.position? o.toNat = some (place o)) (i : Nat) :
    results.row? map i = (rowsFrom place 0 results.tokens.toList)[i]? := by
  rw [getElem?_rowsFrom]
  cases h : results.tokens.toList[i]? with
  | none =>
    rw [Array.getElem?_toList] at h
    simp [row?, h]
  | some token =>
    have hspan := span?_eq h
    rw [Array.getElem?_toList] at h
    simp [row?, selection?, h, hspan, hplace]

theorem filterMap_range_getElem? {α : Type} (items : List α) :
    (List.range items.length).filterMap (fun i => items[i]?) = items := by
  induction items with
  | nil => rfl
  | cons item rest ih =>
    rw [List.length_cons, List.range_succ_eq_map, List.filterMap_cons, List.filterMap_map]
    exact congrArg (item :: ·) ih

/-- No row is left out. -/
theorem report_rows (source : String)
    (hplace : ∀ o, (LineMap.ofText source).position? o.toNat = some (place o)) :
    (results.report source).rows = rowsFrom place 0 results.tokens.toList := by
  have hlen : results.tokens.size = (rowsFrom place 0 results.tokens.toList).length := by
    rw [length_rowsFrom, Array.length_toList]
  calc (results.report source).rows
      = (List.range results.tokens.size).filterMap
          (results.row? (LineMap.ofText source)) := rfl
    _ = (List.range (rowsFrom place 0 results.tokens.toList).length).filterMap
          (fun i => (rowsFrom place 0 results.tokens.toList)[i]?) := by
        rw [hlen, funext (row?_eq hplace)]
    _ = rowsFrom place 0 results.tokens.toList := filterMap_range_getElem? _

end ScanResults

/-! ### Chained rows -/

/-- The first row starts at the start of the text, every other one where the row before it ends. -/
structure IsChain (rows : List ReportRow) : Prop where
  first : ∀ row, rows[0]? = some row → row.start = 0 ∧ row.selection.start = ⟨1, 1⟩
  next : ∀ i row after, rows[i]? = some row → rows[i + 1]? = some after →
    after.start = row.stop ∧ after.selection.start = row.selection.stop

section

variable {place : UInt32 → Position} {start : UInt32} {tokens : List NamedToken}

theorem rowsFrom_next {i : Nat} {row after : ReportRow}
    (hrow : (rowsFrom place start tokens)[i]? = some row)
    (hafter : (rowsFrom place start tokens)[i + 1]? = some after) :
    after.start = row.stop ∧ after.selection.start = row.selection.stop := by
  induction tokens generalizing start i with
  | nil => simp [rowsFrom] at hrow
  | cons token rest ih =>
    cases i with
    | zero =>
      cases rest with
      | nil => simp [rowsFrom] at hafter
      | cons next rest =>
        simp only [rowsFrom, List.getElem?_cons_zero, List.getElem?_cons_succ,
          Option.some.injEq] at hrow hafter
        subst hrow hafter
        exact ⟨rfl, rfl⟩
    | succ i => exact ih hrow hafter

theorem isChain_rowsFrom (h0 : place 0 = ⟨0, 0⟩) : IsChain (rowsFrom place 0 tokens) where
  first row hrow := by
    cases tokens with
    | nil => simp [rowsFrom] at hrow
    | cons token rest =>
      simp only [rowsFrom, List.getElem?_cons_zero, Option.some.injEq] at hrow
      subst hrow
      exact ⟨rfl, by simp [Selection.start, Selection.ofPositions, h0]⟩
  next _ _ _ := rowsFrom_next

end

/-! ### Selections in the text -/

/-- `place` gives the position of every offset in the map. -/
structure Places (map : LineMap) (place : UInt32 → Position) : Prop where
  found : ∀ o, map.position? o.toNat = some (place o)
  isAt : ∀ o, map.At (place o) (min o.toNat map.length)

theorem LineMap.WellFormed.exists_places {map : LineMap} (h : map.WellFormed)
    (hsize : map.length + 2 ≤ UInt32.size) : ∃ place, Places map place := by
  refine ⟨fun o => (map.position? o.toNat).getD ⟨0, 0⟩, ?_, ?_⟩
  · intro o
    obtain ⟨p, hp, -⟩ := h.exists_position? (by omega) o.toNat
    rw [hp]
    rfl
  · intro o
    obtain ⟨p, hp, hat⟩ := h.exists_position? (by omega) o.toNat
    rwa [hp]

section

variable {map : LineMap} {place : UInt32 → Position} {source : String} {a b start : UInt32}
  {tokens : List NamedToken}

theorem Places.zero (hp : Places map place) (h : map.WellFormed) : place 0 = ⟨0, 0⟩ := by
  have hat : map.At ⟨0, 0⟩ 0 := by
    refine ⟨0, h.first, rfl, ?_⟩
    intro next hnext
    exact h.start_lt h.first hnext Nat.zero_lt_one
  have hzero := hp.isAt 0
  rw [UInt32.toNat_zero, Nat.zero_min] at hzero
  exact h.at_unique hzero hat

theorem Places.canShift (hp : Places map place) (h : map.WellFormed)
    (hsize : map.length + 2 ≤ UInt32.size) (o : UInt32) : (place o).CanShift :=
  h.canShift hsize (hp.isAt o) (Nat.min_le_right _ _)

theorem Places.offset_eq (hp : Places map place) (o : UInt32) :
    map.offset (place o) = min o.toNat map.length :=
  (hp.isAt o).offset_eq (Nat.min_le_right _ _)

theorem Places.mono (hp : Places map place) (h : map.WellFormed) (hab : a ≤ b) :
    place a ≤ place b := by
  rw [UInt32.le_iff_toNat_le] at hab
  exact h.at_mono (hp.isAt a) (hp.isAt b) (by omega)

theorem start_ofPositions (p q : Position) : (Selection.ofPositions p q).start = p.fromOne := rfl

theorem stop_ofPositions (p q : Position) : (Selection.ofPositions p q).stop = q.fromOne := rfl

theorem countsFromOne_ofPositions {p q : Position} (hp : p.CanShift) (hq : q.CanShift) :
    (Selection.ofPositions p q).CountsFromOne := by
  have hp := hp.toNat_fromOne
  have hq := hq.toNat_fromOne
  simp only [Selection.CountsFromOne, UInt32.lt_iff_toNat_lt, UInt32.toNat_zero]
  change 0 < p.fromOne.line.toNat ∧ 0 < p.fromOne.character.toNat ∧
    0 < q.fromOne.line.toNat ∧ 0 < q.fromOne.character.toNat
  omega

/-- The units of a list from one place to a later one, in two parts. -/
theorem take_drop_split {α : Type} (units : List α) {i j k : Nat} (hij : i ≤ j) (hjk : j ≤ k) :
    (units.drop i).take (j - i) ++ (units.drop j).take (k - j) = (units.drop i).take (k - i) := by
  rw [show k - i = (j - i) + (k - j) by omega, List.take_add, List.drop_drop,
    show i + (j - i) = j by omega]

theorem le_lastStop (h : ∀ token ∈ tokens, start ≤ token.stop) : start ≤ lastStop start tokens := by
  unfold lastStop
  cases hlast : tokens.getLast? with
  | none => exact UInt32.le_refl _
  | some token => exact h token (List.mem_of_getLast? hlast)

/-- Tokens in order have rows that are not backwards. -/
theorem start_le_stop_rowsFrom (hstart : ∀ token ∈ tokens, start ≤ token.stop)
    (horder : tokens.Pairwise (·.stop ≤ ·.stop)) :
    ∀ row ∈ rowsFrom place start tokens, row.start ≤ row.stop := by
  induction tokens generalizing start with
  | nil => simp [rowsFrom]
  | cons token rest ih =>
    obtain ⟨hrest, horder⟩ := List.pairwise_cons.mp horder
    exact List.forall_mem_cons.mpr ⟨hstart token List.mem_cons_self, ih hrest horder⟩

/-- The selections of tokens in order cover the text from `start` to the last end. -/
theorem flatMap_slice (hp : Places (LineMap.ofText source) place)
    (hstart : ∀ token ∈ tokens, start ≤ token.stop)
    (horder : tokens.Pairwise (·.stop ≤ ·.stop)) :
    (rowsFrom place start tokens).flatMap (·.selection.slice source) =
      ((utf16 source.toList).drop (min start.toNat (LineMap.ofText source).length)).take
        (min (lastStop start tokens).toNat (LineMap.ofText source).length -
          min start.toNat (LineMap.ofText source).length) := by
  induction tokens generalizing start with
  | nil => simp [rowsFrom, lastStop]
  | cons token rest ih =>
    obtain ⟨hrest, horder⟩ := List.pairwise_cons.mp horder
    have hfirst := hstart token List.mem_cons_self
    have hlast := le_lastStop hrest
    rw [UInt32.le_iff_toNat_le] at hfirst hlast
    rw [rowsFrom, List.flatMap_cons, ih hrest horder, Selection.slice, start_ofPositions,
      stop_ofPositions, Position.fromZero_fromOne, Position.fromZero_fromOne, hp.offset_eq,
      hp.offset_eq, lastStop_cons]
    exact take_drop_split _ (by omega) (by omega)

end

/-- A report has the tokens as its rows in order, the rows chain, and both ends of a selection lead
back to the offsets of its row. If the tokens end in order, no selection is backwards and together
the selections are the units of the text up to the last end. -/
theorem report_covers (results : ScanResults) (source : String)
    (hsize : textUnits source.toList + 2 ≤ UInt32.size) :
    (results.report source).rows.map (·.token) = results.tokens.toList ∧
    IsChain (results.report source).rows ∧
    (∀ row ∈ (results.report source).rows,
      row.selection.CountsFromOne ∧
      (LineMap.ofText source).offset row.selection.start.fromZero =
        min row.start.toNat (utf16 source.toList).length ∧
      (LineMap.ofText source).offset row.selection.stop.fromZero =
        min row.stop.toNat (utf16 source.toList).length) ∧
    (results.tokens.toList.Pairwise (·.stop ≤ ·.stop) →
      (∀ row ∈ (results.report source).rows, row.selection.start ≤ row.selection.stop) ∧
      (results.report source).rows.flatMap (·.selection.slice source) =
        (utf16 source.toList).take
          (min (lastStop 0 results.tokens.toList).toNat (utf16 source.toList).length)) := by
  have h := LineMap.wellFormed_ofText source
  have hlength : (utf16 source.toList).length = (LineMap.ofText source).length :=
    length_utf16 _
  obtain ⟨place, hp⟩ := h.exists_places hsize
  rw [ScanResults.report_rows source hp.found, hlength]
  refine ⟨?_, ?_, ?_, ?_⟩
  · exact map_token_rowsFrom
  · exact isChain_rowsFrom (hp.zero h)
  · refine rowsFrom_forall fun _ _ first last => ?_
    refine ⟨countsFromOne_ofPositions (hp.canShift h hsize first) (hp.canShift h hsize last), ?_, ?_⟩
    · rw [start_ofPositions, Position.fromZero_fromOne, hp.offset_eq]
    · rw [stop_ofPositions, Position.fromZero_fromOne, hp.offset_eq]
  · intro horder
    have hstart : ∀ token ∈ results.tokens.toList, 0 ≤ token.stop := fun _ _ => UInt32.zero_le
    refine ⟨?_, ?_⟩
    · intro row hrow
      have hselection : row.selection = .ofPositions (place row.start) (place row.stop) :=
        rowsFrom_forall (P := fun row => row.selection = .ofPositions (place row.start)
          (place row.stop)) (fun _ _ _ _ => rfl) row hrow
      rw [hselection]
      exact (hp.canShift h hsize _).fromOne_le (hp.canShift h hsize _)
        (hp.mono h (start_le_stop_rowsFrom hstart horder row hrow))
    · rw [flatMap_slice hp hstart horder, UInt32.toNat_zero, Nat.zero_min, List.drop_zero,
        Nat.sub_zero]

/-- Tokens that end inside a line end, inside a surrogate pair, and past the end. -/
def unevenTokens : ScanResults :=
  ⟨#[⟨80, "Identifier", 2⟩, ⟨80, "Identifier", 4⟩, ⟨1, "EndOfFileToken", 20⟩], #[]⟩

theorem report_covers_uneven :
    textUnits LineMap.mixedLineEnds.toList + 2 ≤ UInt32.size ∧
    unevenTokens.tokens.toList.Pairwise (·.stop ≤ ·.stop) ∧
    (unevenTokens.report LineMap.mixedLineEnds).rows.length = 3 ∧
    (unevenTokens.report LineMap.mixedLineEnds).rows.flatMap
        (·.selection.slice LineMap.mixedLineEnds) = utf16 LineMap.mixedLineEnds.toList := by
  have hsize : textUnits LineMap.mixedLineEnds.toList + 2 ≤ UInt32.size := by decide
  have horder : unevenTokens.tokens.toList.Pairwise (·.stop ≤ ·.stop) := by decide
  obtain ⟨hrows, -, -, hcover⟩ := report_covers unevenTokens LineMap.mixedLineEnds hsize
  refine ⟨hsize, horder, ?_, ?_⟩
  · have hlen := congrArg List.length hrows
    rwa [List.length_map] at hlen
  · rw [(hcover horder).2]
    decide

end TokenInspector
