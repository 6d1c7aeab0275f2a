/-!
# Lines and words

A text is read back line by line, and a line word by word. Lines that are written one after another,
each with a line feed behind it, are the lines of the text if none of them holds a line feed
(`linesOf_unlines`). Words are what stands between blanks, however many.
-/

namespace TokenInspector

/-! ### Lines -/

/-- The lines of a text: what stands before each line feed, and what is left after the last one. -/
def linesOf (text : String) : List String :=
  let parts := text.toList.splitOn '\n'
  (if parts.getLast? = some [] then parts.dropLast else parts).map String.ofList

/-- The text of lines, each with a line feed behind it. -/
def unlines (lines : List String) : String :=
  String.ofList (lines.flatMap fun line => line.toList ++ ['\n'])

theorem splitOn_unlines {lines : List String} (h : ∀ line ∈ lines, '\n' ∉ line.toList) :
    (unlines lines).toList.splitOn '\n' = lines.map String.toList ++ [[]] := by
  rw [unlines, String.toList_ofList]
  induction lines with
  | nil => exact List.splitOn_nil '\n'
  | cons line rest ih =>
    obtain ⟨hline, hrest⟩ := List.forall_mem_cons.mp h
    rw [List.flatMap_cons, List.append_assoc, List.singleton_append,
      List.splitOn_append_cons_self_of_not_mem hline, ih hrest]
    rfl

/-- Lines without line feeds are read back. -/
theorem linesOf_unlines {lines : List String} (h : ∀ line ∈ lines, '\n' ∉ line.toList) :
    linesOf (unlines lines) = lines := by
  simp [linesOf, splitOn_unlines h, Function.comp_def]

/-! ### Words -/

/-- The words between the blanks. -/
def wordsIn (s : List Char) : List (List Char) := (s.splitOn ' ').filter (· ≠ [])

/-- The words of a line. -/
def fieldsOf (line : String) : List String := (wordsIn line.toList).map String.ofList

/-- A word has characters, and all of them come after the blank. -/
structure IsWord (w : List Char) : Prop where
  ne_nil : w ≠ []
  visible : ∀ c ∈ w, ' ' < c

variable {v w s : List Char}

theorem wordsIn_blank (s : List Char) : wordsIn (' ' :: s) = wordsIn s := by
  have hsplit := List.splitOn_append_cons_self_of_not_mem (List.not_mem_nil (a := ' ')) s
  rw [List.nil_append] at hsplit
  rw [wordsIn, hsplit, List.filter_cons_of_neg (by simp), wordsIn]

theorem wordsIn_blanks (n : Nat) (s : List Char) :
    wordsIn (List.replicate n ' ' ++ s) = wordsIn s := by
  induction n with
  | zero => rfl
  | succ n ih => rw [List.replicate_succ, List.cons_append, wordsIn_blank, ih]

theorem isWord_iff : IsWord w ↔ w ≠ [] ∧ w.all (' ' < ·) = true := by
  rw [List.all_eq_true]
  constructor
  · rintro ⟨hne, hvisible⟩
    exact ⟨hne, fun c hc => decide_eq_true (hvisible c hc)⟩
  · rintro ⟨hne, hall⟩
    exact ⟨hne, fun c hc => of_decide_eq_true (hall c hc)⟩

instance : Decidable (IsWord w) := decidable_of_iff _ isWord_iff.symm

namespace IsWord

theorem not_mem {c : Char} (h : IsWord w) (hc : c ≤ ' ') : c ∉ w :=
  fun hmem => absurd (h.visible c hmem) (Char.not_lt.mpr hc)

theorem append (hv : IsWord v) (hw : IsWord w) : IsWord (v ++ w) where
  ne_nil := List.append_ne_nil_of_left_ne_nil hv.ne_nil w
  visible := List.forall_mem_append.mpr ⟨hv.visible, hw.visible⟩

theorem wordsIn_eq (h : IsWord w) : wordsIn w = [w] := by
  rw [wordsIn, List.splitOn_eq_singleton (h.not_mem (by decide))]
  simp [h.ne_nil]

theorem wordsIn_append (h : IsWord w) (s : List Char) :
    wordsIn (w ++ ' ' :: s) = w :: wordsIn s := by
  rw [wordsIn, List.splitOn_append_cons_self_of_not_mem (h.not_mem (by decide)),
    List.filter_cons_of_pos (by simp [h.ne_nil]), wordsIn]

/-- However many blanks follow a word, one of them ends it. -/
theorem wordsIn_append_blanks (h : IsWord w) (n : Nat) (s : List Char) :
    wordsIn (w ++ (List.replicate n ' ' ++ ' ' :: s)) = w :: wordsIn s := by
  rw [List.append_cons, ← List.replicate_succ', List.replicate_succ, List.cons_append,
    h.wordsIn_append, wordsIn_blanks]

end IsWord

end TokenInspector
