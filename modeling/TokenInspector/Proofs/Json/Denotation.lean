import TokenInspector.Proofs.Json.Scanning

/-!
# Reading what a tree stands for

A tree that stands for a value is read as that value if the value is `Readable`: its integers have
64 bits and it is not nested too deep. Strings of any characters are read, whatever way they are
written. A text of a value is `HasText`; `Json.ofText` reads it (`HasText.ofText_eq`).
-/

namespace TokenInspector

/-! ### Strings -/

/-- No character is half of a surrogate pair, and none is past U+10FFFF. -/
theorem char_range (c : Char) : c.toNat < 0xD800 ∨ 0xDFFF < c.toNat ∧ c.toNat < 0x110000 := c.valid

namespace RawText

variable {pieces : List TextPiece} {s : List Char} {c : Char}

theorem decodePieces_unit {u : Nat} (hlead : isLeading u = false) (htrail : isTrailing u = false)
    (h : decodePieces pieces none = .ok s) :
    decodePieces (.unit u :: pieces) none = .ok (Char.ofNat u :: s) := by
  cases pieces with
  | nil =>
    cases h
    simp only [decodePieces, hlead, htrail, Bool.false_eq_true, if_false]
    rfl
  | cons piece pieces =>
    cases piece with
    | char c =>
      simp only [decodePieces, hlead, htrail, Bool.or_self, Bool.false_eq_true, if_false] at h ⊢
      rw [h]
      rfl
    | unit v =>
      simp only [decodePieces, hlead, htrail, Bool.false_eq_true, if_false]
      rw [h]
      rfl

theorem decodePieces_pair {u v : Nat} (hlead : isLeading u = true) (htrail : isTrailing v = true)
    (h : decodePieces pieces none = .ok s) :
    decodePieces (.unit u :: .unit v :: pieces) none = .ok (pair u v :: s) := by
  have hu : isTrailing u = false := by
    simp only [isLeading, isTrailing, Bool.and_eq_true, decide_eq_true_eq, Bool.and_eq_false_iff,
      decide_eq_false_iff_not] at hlead ⊢
    omega
  simp only [decodePieces, hlead, htrail, hu, Bool.false_eq_true, if_false, if_true]
  rw [h]
  rfl

/-- The units of a character are decoded to it. -/
theorem decodePieces_utf16Char (c : Char) (h : decodePieces pieces none = .ok s) :
    decodePieces ((utf16Char c).map .unit ++ pieces) none = .ok (c :: s) := by
  have hrange := char_range c
  unfold utf16Char
  split
  · have hlead : isLeading c.toNat = false := by
      simp only [isLeading, Bool.and_eq_false_iff, decide_eq_false_iff_not]
      omega
    have htrail : isTrailing c.toNat = false := by
      simp only [isTrailing, Bool.and_eq_false_iff, decide_eq_false_iff_not]
      omega
    have hdecode := decodePieces_unit hlead htrail h
    rwa [Char.ofNat_toNat] at hdecode
  · have hlead : isLeading (0xD800 + (c.toNat - 0x10000) / 0x400) = true := by
      simp only [isLeading, Bool.and_eq_true, decide_eq_true_eq]
      omega
    have htrail : isTrailing (0xDC00 + (c.toNat - 0x10000) % 0x400) = true := by
      simp only [isTrailing, Bool.and_eq_true, decide_eq_true_eq]
      omega
    have hpair : pair (0xD800 + (c.toNat - 0x10000) / 0x400)
        (0xDC00 + (c.toNat - 0x10000) % 0x400) = c := by
      have hsum : (0xD800 + (c.toNat - 0x10000) / 0x400 - 0xD800) * 0x400 +
          (0xDC00 + (c.toNat - 0x10000) % 0x400 - 0xDC00) + 0x10000 = c.toNat := by omega
      rw [pair, hsum, Char.ofNat_toNat]
    have hdecode := decodePieces_pair hlead htrail h
    rwa [hpair] at hdecode

theorem DenotesPieces.decode_eq (h : DenotesPieces pieces s) : decodePieces pieces none = .ok s := by
  induction h with
  | nil => rfl
  | char _ ih =>
    simp only [decodePieces, ih]
    rfl
  | @units c _ _ _ ih => exact decodePieces_utf16Char c ih

theorem Denotes.decode_eq {t : RawText} {text : String} (h : t.Denotes text) :
    t.decode = .ok text := by
  rw [decode, h.flaw, h.pieces.decode_eq]
  exact congrArg Except.ok String.ofList_toList

end RawText

/-! ### Numbers -/

namespace Numeral

theorem le_foldl_digits {base : Nat} (hbase : 0 < base) (digits : List Nat) (start : Nat) :
    start ≤ digits.foldl (fun n digit => n * base + digit) start := by
  induction digits generalizing start with
  | nil => exact Nat.le_refl _
  | cons digit rest ih =>
    have := Nat.le_mul_of_pos_right start hbase
    exact Nat.le_trans (by omega) (ih (start * base + digit))

/-- All digits go into the significand if the number fits. -/
theorem accumulate_eq (digits : List Nat) (start : Nat)
    (h : digits.foldl (fun n digit => n * 10 + digit) start ≤ maxSignificand) :
    accumulate start digits = (digits.foldl (fun n digit => n * 10 + digit) start, []) := by
  induction digits generalizing start with
  | nil => rfl
  | cons digit rest ih =>
    rw [List.foldl_cons] at h
    have hstep : start * 10 + digit ≤ maxSignificand :=
      Nat.le_trans (le_foldl_digits (by decide) rest _) h
    rw [accumulate, if_pos hstep, ih _ h, List.foldl_cons]

/-- An integer of 64 bits, signed or unsigned. -/
def IsWord (n : Int) : Prop := Int64.minValue.toInt ≤ n ∧ n < UInt64.size

theorem Denotes.read_eq {numeral : Numeral} {n : Int} (h : numeral.Denotes n) (hn : IsWord n) :
    numeral.read = .ok (.integer n) := by
  obtain ⟨negative, whole, fraction, exponent⟩ := numeral
  obtain ⟨hf, he, hvalue, hzero⟩ := h
  obtain ⟨hmin, hmax⟩ := hn
  dsimp only at hf he hvalue hzero
  subst hf he
  have hminValue : Int64.minValue.toInt = -2 ^ 63 := by decide
  have hsize : UInt64.size = 2 ^ 64 := rfl
  have hmagnitude : ofDigits whole = n.natAbs := by
    rw [← hvalue, Double.signed]
    split <;> omega
  have hfit : ofDigits whole ≤ maxSignificand := by
    rw [hmagnitude, maxSignificand]
    omega
  have hread : ofInteger negative n.natAbs = .integer n := by
    rw [hmagnitude, Double.signed] at hvalue
    cases negative with
    | true =>
      rw [if_pos rfl] at hvalue
      have := hzero rfl
      rw [ofInteger, if_pos rfl, if_pos (by omega), hvalue]
    | false =>
      rw [if_neg Bool.false_ne_true] at hvalue
      rw [ofInteger, if_neg Bool.false_ne_true, hvalue]
  rw [read, number?, accumulate_eq whole 0 hfit]
  exact congrArg Except.ok ((congrArg (ofInteger negative) hmagnitude).trans hread)

end Numeral

/-! ### Values -/

namespace Json

mutual

/-- A value as it is read, its numbers read as integers. -/
def asRead : Json Int → Json Number
  | null => null
  | bool b => bool b
  | number n => number (.integer n)
  | text s => text s
  | array items => array (asReadItems items)
  | object entries => object (asReadEntries entries)

def asReadItems : List (Json Int) → List (Json Number)
  | [] => []
  | item :: rest => asRead item :: asReadItems rest

def asReadEntries : List (String × Json Int) → List (String × Json Number)
  | [] => []
  | (key, item) :: rest => (key, asRead item) :: asReadEntries rest

end

theorem asReadItems_eq (items : List (Json Int)) : asReadItems items = items.map asRead := by
  induction items with
  | nil => rfl
  | cons item rest ih => rw [asReadItems, ih, List.map_cons]

theorem asReadEntries_eq (entries : List (String × Json Int)) :
    asReadEntries entries = entries.map fun (key, item) => (key, asRead item) := by
  induction entries with
  | nil => rfl
  | cons entry rest ih => rw [asReadEntries, ih, List.map_cons]

mutual

/-- All numbers have 64 bits, and arrays and objects nest in at most `depth` levels. -/
def Readable (depth : Nat) : Json Int → Prop
  | null | bool _ | text _ => True
  | number n => Numeral.IsWord n
  | array items =>
    match depth with
    | 0 => False
    | depth + 1 => ReadableItems depth items
  | object entries =>
    match depth with
    | 0 => False
    | depth + 1 => ReadableEntries depth entries

def ReadableItems (depth : Nat) : List (Json Int) → Prop
  | [] => True
  | item :: rest => Readable depth item ∧ ReadableItems depth rest

def ReadableEntries (depth : Nat) : List (String × Json Int) → Prop
  | [] => True
  | (_, item) :: rest => Readable depth item ∧ ReadableEntries depth rest

end

theorem readable_array {depth : Nat} {items : List (Json Int)} :
    (array items).Readable (depth + 1) ↔ ∀ item ∈ items, item.Readable depth := by
  rw [Readable]
  induction items with
  | nil => simp [ReadableItems]
  | cons item rest ih => rw [ReadableItems, ih, List.forall_mem_cons]

theorem readable_object {depth : Nat} {entries : List (String × Json Int)} :
    (object entries).Readable (depth + 1) ↔ ∀ entry ∈ entries, entry.2.Readable depth := by
  rw [Readable]
  induction entries with
  | nil => simp [ReadableEntries]
  | cons entry rest ih => rw [ReadableEntries, ih, List.forall_mem_cons]

end Json

namespace RawValue

mutual

/-- A tree that stands for a readable value is read as that value. -/
theorem Denotes.value_eq {raw : RawValue} {json : Json Int} (h : raw.Denotes json) {depth : Nat}
    (hread : json.Readable depth) : raw.value depth = .ok json.asRead := by
  cases h with
  | null => rfl
  | bool b => rfl
  | number hn =>
    rw [value, hn.read_eq hread]
    rfl
  | text ht =>
    rw [value, ht.decode_eq]
    rfl
  | array hitems =>
    cases depth with
    | zero => exact hread.elim
    | succ depth =>
      rw [value, hitems.values_eq hread]
      rfl
  | object hentries =>
    cases depth with
    | zero => exact hread.elim
    | succ depth =>
      rw [value, hentries.entryValues_eq hread]
      rfl

theorem DenotesItems.values_eq {raws : List RawValue} {items : List (Json Int)}
    (h : DenotesItems raws items) {depth : Nat} (hread : Json.ReadableItems depth items) :
    values depth raws = .ok (Json.asReadItems items) := by
  cases h with
  | nil => rfl
  | cons hitem hitems =>
    rw [values, hitem.value_eq hread.1, hitems.values_eq hread.2]
    rfl

theorem DenotesEntries.entryValues_eq {raws : List (RawText × RawValue)}
    {entries : List (String × Json Int)} (h : DenotesEntries raws entries) {depth : Nat}
    (hread : Json.ReadableEntries depth entries) :
    entryValues depth raws = .ok (Json.asReadEntries entries) := by
  cases h with
  | nil => rfl
  | cons hkey hitem hentries =>
    rw [entryValues, hkey.decode_eq, hitem.value_eq hread.1, hentries.entryValues_eq hread.2]
    rfl

end

end RawValue

/-! ### Texts of values -/

namespace Json

theorem HasText.ofText_eq {json : Json Int} {text : String} (h : json.HasText text)
    (hread : json.Readable RawValue.maxDepth) : Json.ofText text = .ok json.asRead := by
  obtain ⟨raw, htree, hdenotes⟩ := h
  rw [ofText, Document.read_ofText htree, hdenotes.value_eq hread]

end Json

end TokenInspector
