import TokenInspector.Proofs.Enumeration.DoubleValues

/-!
# Integer literals as values of members

An entry whose value is written as an integer, without fraction and exponent, is read in one of
three ways: as a signed or unsigned integer of 64 bits, as the nearest double, or, if not all
digits fit 64 bits, as digits and a power of ten, which are rounded too. Only integers of 64 bits
should become members. An integer above the range never does, since rounding does not lead below
`2^63`. Below the range rounding reaches `-2^63` from as far as `-2^63 - 1024`, a tie, and these
literals become members of that value (`isMember_iff_of_isInteger`); all others are told rightly.
-/

namespace TokenInspector

/-! ### Reading the literal -/

namespace Numeral

variable {numeral : Numeral} {number : Number} {n : ℤ} {digits : List Nat} {start : Nat}

/-- The numeral is written as an integer, of the exact value `n`; minus zero has the value zero. -/
structure IsInteger (numeral : Numeral) (n : ℤ) : Prop where
  fraction : numeral.fraction = none
  exponent : numeral.exponent = none
  value : Double.signed numeral.negative (ofDigits numeral.whole) = n

theorem Spells.digit_lt {s : List Char} (h : numeral.Spells s) :
    ∀ digit ∈ numeral.whole, digit < 10 := by
  obtain ⟨_, hwhole, -, -, -⟩ := h
  rw [hwhole.digits_eq]
  intro digit hdigit
  obtain ⟨c, hc, rfl⟩ := List.mem_map.mp hdigit
  have hrange := hwhole.isDigit c hc
  simp only [Char.isDigit, Bool.and_eq_true, decide_eq_true_eq, UInt32.le_iff_toNat_le] at hrange
  show c.val.toNat - 48 < 10
  exact Nat.lt_succ_of_le (Nat.sub_le_sub_right hrange.2 48)

/-- If the digits do not fit, some are left over, and one digit more would pass the limit. -/
theorem accumulate_of_lt (hdigits : ∀ digit ∈ digits, digit < 10) (hstart : start ≤ maxSignificand)
    (h : maxSignificand < digits.foldl (fun n digit => n * 10 + digit) start) :
    maxSignificand < (accumulate start digits).1 * 10 + 10 ∧
      (accumulate start digits).2 ≠ [] := by
  induction digits generalizing start with
  | nil => exact absurd hstart (Nat.not_le.mpr h)
  | cons digit rest ih =>
    obtain ⟨hdigit, hrest⟩ := List.forall_mem_cons.mp hdigits
    rw [accumulate]
    split
    · rename_i hfits
      exact ih hrest hfits h
    · exact ⟨by dsimp only; omega, List.cons_ne_nil _ _⟩

theorem read_eq_ok : numeral.read = .ok number ↔ numeral.number? = some number := by
  rw [read]
  cases numeral.number? <;> simp

/-- A literal whose digits fit 64 bits is always read. -/
theorem IsInteger.read_eq (h : numeral.IsInteger n)
    (hfits : ofDigits numeral.whole ≤ maxSignificand) :
    numeral.read = .ok (ofInteger numeral.negative (ofDigits numeral.whole)) := by
  obtain ⟨negative, whole, fraction, exponent⟩ := numeral
  obtain ⟨rfl, rfl, -⟩ := h
  rw [read_eq_ok, number?, accumulate_eq whole 0 hfits]
  rfl

/-- Digits that do not fit count as places. -/
theorem number?_of_dropped {negative : Bool} {whole rest : List Nat} {significand digit : Nat}
    (h : accumulate 0 whole = (significand, digit :: rest)) :
    number? ⟨negative, whole, none, none⟩ =
      (Double.scaleUp? (Double.nearestTo significand) (rest.length + 1)).map
        fun units => .double (.finite negative units) := by
  have hplaces : ((digit :: rest).length : ℤ) - (0 - 0) + 0 = (rest.length + 1 : Nat) := by simp
  rw [number?, h]
  show (Double.ofDecimal? negative significand (((digit :: rest).length : ℤ) - (0 - 0) + 0)).map
    Number.double = _
  rw [hplaces, Double.ofDecimal?, if_neg (by omega), Option.map_map]
  rfl

/-- A longer literal is read as a double past the range of 64 bits. -/
theorem IsInteger.read_of_lt (h : numeral.IsInteger n)
    (hdigits : ∀ digit ∈ numeral.whole, digit < 10)
    (hlong : maxSignificand < ofDigits numeral.whole) (hread : numeral.read = .ok number) :
    ∃ units, number = .double (.finite numeral.negative units) ∧
      5 * 2 ^ 61 * Double.one ≤ units := by
  obtain ⟨negative, whole, fraction, exponent⟩ := numeral
  obtain ⟨rfl, rfl, -⟩ := h
  obtain ⟨hlimit, hdropped⟩ := accumulate_of_lt hdigits (Nat.zero_le _) hlong
  cases haccumulate : accumulate 0 whole with
  | mk significand dropped =>
    rw [haccumulate] at hlimit hdropped
    cases dropped with
    | nil => exact absurd rfl hdropped
    | cons digit rest =>
      rw [read_eq_ok, number?_of_dropped haccumulate] at hread
      obtain ⟨units, hunits, rfl⟩ := Option.map_eq_some_iff.mp hread
      have hlarge : 2 ^ 60 ≤ significand := by
        change 2 ^ 64 - 1 < significand * 10 + 10 at hlimit
        omega
      exact ⟨units, rfl, Double.ten_mul_two_pow_le_scaleUp? (Double.two_pow_le_nearestTo hlarge)
        (Nat.succ_pos _) hunits⟩

end Numeral

/-! ### The value of a member -/

namespace Double

theorem integer?_mul_one (negative : Bool) (n : Nat) :
    (finite negative (n * one)).integer? = some (signed negative n) := by
  rw [integer?, Nat.mul_mod_left, if_pos rfl, Nat.mul_div_cancel n one_pos]

/-- From `2^63` to `2^64` doubles stand 2048 apart, so only the integers up to `2^63 + 1024`, which
is a tie, are rounded to `2^63`. -/
theorem exists_nearestTo {n : Nat} (hlow : 2 ^ 63 ≤ n) (hhigh : n < 2 ^ 64) :
    ∃ r, nearestTo n = r * one ∧ 2 ^ 63 ≤ r ∧ (r = 2 ^ 63 ↔ n ≤ 2 ^ 63 + 1024) := by
  have hlog : n.log2 = 63 := (Nat.log2_eq_iff (by omega)).mpr ⟨hlow, hhigh⟩
  refine ⟨_, nearestTo_eq (by omega), ?_⟩
  rw [hlog]
  show 2 ^ 63 ≤ roundHalfEven n 2048 * 2048 ∧ (roundHalfEven n 2048 * 2048 = 2 ^ 63 ↔ _)
  unfold roundHalfEven
  dsimp only
  split
  · omega
  · split <;> omega

end Double

namespace Number

theorem memberValue?_of_large {negative : Bool} {units : Nat} (h : 2 ^ 63 * Double.one < units) :
    (double (.finite negative units)).memberValue? = none := by
  rw [memberValue?, Option.bind_eq_none_iff]
  intro m hm
  have habs : units = m.natAbs * Double.one := by
    have hsigned := congrArg Int.natAbs (Double.signed_of_integer? hm)
    cases negative <;> simpa [Double.signed, Int.natAbs_mul] using hsigned
  have hm : 2 ^ 63 < m.natAbs := by
    rw [habs] at h
    exact Nat.lt_of_mul_lt_mul_right h
  have hmin : Int64.minValue.toInt = -2 ^ 63 := by decide
  have hmax : Int64.maxValue.toInt = 2 ^ 63 - 1 := by decide
  rw [int64?, if_neg (by omega)]

end Number

namespace Numeral

variable {numeral : Numeral} {number : Number} {n : ℤ} {value : Int64}

/-- An integer is the value of a member from a little below the range of 64 bits to its end. -/
theorem memberValue?_ofInteger {negative : Bool} {m : Nat} (hm : m ≤ maxSignificand)
    (hn : Double.signed negative m = n) : (ofInteger negative m).memberValue? = some value ↔
      (-2 ^ 63 - 1024 ≤ n ∧ n < 2 ^ 63) ∧ value.toInt = max n (-2 ^ 63) := by
  have hlow := value.le_toInt
  have hhigh := value.toInt_lt
  change m ≤ 2 ^ 64 - 1 at hm
  cases negative with
  | false =>
    change (m : ℤ) = n at hn
    show int64? m = some value ↔ _
    rw [int64?_eq_some]
    omega
  | true =>
    change -(m : ℤ) = n at hn
    have hmin : Int64.minValue.toInt.natAbs = 2 ^ 63 := by decide
    rw [ofInteger, if_pos rfl, hmin]
    split
    · show int64? (-m) = some value ↔ _
      rw [int64?_eq_some]
      omega
    · -- minus zero, or a double of 2^63 or more
      obtain ⟨r, hr, hrange⟩ : ∃ r, Double.nearestTo m = r * Double.one ∧
          (m = 0 ∧ r = 0 ∨ 2 ^ 63 < m ∧ 2 ^ 63 ≤ r ∧ (r = 2 ^ 63 ↔ m ≤ 2 ^ 63 + 1024)) := by
        by_cases hzero : m = 0
        · subst hzero
          exact ⟨0, by rw [Double.nearestTo, Nat.zero_mul]; rfl, .inl ⟨rfl, rfl⟩⟩
        · have hpast : 2 ^ 63 < m := by omega
          obtain ⟨r, hr, hbounds⟩ := Double.exists_nearestTo hpast.le (by omega)
          exact ⟨r, hr, .inr ⟨hpast, hbounds⟩⟩
      rw [Number.memberValue?, hr, Double.integer?_mul_one]
      show int64? (-r) = some value ↔ _
      rw [int64?_eq_some]
      omega

theorem IsInteger.memberValue?_eq_some (h : numeral.IsInteger n)
    (hdigits : ∀ digit ∈ numeral.whole, digit < 10) (hread : numeral.read = .ok number) :
    number.memberValue? = some value ↔
      (-2 ^ 63 - 1024 ≤ n ∧ n < 2 ^ 63) ∧ value.toInt = max n (-2 ^ 63) := by
  by_cases hfits : ofDigits numeral.whole ≤ maxSignificand
  · rw [h.read_eq hfits] at hread
    obtain rfl := Except.ok.inj hread
    exact memberValue?_ofInteger hfits h.value
  · obtain ⟨units, rfl, hunits⟩ := h.read_of_lt hdigits (Nat.lt_of_not_le hfits) hread
    have hlarge : 2 ^ 63 * Double.one < units :=
      Nat.lt_of_lt_of_le (Nat.mul_lt_mul_of_pos_right (by decide) Double.one_pos) hunits
    have hfar : 2 ^ 64 ≤ n.natAbs := by
      change ¬ ofDigits numeral.whole ≤ 2 ^ 64 - 1 at hfits
      rw [← h.value, Double.signed]
      split <;> omega
    rw [Number.memberValue?_of_large hlarge]
    simp only [reduceCtorEq, false_iff]
    omega

end Numeral

/-! ### Through the text -/

namespace RawValue

variable {raws : List (RawText × RawValue)} {entries : List (String × Json Number)} {name : String}
  {raw : RawValue} {depth : Nat}

/-- The entries of an object under the names that their keys stand for. -/
def namedEntries (raws : List (RawText × RawValue)) : List (String × RawValue) :=
  raws.filterMap fun entry => entry.1.decode.toOption.map (·, entry.2)

theorem mem_of_mem_namedEntries (h : (name, raw) ∈ namedEntries raws) :
    ∃ key, (key, raw) ∈ raws := by
  obtain ⟨⟨key, raw⟩, hmem, hnamed⟩ := List.mem_filterMap.mp h
  obtain ⟨_, -, hnamed⟩ := Option.map_eq_some_iff.mp hnamed
  cases hnamed
  exact ⟨key, hmem⟩

/-- Entries that are read keep their names. -/
theorem namedEntries_of_entryValues (h : entryValues depth raws = .ok entries) :
    List.Forall₂ (fun named entry => named.1 = entry.1 ∧ named.2.value depth = .ok entry.2)
      (namedEntries raws) entries := by
  rw [entryValues_eq_ok] at h
  induction h with
  | nil => exact .nil
  | @cons raw entry _ _ hraw _ ih =>
    obtain ⟨hkey, hvalue⟩ := hraw
    rw [namedEntries, List.filterMap_cons, hkey]
    exact .cons ⟨rfl, hvalue⟩ ih

/-- The last entry under a name is read as the last entry under that name. -/
theorem exists_lastValue? (h : entryValues depth raws = .ok entries)
    (hlast : Json.lastValue? (namedEntries raws) name = some raw) :
    ∃ json, raw.value depth = .ok json ∧ Json.lastValue? entries name = some json := by
  have hread := List.forall₂_reverse_iff.mpr (namedEntries_of_entryValues h)
  unfold Json.lastValue? at hlast ⊢
  generalize (namedEntries raws).reverse = named, entries.reverse = read at hread hlast ⊢
  induction hread with
  | nil => cases hlast
  | @cons first entry _ _ hfirst _ ih =>
    obtain ⟨first, item⟩ := first
    obtain ⟨rfl, hvalue⟩ := hfirst
    rw [Json.lookup_cons_eq] at hlast ⊢
    split at hlast
    · rename_i hname
      cases hlast
      exact ⟨_, hvalue, if_pos hname⟩
    · rename_i hname
      obtain ⟨json, hjson, hlookup⟩ := ih hlast
      exact ⟨json, hjson, (if_neg hname).trans hlookup⟩

end RawValue

namespace EnumDefinition

/-- An entry whose value is an integer literal is a member exactly if the exact value of the literal
is at least `-2^63 - 1024` and less than `2^63`, and the value of the member is that integer or,
from below the range of 64 bits, its lower limit. -/
theorem isMember_iff_of_isInteger {text : String} {raws : List (RawText × RawValue)}
    {definition : EnumDefinition} {name : String} {numeral : Numeral} {n : ℤ}
    (htree : (RawValue.object raws none).IsTreeOf text) (h : ofText text = .ok definition)
    (hlast : Json.lastValue? (RawValue.namedEntries raws) name = some (.numeral numeral))
    (hn : numeral.IsInteger n) :
    (name ∈ definition.members.map (·.name) ↔ -2 ^ 63 - 1024 ≤ n ∧ n < 2 ^ 63) ∧
      ∀ member ∈ definition.members, member.name = name →
        member.value.toInt = max n (-2 ^ 63) := by
  obtain ⟨entries, hentries, rfl⟩ := ofText_eq_ok.mp h
  rw [Json.ofText, Document.read_ofText htree] at hentries
  obtain ⟨depth, _, -, -, hread, hobject⟩ := RawValue.value_object_eq_ok.mp hentries
  cases hobject
  obtain ⟨json, hjson, hlast'⟩ := RawValue.exists_lastValue? hread hlast
  obtain ⟨number, hnumber, rfl⟩ := RawValue.value_numeral_eq_ok.mp hjson
  have hdigits : ∀ digit ∈ numeral.whole, digit < 10 := by
    obtain ⟨key, hmem⟩ := RawValue.mem_of_mem_namedEntries (Json.mem_of_lastValue? hlast)
    obtain ⟨_, hspells⟩ := htree.spells_of_mem _ hmem
    cases hspells with
    | numeral hspells => exact hspells.digit_lt
  have hvalue : ∀ value, number.memberValue? = some value ↔
      (-2 ^ 63 - 1024 ≤ n ∧ n < 2 ^ 63) ∧ value.toInt = max n (-2 ^ 63) := fun value =>
    hn.memberValue?_eq_some hdigits hnumber
  constructor
  · rw [mem_names_ofEntries hlast']
    simp only [hvalue]
    constructor
    · rintro ⟨_, hrange, -⟩
      exact hrange
    · intro hrange
      exact ⟨Int64.ofInt (max n (-2 ^ 63)), hrange, Int64.toInt_ofInt_of_le (by omega) (by omega)⟩
  · exact fun member hmember hname =>
      ((hvalue _).mp (memberValue?_of_mem hlast' hmember hname)).2

/-! ### Just below the range -/

def belowRangeEntries : List (RawText × RawValue) := [(⟨[.char 'A'], none⟩, .numeral belowRange)]

def belowRangeText : String := "\x7b\"A\":-9223372036854775809\x7d"

theorem isTreeOf_belowRange : (RawValue.object belowRangeEntries none).IsTreeOf belowRangeText := by
  have hkey := RawText.spells_plain (s := ['A']) rfl
  have hblank := Json.blank_nil
  exact ⟨[], _, [], hblank, .object (.one hblank hkey hblank hblank (.numeral spells_belowRange)
    hblank), hblank, rfl⟩

theorem ofText_belowRange : ofText belowRangeText = .ok ⟨[⟨Int64.minValue, "A"⟩]⟩ := by
  have hread : belowRange.read = .ok (.double (.ofBits 0xc3e0000000000000)) := by decide +kernel
  rw [ofText_eq_ok]
  refine ⟨[("A", .number (.double (.ofBits 0xc3e0000000000000)))], ?_, by decide +kernel⟩
  rw [Json.ofText, Document.read_ofText isTreeOf_belowRange]
  refine RawValue.value_object_eq_ok.mpr ⟨_, _, rfl, rfl, RawValue.entryValues_eq_ok.mpr ?_, rfl⟩
  exact .cons ⟨by decide, RawValue.value_numeral_eq_ok.mpr ⟨_, hread, rfl⟩⟩ .nil

/-- An integer below the range of 64 bits is taken for another one. -/
theorem belowRange_isMember :
    (RawValue.object belowRangeEntries none).IsTreeOf belowRangeText ∧
      Json.lastValue? (RawValue.namedEntries belowRangeEntries) "A" =
        some (.numeral belowRange) ∧
      belowRange.IsInteger (-9223372036854775809) ∧
      (-9223372036854775809 : ℤ) < Int64.minValue.toInt ∧
      ofText belowRangeText = .ok ⟨[⟨Int64.minValue, "A"⟩]⟩ :=
  ⟨isTreeOf_belowRange, rfl, ⟨rfl, rfl, rfl⟩, by decide, ofText_belowRange⟩

theorem isMember_iff_of_isInteger_below :
    ("A" ∈ (EnumDefinition.mk [⟨Int64.minValue, "A"⟩]).members.map (·.name) ↔
      -2 ^ 63 - 1024 ≤ (-9223372036854775809 : ℤ) ∧ (-9223372036854775809 : ℤ) < 2 ^ 63) ∧
    ∀ member ∈ (EnumDefinition.mk [⟨Int64.minValue, "A"⟩]).members, member.name = "A" →
      member.value.toInt = max (-9223372036854775809) (-2 ^ 63) :=
  isMember_iff_of_isInteger isTreeOf_belowRange ofText_belowRange rfl ⟨rfl, rfl, rfl⟩

end EnumDefinition

end TokenInspector
