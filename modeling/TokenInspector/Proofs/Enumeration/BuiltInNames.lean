import TokenInspector.Proofs.Enumeration.ReadBack
import TokenInspector.Proofs.Lines

/-!
# Names of the built-in enums

The names of the built-in enums are plain, so their texts can be read back. `checkNames` decides it
on the bytes of the names, which the kernel evaluates faster than their characters;
`plainNames_of_check` is its soundness. In the same way the names are words, and so is every text of
a built-in enum (`BuiltIn.isWord_display`).
-/

namespace TokenInspector

/-! ### Bytes of a text -/

def textBytes (text : String) : List UInt8 := text.toByteArray.data.toList

theorem textBytes_eq (text : String) :
    textBytes text = text.toList.flatMap String.utf8EncodeChar := by
  rw [textBytes, ← String.utf8Encode_toList, List.utf8Encode, List.data_toByteArray]

theorem mem_textBytes {text : String} {c : Char} {b : UInt8} (hc : c ∈ text.toList)
    (hb : b ∈ String.utf8EncodeChar c) : b ∈ textBytes text := by
  rw [textBytes_eq, List.mem_flatMap]
  exact ⟨c, hc, hb⟩

theorem utf8EncodeChar_of_le {c : Char} (h : c.val.toNat ≤ 0x7f) :
    String.utf8EncodeChar c = [UInt8.ofNat c.val.toNat] := by
  simp only [String.utf8EncodeChar, h, if_true]

theorem textBytes_decimal_lt (value : Int64) : ∀ b ∈ textBytes (decimal value), b < 58 := by
  intro b hb
  rw [textBytes_eq, List.mem_flatMap] at hb
  obtain ⟨c, hc, hb⟩ := hb
  rcases mem_decimal hc with hc | rfl
  · simp only [Char.isDigit, Bool.and_eq_true, decide_eq_true_eq] at hc
    have hle : c.val.toNat ≤ 57 := hc.2
    rw [utf8EncodeChar_of_le (by omega), List.mem_singleton] at hb
    rw [hb, UInt8.lt_iff_toNat_lt, UInt8.toNat_ofNat', show (58 : UInt8).toNat = 58 from rfl]
    omega
  · rw [show String.utf8EncodeChar '-' = [45] from rfl, List.mem_singleton] at hb
    rw [hb]
    decide

/-- The bytes of a text as the digits of a number. -/
def textKey (text : String) : Nat := (textBytes text).foldl (fun n b => 256 * n + b.toNat) 0

/-! ### Checking names -/

def isFresh (key : Nat) : List Nat → Bool
  | [] => true
  | other :: rest => bif Nat.beq key other then false else isFresh key rest

def areDistinct : List Nat → Bool
  | [] => true
  | key :: rest => isFresh key rest && areDistinct rest

theorem not_mem_of_isFresh {key : Nat} {keys : List Nat} (h : isFresh key keys = true) :
    key ∉ keys := by
  induction keys with
  | nil => exact List.not_mem_nil
  | cons other rest ih =>
    rw [isFresh] at h
    cases hb : Nat.beq key other with
    | true => simp [hb] at h
    | false =>
      rw [hb, cond_false] at h
      rw [List.mem_cons, not_or]
      exact ⟨Nat.ne_of_beq_eq_false hb, ih h⟩

theorem nodup_of_areDistinct {keys : List Nat} (h : areDistinct keys = true) : keys.Nodup := by
  induction keys with
  | nil => exact List.nodup_nil
  | cons key rest ih =>
    rw [areDistinct, Bool.and_eq_true] at h
    exact List.nodup_cons.mpr ⟨not_mem_of_isFresh h.1, ih h.2⟩

/-- The names have distinct keys, no bar, and each a byte past the digits. -/
def checkNames (names : List String) : Bool :=
  areDistinct (names.map textKey) &&
    names.all fun name => (textBytes name).all (· != 124) && (textBytes name).any (58 ≤ ·)

namespace EnumDefinition

theorem plainNames_of_check {definition : EnumDefinition}
    (h : checkNames (definition.members.map (·.name)) = true) : PlainNames definition := by
  rw [checkNames, Bool.and_eq_true, List.all_eq_true] at h
  obtain ⟨hdistinct, hbytes⟩ := h
  refine ⟨(nodup_of_areDistinct hdistinct).of_map _, ?_, ?_⟩
  · intro member hm hbar
    have hb := hbytes member.name (List.mem_map_of_mem hm)
    simp only [Bool.and_eq_true, List.all_eq_true] at hb
    exact absurd (hb.1 124 (mem_textBytes hbar (by decide))) (by decide)
  · intro member hm value hname
    have hb := hbytes member.name (List.mem_map_of_mem hm)
    simp only [Bool.and_eq_true, List.any_eq_true, decide_eq_true_eq] at hb
    obtain ⟨-, b, hb, hle⟩ := hb
    exact absurd (textBytes_decimal_lt value b (hname ▸ hb)) (Std.not_lt_of_ge hle)

end EnumDefinition

namespace BuiltIn

theorem plainNames (known : BuiltIn) : known.definition.PlainNames := by
  apply EnumDefinition.plainNames_of_check
  cases known <;> decide +kernel

theorem display_inj {known : BuiltIn} {v w : Int64} (h : known.display v = known.display w) :
    v = w :=
  EnumDefinition.display_inj known.plainNames h

theorem ofNat_inj {m n : Nat} (hm : m < 2 ^ 63) (hn : n < 2 ^ 63)
    (h : Int64.ofNat m = Int64.ofNat n) : m = n := by
  have h := congrArg Int64.toInt h
  rw [Int64.toInt_ofNat_of_lt hm, Int64.toInt_ofNat_of_lt hn] at h
  exact Int.ofNat_inj.mp h

theorem displayKind_injective : Function.Injective displayKind := by
  intro a b h
  have ha := a.toNat_lt
  have hb := b.toNat_lt
  exact UInt16.toNat_inj.mp (ofNat_inj (by omega) (by omega) (display_inj h))

theorem displayBits_injective (known : BuiltIn) : Function.Injective known.displayBits := by
  intro a b h
  have ha := a.toNat_lt
  have hb := b.toNat_lt
  exact UInt32.toNat_inj.mp (ofNat_inj (by omega) (by omega) (display_inj h))

end BuiltIn

/-! ### Words -/

theorem blank_lt_of_isDigit {c : Char} (h : c.isDigit = true) : ' ' < c := by
  simp only [Char.isDigit, Bool.and_eq_true, decide_eq_true_eq] at h
  exact Std.lt_of_lt_of_le (by decide) h.1

theorem isWord_repr (n : Nat) : IsWord (toString n).toList where
  ne_nil := by
    rw [Nat.toString_eq_repr, Nat.toList_repr]
    exact Nat.toDigits_ne_nil
  visible _ hc := blank_lt_of_isDigit (isDigit_of_mem_repr hc)

theorem isWord_decimal (value : Int64) : IsWord (decimal value).toList where
  ne_nil := by
    rw [decimal, Int.toString_eq_repr, Int.repr_eq_if]
    split
    · exact (isWord_repr _).ne_nil
    · simp
  visible c hc := by
    rcases mem_decimal hc with hdigit | rfl
    · exact blank_lt_of_isDigit hdigit
    · decide

/-- A text whose bytes come after that of the blank is a word. -/
theorem isWord_of_bytes {text : String} (hne : textBytes text ≠ [])
    (h : ∀ b ∈ textBytes text, 32 < b) : IsWord text.toList where
  ne_nil hnil := hne (by rw [textBytes_eq, hnil]; rfl)
  visible c hc := by
    by_contra hle
    have hcode : c.val.toNat ≤ 32 := Char.not_lt.mp hle
    have hbyte : UInt8.ofNat c.val.toNat ∈ textBytes text := by
      refine mem_textBytes hc ?_
      rw [utf8EncodeChar_of_le (by omega)]
      exact List.mem_singleton_self _
    have hlt := UInt8.lt_iff_toNat_lt.mp (h _ hbyte)
    rw [UInt8.toNat_ofNat', show (32 : UInt8).toNat = 32 from rfl] at hlt
    omega

theorem isWord_intercalate {separator : String} {names : List String} (hnil : names ≠ [])
    (hseparator : IsWord separator.toList) (h : ∀ name ∈ names, IsWord name.toList) :
    IsWord (separator.intercalate names).toList where
  ne_nil := by
    cases names with
    | nil => exact absurd rfl hnil
    | cons name rest =>
      have hname := (h name List.mem_cons_self).ne_nil
      cases rest with
      | nil => rwa [String.intercalate_singleton]
      | cons next rest => simp [String.intercalate_cons_cons, hname]
  visible c hc := by
    rcases EnumDefinition.mem_intercalate hc with hseparated | ⟨name, hname, hc⟩
    · exact hseparator.visible c hseparated
    · exact (h name hname).visible c hc

/-- If names are words, so is every text. -/
theorem EnumDefinition.isWord_display {definition : EnumDefinition}
    (h : ∀ member ∈ definition.members, IsWord member.name.toList) (value : Int64) (flags : Bool) :
    IsWord (definition.display value flags).toList := by
  rcases display_cases definition value flags with hdecimal | ⟨members, hne, hsub, htext, -⟩
  · exact hdecimal ▸ isWord_decimal value
  · rw [htext]
    refine isWord_intercalate (by simpa using hne) (by decide) ?_
    intro name hname
    obtain ⟨member, hmember, rfl⟩ := List.mem_map.mp hname
    exact h member (hsub hmember)

theorem BuiltIn.isWord_name (known : BuiltIn) :
    ∀ member ∈ known.definition.members, IsWord member.name.toList := by
  have hbytes : (known.definition.members.map fun member => textBytes member.name).all
      (fun bytes => bytes != [] && bytes.all (32 < ·)) = true := by
    cases known <;> decide +kernel
  intro member hmember
  have hname := List.all_eq_true.mp hbytes _ (List.mem_map_of_mem hmember)
  simp only [Bool.and_eq_true, bne_iff_ne, List.all_eq_true, decide_eq_true_eq] at hname
  exact isWord_of_bytes hname.1 hname.2

namespace EnumDefinition

/-- With plain names, which the built-in enums have, a text tells its value, and so two values never
share one. -/
theorem display_reads_back :
    (∀ definition, PlainNames definition → ∀ flags,
      (∀ value, Tells definition (definition.display value flags) value) ∧
      Function.Injective (definition.display · flags)) ∧
    (∀ known : BuiltIn, PlainNames known.definition ∧ Function.Injective known.display ∧
      Function.Injective known.displayBits) ∧
    Function.Injective BuiltIn.displayKind := by
  refine ⟨?_, ?_, BuiltIn.displayKind_injective⟩
  · intro definition hp flags
    exact ⟨fun value => display_tells hp value flags, fun v w h => display_inj hp h⟩
  · intro known
    exact ⟨known.plainNames, fun v w h => BuiltIn.display_inj h, known.displayBits_injective⟩

theorem display_reads_back_overlapping :
    PlainNames overlappingFlags ∧ Tells overlappingFlags "Top|Both" (Int64.minValue + 3) ∧
      Function.Injective (overlappingFlags.display · true) := by
  have hp : PlainNames overlappingFlags := plainNames_of_check (by decide +kernel)
  have htext : overlappingFlags.display (Int64.minValue + 3) true = "Top|Both" := by decide
  obtain ⟨htells, hinj⟩ := display_reads_back.1 overlappingFlags hp true
  exact ⟨hp, htext ▸ htells (Int64.minValue + 3), hinj⟩

end EnumDefinition

end TokenInspector
