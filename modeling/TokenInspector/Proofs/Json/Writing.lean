import TokenInspector.Json.Write
import TokenInspector.Proofs.Json.Grammar

/-!
# Written text is JSON

What `Json.compact` and `Json.pretty` write for a value is a text of that value by the grammar
(`hasText_compact`, `hasText_pretty`). Both follow from the same steps: `IsWritten` says of a text
without blanks around it that it is a text of a value, `ItemsWritten` and `EntriesWritten` say it of
what stands between brackets.
-/

namespace TokenInspector

/-! ### Numbers -/

namespace Numeral

theorem head?_toDigits {n : Nat} (h : (Nat.toDigits 10 n).head? = some '0') :
    Nat.toDigits 10 n = ['0'] := by
  induction n using Nat.strongRecOn with
  | ind n ih =>
    rw [Nat.toDigits_eq_if (by decide)] at h ⊢
    split at h
    · rename_i hlt
      rw [if_pos hlt]
      exact congrArg (fun c => [c]) (Option.some.inj h)
    · rename_i hge
      have hhead : (Nat.toDigits 10 (n / 10)).head? = some '0' := by
        rwa [List.head?_append, List.head?_eq_some_head Nat.toDigits_ne_nil, Option.some_or,
          ← List.head?_eq_some_head] at h
      have hone := ih (n / 10) (by omega) hhead
      have hzero : n / 10 = 0 := by
        rw [← Nat.ofDigitChars_ten_toDigits (n := n / 10), hone]
        rfl
      omega

theorem spellsDigits_toDigits (n : Nat) :
    SpellsDigits ((Nat.toDigits 10 n).map digitValue) (Nat.toDigits 10 n) where
  ne_nil := Nat.toDigits_ne_nil
  isDigit _ hc := Nat.isDigit_of_mem_toDigits (by decide) (by decide) hc
  digits_eq := rfl

theorem ofDigits_toDigits (n : Nat) : ofDigits ((Nat.toDigits 10 n).map digitValue) = n := by
  have h := Nat.ofDigitChars_ten_toDigits (n := n)
  rw [Nat.ofDigitChars_eq_foldl] at h
  rw [ofDigits, List.foldl_map]
  simpa only [digitValue, Nat.mul_comm] using h

/-- The decimal digits of an integer are a numeral that stands for it. -/
theorem exists_decimal (n : Int) : ∃ numeral : Numeral, numeral.Spells (Json.decimal n) ∧
    numeral.Denotes n := by
  refine ⟨⟨decide (n < 0), (Nat.toDigits 10 n.natAbs).map digitValue, none, none⟩, ?_, ?_⟩
  · have h := Spells.mk (decide (n < 0)) (spellsDigits_toDigits n.natAbs) head?_toDigits .absent
      .absent
    by_cases hn : n < 0 <;> simpa [Json.decimal, hn] using h
  · refine ⟨rfl, rfl, ?_, ?_⟩
    · rw [ofDigits_toDigits]
      by_cases hn : n < 0 <;>
        simp only [Double.signed, hn, decide_true, decide_false, if_true, Bool.false_eq_true,
          if_false] <;> omega
    · intro hn
      have := of_decide_eq_true hn
      omega

end Numeral

/-! ### Strings -/

namespace RawText

theorem hexDigit?_hexChar : ∀ n < 16, hexDigit? (hexChar n) = some n := by decide

theorem hexUnit?_of_lt {n : Nat} (h : n < 0x20) :
    hexUnit? '0' '0' (hexChar (n / 16)) (hexChar (n % 16)) = some n := by
  rw [hexUnit?, hexDigit?_hexChar (n / 16) (by omega), hexDigit?_hexChar (n % 16) (by omega)]
  simp only [show hexDigit? '0' = some 0 by decide]
  exact congrArg some (by omega)

/-- An escaped character is a piece that stands for it. -/
theorem exists_escape (c : Char) : ∃ piece, SpellsPiece piece (escape c) ∧
    ∀ pieces s, DenotesPieces pieces s → DenotesPieces (piece :: pieces) (c :: s) := by
  unfold escape
  split
  iterate 7 exact ⟨_, .escaped (by decide), fun _ _ => .char⟩
  rename_i hquote hslash _ _ _ _ _
  split
  · rename_i hcontrol
    have hlt : c.toNat < 0x20 := of_decide_eq_true hcontrol
    refine ⟨_, .unit (hexUnit?_of_lt hlt), ?_⟩
    intro pieces s hs
    have hunits : utf16Char c = [c.toNat] := if_pos (by omega)
    have hdenotes := DenotesPieces.units (c := c) hs
    rwa [hunits] at hdenotes
  · rename_i hcontrol
    exact ⟨_, .plain hquote hslash (by simpa using hcontrol), fun _ _ => .char⟩

theorem exists_escapes (s : List Char) : ∃ pieces, SpellsPieces pieces (s.flatMap escape) ∧
    DenotesPieces pieces s := by
  induction s with
  | nil => exact ⟨[], .nil, .nil⟩
  | cons c s ih =>
    obtain ⟨piece, hpiece, hdenotes⟩ := exists_escape c
    obtain ⟨pieces, hpieces, hs⟩ := ih
    rw [List.flatMap_cons]
    exact ⟨piece :: pieces, .cons hpiece hpieces, hdenotes pieces s hs⟩

/-- A quoted text is a string that stands for it. -/
theorem exists_quoted (s : String) : ∃ t : RawText, t.Spells (quoted s) ∧ t.Denotes s := by
  obtain ⟨pieces, hpieces, hs⟩ := exists_escapes s.toList
  exact ⟨⟨pieces, none⟩, .mk hpieces, rfl, hs⟩

end RawText

/-! ### Values -/

namespace Json

/-- A text of a value without blanks around it. -/
def IsWritten (json : Json Int) (s : List Char) : Prop :=
  ∃ raw : RawValue, raw.Spells s ∧ raw.Denotes json

/-- A text of items between the brackets of an array. -/
def ItemsWritten (items : List (Json Int)) (s : List Char) : Prop :=
  ∃ raws, RawValue.SpellsItems raws s ∧ RawValue.DenotesItems raws items

/-- A text of entries between the brackets of an object. -/
def EntriesWritten (entries : List (String × Json Int)) (s : List Char) : Prop :=
  ∃ raws, RawValue.SpellsEntries raws s ∧ RawValue.DenotesEntries raws entries

variable {json item : Json Int} {items : List (Json Int)} {entries : List (String × Json Int)}
  {b c d e s t : List Char}

theorem isWritten_decimal (n : Int) : IsWritten (number n) (decimal n) := by
  obtain ⟨numeral, hspells, hdenotes⟩ := Numeral.exists_decimal n
  exact ⟨_, .numeral hspells, .number hdenotes⟩

theorem isWritten_quoted (s : String) : IsWritten (text s) (RawText.quoted s) := by
  obtain ⟨t, hspells, hdenotes⟩ := RawText.exists_quoted s
  exact ⟨_, .text hspells, .text hdenotes⟩

theorem isWritten_bool (b : Bool) :
    IsWritten (bool b) (if b then "true".toList else "false".toList) :=
  ⟨_, .bool b, .bool b⟩

theorem isWritten_emptyArray : IsWritten (array []) "[]".toList :=
  ⟨_, .emptyArray (b := []) (by simp [Blank]), .array .nil⟩

theorem isWritten_emptyObject : IsWritten (object []) "\x7b\x7d".toList :=
  ⟨_, .emptyObject (b := []) (by simp [Blank]), .object .nil⟩

theorem ItemsWritten.array (h : ItemsWritten items s) :
    IsWritten (.array items) ('[' :: (s ++ [']'])) := by
  obtain ⟨raws, hspells, hdenotes⟩ := h
  exact ⟨_, .array hspells, .array hdenotes⟩

theorem EntriesWritten.object (h : EntriesWritten entries s) :
    IsWritten (.object entries) ('\x7b' :: (s ++ ['\x7d'])) := by
  obtain ⟨raws, hspells, hdenotes⟩ := h
  exact ⟨_, .object hspells, .object hdenotes⟩

theorem IsWritten.one (h : IsWritten item s) (hb : Blank b) (hc : Blank c) :
    ItemsWritten [item] (b ++ (s ++ c)) := by
  obtain ⟨raw, hspells, hdenotes⟩ := h
  exact ⟨_, .one hb hspells hc, .cons hdenotes .nil⟩

theorem ItemsWritten.more (h : ItemsWritten items t) (hitem : IsWritten item s) (hb : Blank b)
    (hc : Blank c) : ItemsWritten (item :: items) (b ++ (s ++ (c ++ ',' :: t))) := by
  obtain ⟨raws, hspells, hdenotes⟩ := h
  obtain ⟨raw, hspell, hdenote⟩ := hitem
  exact ⟨_, .more hb hspell hc hspells, .cons hdenote hdenotes⟩

theorem IsWritten.oneEntry (h : IsWritten item s) (key : String) (hb : Blank b) (hc : Blank c)
    (hd : Blank d) (he : Blank e) : EntriesWritten [(key, item)]
      (b ++ (RawText.quoted key ++ (c ++ ':' :: (d ++ (s ++ e))))) := by
  obtain ⟨raw, hspells, hdenotes⟩ := h
  obtain ⟨t, hkey, hname⟩ := RawText.exists_quoted key
  exact ⟨_, .one hb hkey hc hd hspells he, .cons hname hdenotes .nil⟩

theorem EntriesWritten.more (h : EntriesWritten entries t) (hitem : IsWritten item s) (key : String)
    (hb : Blank b) (hc : Blank c) (hd : Blank d) (he : Blank e) :
    EntriesWritten ((key, item) :: entries)
      (b ++ (RawText.quoted key ++ (c ++ ':' :: (d ++ (s ++ (e ++ ',' :: t)))))) := by
  obtain ⟨raws, hspells, hdenotes⟩ := h
  obtain ⟨raw, hspell, hdenote⟩ := hitem
  obtain ⟨u, hkey, hname⟩ := RawText.exists_quoted key
  exact ⟨_, .more hb hkey hc hd hspell he hspells, .cons hname hdenote hdenotes⟩

theorem IsWritten.hasText (h : IsWritten json s) : json.HasText (String.ofList s) := by
  obtain ⟨raw, hspells, hdenotes⟩ := h
  refine ⟨raw, ⟨[], s, [], by simp [Blank], hspells, by simp [Blank], ?_⟩, hdenotes⟩
  rw [String.toList_ofList, List.append_nil, List.nil_append]

/-! ### Compact text -/

theorem blank_nil : Blank [] := by simp [Blank]

mutual

theorem isWritten_compact : ∀ json, IsWritten json (compactChars json)
  | null => ⟨_, .null, .null⟩
  | bool b => isWritten_bool b
  | number n => isWritten_decimal n
  | text s => isWritten_quoted s
  | array [] => isWritten_emptyArray
  | array (item :: rest) => (itemsWritten_compact (item :: rest) (List.cons_ne_nil _ _)).array
  | object [] => isWritten_emptyObject
  | object (entry :: rest) =>
    (entriesWritten_compact (entry :: rest) (List.cons_ne_nil _ _)).object

theorem itemsWritten_compact : ∀ items, items ≠ [] → ItemsWritten items (compactItems items)
  | [], h => absurd rfl h
  | [item], _ => by
    simpa [compactItems] using (isWritten_compact item).one blank_nil blank_nil
  | item :: next :: rest, _ => by
    have hrest := itemsWritten_compact (next :: rest) (List.cons_ne_nil _ _)
    simpa [compactItems] using hrest.more (isWritten_compact item) blank_nil blank_nil

theorem entriesWritten_compact :
    ∀ entries, entries ≠ [] → EntriesWritten entries (compactEntries entries)
  | [], h => absurd rfl h
  | [(key, item)], _ => by
    simpa [compactEntries] using
      (isWritten_compact item).oneEntry key blank_nil blank_nil blank_nil blank_nil
  | (key, item) :: next :: rest, _ => by
    have hrest := entriesWritten_compact (next :: rest) (List.cons_ne_nil _ _)
    simpa [compactEntries] using
      hrest.more (isWritten_compact item) key blank_nil blank_nil blank_nil blank_nil

end

theorem hasText_compact (json : Json Int) : json.HasText json.compact :=
  (isWritten_compact json).hasText

/-! ### Text over several lines -/

theorem blank_newline (level : Nat) : Blank (newline level) := by
  intro c hc
  rcases List.mem_cons.mp hc with rfl | hc
  · decide
  · rw [List.eq_of_mem_replicate hc]
    decide

theorem blank_space : Blank [' '] := by simp [Blank, RawValue.isBlank]

mutual

theorem isWritten_pretty : ∀ level json, IsWritten json (prettyChars level json)
  | _, null => ⟨_, .null, .null⟩
  | _, bool b => isWritten_bool b
  | _, number n => isWritten_decimal n
  | _, text s => isWritten_quoted s
  | _, array [] => isWritten_emptyArray
  | level, array (item :: rest) => by
    have hitems := itemsWritten_pretty level (level + 1) (item :: rest) (List.cons_ne_nil _ _)
    simpa [prettyChars] using hitems.array
  | _, object [] => isWritten_emptyObject
  | level, object (entry :: rest) => by
    have hentries := entriesWritten_pretty level (level + 1) (entry :: rest) (List.cons_ne_nil _ _)
    simpa [prettyChars] using hentries.object

/-- The items of an array whose closing bracket stands on level `outer`. -/
theorem itemsWritten_pretty : ∀ outer level items, items ≠ [] →
    ItemsWritten items (prettyItems level items ++ newline outer)
  | _, _, [], h => absurd rfl h
  | outer, level, [item], _ => by
    simpa [prettyItems] using
      (isWritten_pretty level item).one (blank_newline level) (blank_newline outer)
  | outer, level, item :: next :: rest, _ => by
    have hrest := itemsWritten_pretty outer level (next :: rest) (List.cons_ne_nil _ _)
    simpa [prettyItems] using
      hrest.more (isWritten_pretty level item) (blank_newline level) blank_nil

theorem entriesWritten_pretty : ∀ outer level entries, entries ≠ [] →
    EntriesWritten entries (prettyEntries level entries ++ newline outer)
  | _, _, [], h => absurd rfl h
  | outer, level, [(key, item)], _ => by
    simpa [prettyEntries] using (isWritten_pretty level item).oneEntry key (blank_newline level)
      blank_nil blank_space (blank_newline outer)
  | outer, level, (key, item) :: next :: rest, _ => by
    have hrest := entriesWritten_pretty outer level (next :: rest) (List.cons_ne_nil _ _)
    simpa [prettyEntries] using hrest.more (isWritten_pretty level item) key (blank_newline level)
      blank_nil blank_space blank_nil

end

theorem hasText_pretty (json : Json Int) : json.HasText json.pretty :=
  (isWritten_pretty 0 json).hasText

end Json

end TokenInspector
