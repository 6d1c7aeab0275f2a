import TokenInspector.Proofs.Json.Denotation
import TokenInspector.Proofs.Json.Keys
import TokenInspector.Proofs.Json.Writing

/-!
# Parts of a JSON text

A path leads from a value to one of its parts (`Json.part?`) and from a text to the text of a part
(`Json.PartAt`): by the grammar the text of an array is cut into the texts of its items, and the
text of an object into those of its entries. A text can be cut in one way only (`CutInto.unique`),
so in the compact text of a value a path leads to the compact text of the part, and to no other
text (`partAt_compact_iff`).
-/

namespace TokenInspector

/-- A step from a value to a part of it. -/
inductive PathStep where
  | item (index : Nat)
  | entry (key : String)
  deriving DecidableEq, Repr

namespace Json

/-- The part of a value that a path leads to; a key leads to its first entry. -/
def part? {ν : Type} : List PathStep → Json ν → Option (Json ν)
  | [], json => some json
  | .item index :: path, array items => items[index]?.bind (part? path)
  | .entry key :: path, object entries => (entries.lookup key).bind (part? path)
  | _, _ => none

/-- An item between the brackets of an array by the text of its value, with blanks in front. -/
inductive ItemText : List Char → List Char → Prop
  | mk {item : RawValue} {b s : List Char} : Blank b → item.Spells s → ItemText s (b ++ s)

/-- An entry between the brackets of an object by its key and the text of its value, with blanks in
front. -/
inductive EntryText : String × List Char → List Char → Prop
  | mk {key : RawText} {name : String} {item : RawValue} {b k c d s : List Char} : Blank b →
      key.Spells k → key.Denotes name → Blank c → Blank d → item.Spells s →
      EntryText (name, s) (b ++ (k ++ (c ++ ':' :: (d ++ s))))

/-- What stands between brackets, cut into its parts at the commas. -/
inductive CutInto {α : Type} (Part : α → List Char → Prop) : List α → List Char → Prop
  | one {part : α} {s b : List Char} : Part part s → Blank b → CutInto Part [part] (s ++ b)
  | more {part : α} {parts : List α} {s b t : List Char} : Part part s → Blank b →
      CutInto Part parts t → CutInto Part (part :: parts) (s ++ (b ++ ',' :: t))

/-- `PartAt path s part`: in the text `s` of a value, the text `part` stands where the path leads.
Neither text has blanks around it. -/
inductive PartAt : List PathStep → List Char → List Char → Prop
  | whole {raw : RawValue} {s : List Char} : raw.Spells s → PartAt [] s s
  | item {index : Nat} {path : List PathStep} {texts : List (List Char)} {t s part : List Char} :
      CutInto ItemText texts t → texts[index]? = some s → PartAt path s part →
      PartAt (.item index :: path) ('[' :: (t ++ [']'])) part
  | entry {key : String} {path : List PathStep} {texts : List (String × List Char)}
      {t s part : List Char} : CutInto EntryText texts t → texts.lookup key = some s →
      PartAt path s part → PartAt (.entry key :: path) ('\x7b' :: (t ++ ['\x7d'])) part

/-! ### One way to cut a text -/

variable {b b' c s s' t t' rest rest' : List Char}

theorem ends_of_colon (hc : Blank c) (rest : List Char) : Numeral.Ends (c ++ ':' :: rest) := by
  cases c with
  | nil =>
    intro d hd
    cases hd
    decide
  | cons e c =>
    refine RawValue.ends_of_head fun d hd => .inl ?_
    cases hd
    exact hc _ List.mem_cons_self

theorem ends_blank (hb : Blank b) : Numeral.Ends b :=
  RawValue.ends_of_head fun d hd => .inl (hb d (List.mem_of_mem_head? hd))

/-- There is one way to cut off the blanks that a text begins with. -/
theorem cut_blank (hb : Blank b) (hb' : Blank b') {c d : Char} (hc : RawValue.isBlank c = false)
    (hd : RawValue.isBlank d = false) (heq : b ++ c :: s = b' ++ d :: s') : c :: s = d :: s' := by
  rw [← RawValue.skipBlanks_append hb hc s, heq, RawValue.skipBlanks_append hb' hd]

/-- Two values that a text begins with are one, since both are what the scanner finds. -/
theorem cut_value {raw raw' : RawValue} (h : raw.Spells s) (h' : raw'.Spells s') (hb : Blank b)
    (hb' : Blank b') (hrest : Numeral.Ends rest) (hrest' : Numeral.Ends rest')
    (heq : b ++ (s ++ rest) = b' ++ (s' ++ rest')) : raw = raw' ∧ s = s' ∧ rest = rest' := by
  have hscan := h.scan_eq hb hrest
  rw [heq, h'.scan_eq hb' hrest'] at hscan
  obtain ⟨rfl, rfl⟩ := Prod.mk.inj hscan
  obtain ⟨c, u, hs, hc, -⟩ := h.exists_cons
  obtain ⟨d, v, hs', hd, -⟩ := h'.exists_cons
  rw [← List.append_assoc, ← List.append_assoc] at heq
  have hvalue := List.append_cancel_right heq
  rw [hs, hs'] at hvalue ⊢
  exact ⟨rfl, cut_blank hb hb' hc hd hvalue, rfl⟩

theorem blank_append_comma_ne (hb : Blank b) : b ≠ b' ++ ',' :: t := by
  rintro rfl
  exact absurd (hb ',' (by simp)) (by decide)

theorem cut_comma (hb : Blank b) (hb' : Blank b') (heq : b ++ ',' :: t = b' ++ ',' :: t') :
    t = t' :=
  (List.cons.inj (cut_blank hb hb' (by decide) (by decide) heq)).2

theorem ItemText.cut {text text' : List Char} (h : ItemText text s) (h' : ItemText text' s')
    (hrest : Numeral.Ends rest) (hrest' : Numeral.Ends rest') (heq : s ++ rest = s' ++ rest') :
    text = text' ∧ rest = rest' := by
  obtain ⟨hb, hitem⟩ := h
  obtain ⟨hb', hitem'⟩ := h'
  rw [List.append_assoc, List.append_assoc] at heq
  exact (cut_value hitem hitem' hb hb' hrest hrest' heq).2

theorem EntryText.cut {entry entry' : String × List Char} (h : EntryText entry s)
    (h' : EntryText entry' s') (hrest : Numeral.Ends rest) (hrest' : Numeral.Ends rest')
    (heq : s ++ rest = s' ++ rest') : entry = entry' ∧ rest = rest' := by
  obtain ⟨hb, hkey, hname, hc, hd, hitem⟩ := h
  obtain ⟨hb', hkey', hname', hc', hd', hitem'⟩ := h'
  simp only [List.append_assoc, List.cons_append] at heq
  obtain ⟨hraw, -, hcolon⟩ := cut_value (.text hkey) (.text hkey') hb hb' (ends_of_colon hc _)
    (ends_of_colon hc' _) heq
  have hvalue := (List.cons.inj (cut_blank hc hc' (by decide) (by decide) hcolon)).2
  obtain ⟨-, rfl, hafter⟩ := cut_value hitem hitem' hd hd' hrest hrest' hvalue
  obtain rfl := RawValue.text.inj hraw
  have hdecode := hname.decode_eq
  rw [hname'.decode_eq] at hdecode
  obtain rfl := Except.ok.inj hdecode
  exact ⟨rfl, hafter⟩

/-- If each part can be cut off in one way, so can all of them. -/
theorem CutInto.unique {α : Type} {Part : α → List Char → Prop}
    (hcut : ∀ {part part' : α} {s s' rest rest' : List Char}, Part part s → Part part' s' →
      Numeral.Ends rest → Numeral.Ends rest' → s ++ rest = s' ++ rest' → part = part' ∧ rest = rest')
    {parts parts' : List α} (h : CutInto Part parts s) (h' : CutInto Part parts' s) :
    parts = parts' := by
  induction h generalizing parts' with
  | @one part s b hpart hb =>
    generalize heq : s ++ b = whole at h'
    cases h' with
    | one hpart' hb' =>
      obtain ⟨rfl, -⟩ := hcut hpart hpart' (ends_blank hb) (ends_blank hb') heq
      rfl
    | more hpart' hb' _ =>
      -- only blanks follow the part in the one cut, and a comma in the other
      obtain ⟨-, hrest⟩ := hcut hpart hpart' (ends_blank hb)
        (RawValue.ends_of_blank hb' (.inl rfl) _) heq
      exact absurd hrest (blank_append_comma_ne hb)
  | @more part parts s b t hpart hb _ ih =>
    generalize heq : s ++ (b ++ ',' :: t) = whole at h'
    have hends := RawValue.ends_of_blank hb (.inl rfl) t
    cases h' with
    | one hpart' hb' =>
      obtain ⟨-, hrest⟩ := hcut hpart hpart' hends (ends_blank hb') heq
      exact absurd hrest.symm (blank_append_comma_ne hb')
    | more hpart' hb' hparts' =>
      obtain ⟨rfl, hrest⟩ := hcut hpart hpart' hends (RawValue.ends_of_blank hb' (.inl rfl) _) heq
      obtain rfl := cut_comma hb hb' hrest
      rw [ih hparts']

/-! ### Compact text -/

variable {json part : Json Int} {items : List (Json Int)} {entries : List (String × Json Int)}
  {path : List PathStep}

theorem exists_spells_compact (json : Json Int) :
    ∃ raw : RawValue, raw.Spells (compactChars json) := by
  obtain ⟨raw, hspells, -⟩ := isWritten_compact json
  exact ⟨raw, hspells⟩

theorem itemText_compact (item : Json Int) :
    ItemText (compactChars item) (compactChars item) := by
  obtain ⟨raw, hspells⟩ := exists_spells_compact item
  exact .mk blank_nil hspells

theorem entryText_compact (key : String) (item : Json Int) :
    EntryText (key, compactChars item) (RawText.quoted key ++ ':' :: compactChars item) := by
  obtain ⟨raw, hspells⟩ := exists_spells_compact item
  obtain ⟨t, hkey, hname⟩ := RawText.exists_quoted key
  exact .mk blank_nil hkey hname blank_nil blank_nil hspells

theorem cutInto_compactItems (hne : items ≠ []) :
    CutInto ItemText (items.map compactChars) (compactItems items) := by
  induction items with
  | nil => exact absurd rfl hne
  | cons item rest ih =>
    have hitem := itemText_compact item
    cases rest with
    | nil => simpa [compactItems] using CutInto.one hitem blank_nil
    | cons next rest => exact .more hitem blank_nil (ih (List.cons_ne_nil _ _))

theorem cutInto_compactEntries (hne : entries ≠ []) :
    CutInto EntryText (entries.map fun (key, item) => (key, compactChars item))
      (compactEntries entries) := by
  induction entries with
  | nil => exact absurd rfl hne
  | cons entry rest ih =>
    obtain ⟨key, item⟩ := entry
    have hentry := entryText_compact key item
    cases rest with
    | nil => simpa [compactEntries] using CutInto.one hentry blank_nil
    | cons next rest =>
      have hrest := CutInto.more hentry blank_nil (ih (List.cons_ne_nil _ _))
      simpa [compactEntries] using hrest

theorem decimal_ne_cons (n : Int) {c : Char} (hc : (c = '-' || c.isDigit) = false)
    (t : List Char) : decimal n ≠ c :: t := by
  obtain ⟨numeral, hspells, -⟩ := Numeral.exists_decimal n
  obtain ⟨d, u, hd, hdigit⟩ := RawValue.exists_cons_of_numeral hspells
  intro heq
  rw [hd] at heq
  obtain ⟨rfl, -⟩ := List.cons.inj heq
  rw [hc] at hdigit
  cases hdigit

theorem eq_array_of_compactChars (h : compactChars json = '[' :: s) :
    ∃ items, json = array items ∧ s = compactItems items ++ [']'] := by
  cases json with
  | array items => exact ⟨items, rfl, (List.cons.inj h).2.symm⟩
  | number n => exact absurd h (decimal_ne_cons n (by decide) _)
  | bool b => cases b <;> simp [compactChars] at h
  | null | text _ | object _ => simp [compactChars, RawText.quoted] at h

theorem eq_object_of_compactChars (h : compactChars json = '\x7b' :: s) :
    ∃ entries, json = object entries ∧ s = compactEntries entries ++ ['\x7d'] := by
  cases json with
  | object entries => exact ⟨entries, rfl, (List.cons.inj h).2.symm⟩
  | number n => exact absurd h (decimal_ne_cons n (by decide) _)
  | bool b => cases b <;> simp [compactChars] at h
  | null | text _ | array _ => simp [compactChars, RawText.quoted] at h

/-- The text of a part stands at its path. -/
theorem partAt_compact (h : json.part? path = some part) :
    PartAt path (compactChars json) (compactChars part) := by
  induction path generalizing json with
  | nil =>
    obtain rfl := Option.some.inj h
    obtain ⟨raw, hspells⟩ := exists_spells_compact json
    exact .whole hspells
  | cons step path ih =>
    cases step with
    | item index =>
      cases json with
      | array items =>
        obtain ⟨item, hitem, hpart⟩ := Option.bind_eq_some_iff.mp h
        have hne : items ≠ [] := List.ne_nil_of_mem (List.mem_of_getElem? hitem)
        rw [compactChars]
        exact .item (cutInto_compactItems hne) (by rw [List.getElem?_map, hitem]; rfl) (ih hpart)
      | null | bool _ | number _ | text _ | object _ => cases h
    | entry key =>
      cases json with
      | object entries =>
        obtain ⟨item, hitem, hpart⟩ := Option.bind_eq_some_iff.mp h
        have hne : entries ≠ [] := by
          rintro rfl
          cases hitem
        rw [compactChars]
        exact .entry (cutInto_compactEntries hne) (by rw [lookup_map, hitem]; rfl) (ih hpart)
      | null | bool _ | number _ | text _ | array _ => cases h

theorem ItemText.ne_nil {text : List Char} (h : ItemText text s) : s ≠ [] := by
  obtain ⟨-, hitem⟩ := h
  obtain ⟨c, t, rfl, -⟩ := hitem.exists_cons
  simp

theorem EntryText.ne_nil {entry : String × List Char} (h : EntryText entry s) : s ≠ [] := by
  cases h
  simp

theorem CutInto.ne_nil {α : Type} {Part : α → List Char → Prop} {parts : List α}
    (hne : ∀ {part : α} {s : List Char}, Part part s → s ≠ []) (h : CutInto Part parts s) :
    s ≠ [] := by
  cases h with
  | one hpart _ | more hpart _ _ => exact List.append_ne_nil_of_left_ne_nil (hne hpart) _

/-- Nothing else stands at a path of compact text. -/
theorem PartAt.exists_part (h : PartAt path (compactChars json) t) :
    ∃ part, json.part? path = some part ∧ t = compactChars part := by
  generalize hs : compactChars json = s at h
  induction h generalizing json with
  | whole _ => exact ⟨json, rfl, hs.symm⟩
  | item htexts hitem _ ih =>
    obtain ⟨items, rfl, heq⟩ := eq_array_of_compactChars hs
    obtain rfl := List.append_cancel_right heq
    have hne : items ≠ [] := by
      rintro rfl
      exact htexts.ne_nil ItemText.ne_nil rfl
    obtain rfl := htexts.unique ItemText.cut (cutInto_compactItems hne)
    rw [List.getElem?_map] at hitem
    obtain ⟨item, hitem, hs⟩ := Option.map_eq_some_iff.mp hitem
    obtain ⟨part, hpart, ht⟩ := ih hs
    exact ⟨part, by rw [part?, hitem]; exact hpart, ht⟩
  | entry htexts hitem _ ih =>
    obtain ⟨entries, rfl, heq⟩ := eq_object_of_compactChars hs
    obtain rfl := List.append_cancel_right heq
    have hne : entries ≠ [] := by
      rintro rfl
      exact htexts.ne_nil EntryText.ne_nil rfl
    obtain rfl := htexts.unique EntryText.cut (cutInto_compactEntries hne)
    rw [lookup_map] at hitem
    obtain ⟨item, hitem, hs⟩ := Option.map_eq_some_iff.mp hitem
    obtain ⟨part, hpart, ht⟩ := ih hs
    exact ⟨part, by rw [part?, hitem]; exact hpart, ht⟩

/-- In the compact text of a value the compact texts of its parts stand at their paths, and nothing
else stands there. -/
theorem partAt_compact_iff : PartAt path (compactChars json) t ↔
    ∃ part, json.part? path = some part ∧ t = compactChars part := by
  constructor
  · exact PartAt.exists_part
  · rintro ⟨part, hpart, rfl⟩
    exact partAt_compact hpart

end Json

end TokenInspector
