import TokenInspector.Proofs.Json.Writing

/-!
# Characters of JSON text

A text of a value has no control characters but the blanks between its parts, whatever its strings
stand for (`HasText.visible`): in a string they are written as escapes.
-/

namespace TokenInspector

/-- There are no control characters but blanks. -/
def Visible (s : List Char) : Prop :=
  ∀ c ∈ s, RawText.isControl c = true → RawValue.isBlank c = true

variable {c : Char} {s t : List Char}

instance (s : List Char) : Decidable (Visible s) := List.decidableBAll _ s

@[simp] theorem visible_nil : Visible [] := by simp [Visible]

@[simp] theorem visible_cons : Visible (c :: s) ↔
    (RawText.isControl c = true → RawValue.isBlank c = true) ∧ Visible s := by
  simp [Visible]

@[simp] theorem visible_append : Visible (s ++ t) ↔ Visible s ∧ Visible t := by
  simp only [Visible, List.mem_append, or_imp, forall_and]

theorem Blank.visible (h : Blank s) : Visible s := fun c hc _ => h c hc

theorem visible_of_le (h : ∀ c ∈ s, ' ' ≤ c) : Visible s := by
  intro c hc hcontrol
  have hle : 0x20 ≤ c.toNat := h c hc
  exact absurd (of_decide_eq_true hcontrol) (Nat.not_lt.mpr hle)

namespace Numeral

theorem SpellsDigits.visible {digits : List Nat} (h : SpellsDigits digits s) :
    Visible s := by
  refine visible_of_le fun c hc => ?_
  have hdigit := h.isDigit c hc
  simp only [Char.isDigit, Bool.and_eq_true, decide_eq_true_eq] at hdigit
  exact Char.le_trans (by decide) hdigit.1

theorem SpellsFraction.visible {fraction : Option (List Nat)} (h : SpellsFraction fraction s) :
    Visible s := by
  cases h with
  | absent => simp
  | digits hdigits => exact visible_cons.mpr ⟨by decide, hdigits.visible⟩

theorem SpellsExponent.visible {exponent : Option Int} (h : SpellsExponent exponent s) :
    Visible s := by
  cases h with
  | absent => simp
  | digits hmark hsign hdigits =>
    refine visible_cons.mpr ⟨?_, visible_append.mpr ⟨?_, hdigits.visible⟩⟩
    · rcases hmark with rfl | rfl <;> decide
    · cases hsign <;> decide

theorem Spells.visible {numeral : Numeral} (h : numeral.Spells s) : Visible s := by
  obtain ⟨negative, hwhole, -, hfraction, hexponent⟩ := h
  simp only [visible_append]
  refine ⟨?_, hwhole.visible, hfraction.visible, hexponent.visible⟩
  cases negative <;> decide

end Numeral

namespace RawText

theorem le_of_hexDigit?_eq_some {d : Nat} (h : hexDigit? c = some d) : ' ' ≤ c := by
  unfold hexDigit? at h
  split at h
  · rename_i hrange
    exact Char.le_trans (by decide) hrange.1
  · split at h
    · rename_i hrange
      exact Char.le_trans (by decide) hrange.1
    · split at h
      · rename_i hrange
        exact Char.le_trans (by decide) hrange.1
      · cases h

theorem SpellsPiece.visible {piece : TextPiece} (h : SpellsPiece piece s) : Visible s := by
  cases h with
  | plain _ _ hcontrol => simp [hcontrol]
  | escaped hescape =>
    have hall : escapes.all (fun entry => ' ' ≤ entry.1) = true := by decide
    refine visible_of_le ?_
    simpa using of_decide_eq_true (List.all_eq_true.mp hall _ hescape)
  | @unit a b c d u hunit =>
    unfold hexUnit? at hunit
    split at hunit
    · rename_i ha hb hc hd
      refine visible_of_le ?_
      simp [le_of_hexDigit?_eq_some ha, le_of_hexDigit?_eq_some hb, le_of_hexDigit?_eq_some hc,
        le_of_hexDigit?_eq_some hd]
    · cases hunit

theorem SpellsPieces.visible {pieces : List TextPiece} (h : SpellsPieces pieces s) :
    Visible s := by
  induction h with
  | nil => simp
  | cons hpiece _ ih => exact visible_append.mpr ⟨hpiece.visible, ih⟩

theorem Spells.visible {text : RawText} (h : text.Spells s) : Visible s := by
  obtain ⟨hpieces⟩ := h
  simp only [visible_cons, visible_append, visible_nil, and_true]
  exact ⟨by decide, hpieces.visible, by decide⟩

end RawText

namespace RawValue

theorem visible_bracketed {opening closing : Char} (hs : Visible s)
    (hopening : RawText.isControl opening = false) (hclosing : RawText.isControl closing = false) :
    Visible (opening :: (s ++ [closing])) := by
  simp [hs, hopening, hclosing]

mutual

theorem Spells.visible {raw : RawValue} {s : List Char} (h : raw.Spells s) : Visible s := by
  cases h with
  | null => decide
  | bool b => cases b <;> decide
  | numeral hn => exact hn.visible
  | text ht => exact ht.visible
  | emptyArray hb => exact visible_bracketed hb.visible (by decide) (by decide)
  | array hitems => exact visible_bracketed hitems.visible (by decide) (by decide)
  | emptyObject hb => exact visible_bracketed hb.visible (by decide) (by decide)
  | object hentries => exact visible_bracketed hentries.visible (by decide) (by decide)

theorem SpellsItems.visible {items : List RawValue} {s : List Char}
    (h : SpellsItems items s) : Visible s := by
  cases h with
  | one hb hitem hb' => simp [hb.visible, hitem.visible, hb'.visible]
  | more hb hitem hb' hrest =>
    have hcomma : RawText.isControl ',' = false := by decide
    simp [hb.visible, hitem.visible, hb'.visible, hcomma, hrest.visible]

theorem SpellsEntries.visible {entries : List (RawText × RawValue)} {s : List Char}
    (h : SpellsEntries entries s) : Visible s := by
  have hcolon : RawText.isControl ':' = false := by decide
  have hcomma : RawText.isControl ',' = false := by decide
  cases h with
  | one hb hkey hc hd hitem he =>
    simp [hb.visible, hkey.visible, hc.visible, hcolon, hd.visible, hitem.visible,
      he.visible]
  | more hb hkey hc hd hitem he hrest =>
    simp [hb.visible, hkey.visible, hc.visible, hcolon, hd.visible, hitem.visible,
      he.visible, hcomma, hrest.visible]

end

end RawValue

theorem Json.HasText.visible {json : Json Int} {text : String} (h : json.HasText text) :
    Visible text.toList := by
  obtain ⟨raw, ⟨b, s, b', hb, hs, hb', heq⟩, -⟩ := h
  rw [heq]
  exact visible_append.mpr ⟨hb.visible,
    visible_append.mpr ⟨hs.visible, hb'.visible⟩⟩

end TokenInspector
