import TokenInspector.Json.Read
import TokenInspector.Proofs.Json.Grammar

/-!
# Scanning finds the tree

A text that spells a tree is scanned to that tree, whatever follows it (`Spells.scan_eq`). What
follows a number must not go on with it (`Ends`); after an item or an entry only a blank, a comma
or a closing bracket can stand.
-/

namespace TokenInspector

/-! ### Numbers -/

namespace Numeral

/-- The text does not go on with a number. -/
def Ends (rest : List Char) : Prop :=
  ∀ c ∈ rest.head?, c.isDigit = false ∧ c ≠ '.' ∧ c ≠ 'e' ∧ c ≠ 'E'

variable {digits : List Nat} {s rest : List Char}

theorem scanDigits_append (h : SpellsDigits digits s)
    (hrest : ∀ c ∈ rest.head?, c.isDigit = false) : scanDigits (s ++ rest) = (digits, rest) := by
  have hdrop : rest.dropWhile Char.isDigit = rest := by
    cases rest with
    | nil => rfl
    | cons c rest => exact List.dropWhile_cons_of_neg (by simpa using hrest c rfl)
  have htake : rest.takeWhile Char.isDigit = [] := by
    cases rest with
    | nil => rfl
    | cons c rest => exact List.takeWhile_cons_of_neg (by simpa using hrest c rfl)
  rw [scanDigits, List.takeWhile_append_of_pos h.isDigit, List.dropWhile_append_of_pos h.isDigit,
    hdrop, htake, List.append_nil, h.digits_eq]

theorem SpellsDigits.exists_cons (h : SpellsDigits digits s) :
    ∃ c t, s = c :: t ∧ c.isDigit = true := by
  cases s with
  | nil => exact absurd rfl h.ne_nil
  | cons c t => exact ⟨c, t, rfl, h.isDigit c List.mem_cons_self⟩

theorem scanPart_append (h : SpellsDigits digits s)
    (hrest : ∀ c ∈ rest.head?, c.isDigit = false) (complete : List Nat → List Char → Scanned) :
    scanPart (s ++ rest) complete = complete digits rest := by
  have hscan := scanDigits_append h hrest
  obtain ⟨c, t, rfl, hc⟩ := h.exists_cons
  rw [List.cons_append] at hscan ⊢
  rw [scanPart, if_pos hc, hscan]

theorem scanExponent_append {exponent : Option Int} (h : SpellsExponent exponent s)
    (hrest : Ends rest) (numeral : Numeral) (hnone : numeral.exponent = none) :
    scanExponent numeral (s ++ rest) = .complete { numeral with exponent := exponent } rest := by
  cases h with
  | absent =>
    rw [List.nil_append, ← hnone]
    unfold scanExponent
    split
    · exact absurd rfl (hrest _ rfl).2.2.1
    · exact absurd rfl (hrest _ rfl).2.2.2
    · rfl
  | @digits mark negative digits sign s hmark hsign hdigits =>
    have hpart := scanPart_append hdigits (fun c hc => (hrest c hc).1)
    have hsigned : scanSignedExponent numeral (sign ++ s ++ rest) =
        scanExponentDigits numeral negative (s ++ rest) := by
      obtain ⟨c, t, rfl, hc⟩ := hdigits.exists_cons
      cases hsign with
      | minus => rfl
      | plus => rfl
      | absent =>
        rw [List.nil_append, List.cons_append]
        unfold scanSignedExponent
        split
        · rename_i heq
          cases heq
          exact absurd hc (by decide)
        · rename_i heq
          cases heq
          exact absurd hc (by decide)
        · rfl
    have hmarked : scanExponent numeral (mark :: (sign ++ s) ++ rest) =
        scanSignedExponent numeral (sign ++ s ++ rest) := by
      rcases hmark with rfl | rfl <;> rfl
    rw [hmarked, hsigned, scanExponentDigits, hpart]

theorem not_isDigit_exponent {exponent : Option Int} (h : SpellsExponent exponent s)
    (hrest : Ends rest) : ∀ c ∈ (s ++ rest).head?, c.isDigit = false ∧ c ≠ '.' := by
  cases h with
  | absent => exact fun c hc => ⟨(hrest c hc).1, (hrest c hc).2.1⟩
  | digits hmark _ _ =>
    intro c hc
    simp only [List.cons_append, List.head?_cons, Option.mem_some_iff] at hc
    subst hc
    rcases hmark with rfl | rfl <;> decide

theorem scanFraction_append {fraction : Option (List Nat)} {exponent : Option Int}
    {f e : List Char} (hf : SpellsFraction fraction f) (he : SpellsExponent exponent e)
    (hrest : Ends rest) (negative : Bool) (whole : List Nat) :
    scanFraction ⟨negative, whole, none, none⟩ (f ++ (e ++ rest)) =
      .complete ⟨negative, whole, fraction, exponent⟩ rest := by
  have hstop := not_isDigit_exponent he hrest
  cases hf with
  | absent =>
    rw [List.nil_append]
    unfold scanFraction
    split
    · rename_i heq
      rw [heq] at hstop
      exact absurd rfl (hstop _ rfl).2
    · exact scanExponent_append he hrest ⟨negative, whole, none, none⟩ rfl
  | digits hdigits =>
    rw [List.cons_append, scanFraction, scanPart_append hdigits (fun c hc => (hstop c hc).1)]
    exact scanExponent_append he hrest _ rfl

theorem not_isDigit_fraction {fraction : Option (List Nat)} {exponent : Option Int}
    {f e : List Char} (hf : SpellsFraction fraction f) (he : SpellsExponent exponent e)
    (hrest : Ends rest) : ∀ c ∈ (f ++ (e ++ rest)).head?, c.isDigit = false := by
  cases hf with
  | absent => exact fun c hc => (not_isDigit_exponent he hrest c hc).1
  | digits _ =>
    intro c hc
    simp only [List.cons_append, List.head?_cons, Option.mem_some_iff] at hc
    subst hc
    decide

/-- A numeral is scanned as it is spelled. -/
theorem Spells.scan_eq {numeral : Numeral} (h : numeral.Spells s) (hrest : Ends rest) :
    scan (s ++ rest) = .complete numeral rest := by
  obtain ⟨negative, hwhole, hzero, hf, he⟩ := h
  rename_i whole fraction exponent w f e
  have hstop := not_isDigit_fraction hf he hrest
  have hscan : scanWhole negative (w ++ (f ++ (e ++ rest))) =
      .complete ⟨negative, whole, fraction, exponent⟩ rest := by
    obtain ⟨c, t, rfl, hc⟩ := hwhole.exists_cons
    by_cases hc0 : c = '0'
    · subst hc0
      cases hzero rfl
      have hwhole0 : whole = [0] := hwhole.digits_eq
      have hnone : ¬ (f ++ (e ++ rest)).head?.any Char.isDigit = true := by
        cases hhead : (f ++ (e ++ rest)).head? with
        | none => simp
        | some c => simpa using hstop c hhead
      rw [List.cons_append, List.nil_append, scanWhole, if_neg hnone, hwhole0]
      exact scanFraction_append hf he hrest negative [0]
    · have hpart := scanPart_append hwhole hstop
        (fun digits rest => scanFraction ⟨negative, digits, none, none⟩ rest)
      rw [List.cons_append] at hpart ⊢
      unfold scanWhole
      split
      · rename_i heq
        cases heq
        exact absurd rfl hc0
      · rw [hpart]
        exact scanFraction_append hf he hrest negative whole
  cases negative with
  | true =>
    simp only [if_true, List.cons_append, List.nil_append, List.append_assoc]
    exact hscan
  | false =>
    obtain ⟨c, t, rfl, hc⟩ := hwhole.exists_cons
    simp only [Bool.false_eq_true, if_false, List.nil_append, List.cons_append,
      List.append_assoc] at hscan ⊢
    unfold scan
    split
    · rename_i heq
      cases heq
      exact absurd hc (by decide)
    · exact hscan

end Numeral

/-! ### Strings -/

namespace RawText

theorem escaped?_of_mem {e c : Char} (h : (e, c) ∈ escapes) : escaped? e = some c ∧ e ≠ 'u' := by
  revert h
  simp only [escapes, List.mem_cons, Prod.mk.injEq, List.not_mem_nil, or_false]
  rintro (⟨rfl, rfl⟩ | ⟨rfl, rfl⟩ | ⟨rfl, rfl⟩ | ⟨rfl, rfl⟩ | ⟨rfl, rfl⟩ | ⟨rfl, rfl⟩ | ⟨rfl, rfl⟩ |
    ⟨rfl, rfl⟩) <;> decide

/-- A piece is scanned, whatever follows it. -/
theorem SpellsPiece.scan_append {piece : TextPiece} {s : List Char} (h : SpellsPiece piece s)
    (rest : List Char) : scan (s ++ rest) = prepend piece (scan rest) := by
  cases h with
  | plain hquote hslash hcontrol => simp [scan, hslash, hcontrol]
  | escaped hmem =>
    obtain ⟨hesc, hu⟩ := escaped?_of_mem hmem
    simp [scan, hesc, hu]
  | unit hunit => simp [scan, hunit]

theorem SpellsPieces.scan_append {pieces : List TextPiece} {s : List Char}
    (h : SpellsPieces pieces s) (rest : List Char) :
    scan (s ++ '"' :: rest) = (⟨pieces, none⟩, rest) := by
  induction h with
  | nil => simp [scan]
  | cons hpiece _ ih => rw [List.append_assoc, hpiece.scan_append, ih, prepend]

end RawText

/-! ### Values -/

namespace RawValue

/-- Scans items: the parts, and the text after them. -/
def itemsOf (s : List Char) : Parts RawValue × List Char := ((scanItems s).result, (scanItems s).rest)

def entriesOf (s : List Char) : Parts (RawText × RawValue) × List Char :=
  ((scanEntries s).result, (scanEntries s).rest)

theorem scan_def (s : List Char) : scan s =
    match skipBlanks s with
    | '[' :: inner =>
      match skipBlanks inner with
      | [] => (array [] (some .truncated), [])
      | ']' :: rest => (array [] none, rest)
      | _ :: _ => (array (itemsOf inner).1.1 (itemsOf inner).1.2, (itemsOf inner).2)
    | '\x7b' :: inner =>
      match skipBlanks inner with
      | '\x7d' :: rest => (object [] none, rest)
      | _ => (object (entriesOf inner).1.1 (entriesOf inner).1.2, (entriesOf inner).2)
    | start => scanScalar start := by
  rw [scan, scanValue]
  split
  · rename_i inner heq
    simp only [heq]
    split
    · rename_i heq'
      simp only [heq']
    · rename_i heq'
      simp only [heq']
    · rename_i c t hne heq'
      simp only [heq', itemsOf]
  · rename_i inner heq
    simp only [heq]
    split
    · rename_i heq'
      simp only [heq']
    · simp only [entriesOf]
  · simp only

theorem itemsOf_def (s : List Char) : itemsOf s =
    match skipBlanks (scan s).2 with
    | ']' :: rest => (([(scan s).1], none), rest)
    | ',' :: rest => (((scan s).1 :: (itemsOf rest).1.1, (itemsOf rest).1.2), (itemsOf rest).2)
    | [] => (([(scan s).1], some .truncated), [])
    | _ :: _ => (([(scan s).1], some .malformed), []) := by
  rw [itemsOf, scanItems]
  split
  rename_i item rest hrest heq
  simp only [scan, heq, itemsOf]
  split <;> rename_i heq <;> simp only [heq]

theorem entriesOf_def (s : List Char) : entriesOf s =
    match skipBlanks s with
    | '"' :: inner =>
      match skipBlanks (RawText.scan inner).2 with
      | ':' :: rest =>
        match skipBlanks (scan rest).2 with
        | '\x7d' :: last => (([((RawText.scan inner).1, (scan rest).1)], none), last)
        | ',' :: last => ((((RawText.scan inner).1, (scan rest).1) :: (entriesOf last).1.1,
            (entriesOf last).1.2), (entriesOf last).2)
        | [] => (([((RawText.scan inner).1, (scan rest).1)], some .truncated), [])
        | _ :: _ => (([((RawText.scan inner).1, (scan rest).1)], some .malformed), [])
      | [] => (([((RawText.scan inner).1, broken .truncated)], none), [])
      | _ :: _ => (([((RawText.scan inner).1, broken .malformed)], none), [])
    | [] => (([], some .truncated), [])
    | _ :: _ => (([], some .malformed), []) := by
  rw [entriesOf, scanEntries]
  split
  · rename_i heq
    simp only [heq]
    split
    · rename_i heq'
      simp only [heq']
      split <;> rename_i heq'' <;> simp only [scan, heq'', entriesOf]
    · rename_i heq'
      simp only [heq']
    · rename_i heq'
      simp only [heq']
  · rename_i heq
    simp only [heq]
  · rename_i heq
    simp only [heq]

theorem skipBlanks_append {b : List Char} (hb : Blank b) {c : Char} (hc : isBlank c = false)
    (rest : List Char) : skipBlanks (b ++ c :: rest) = c :: rest := by
  rw [skipBlanks, List.dropWhile_append_of_pos hb, List.dropWhile_cons_of_neg (by simp [hc])]

theorem scanWord_append (word : List Char) (value : RawValue) (rest : List Char) :
    scanWord word value (word ++ rest) = (value, rest) := by
  induction word with
  | nil => rfl
  | cons c word ih => rw [List.cons_append, scanWord, if_pos rfl, ih]

/-- What may follow a value: nothing, or a blank, a comma or a closing bracket. -/
theorem ends_of_head {rest : List Char}
    (h : ∀ c ∈ rest.head?, isBlank c = true ∨ c = ',' ∨ c = ']' ∨ c = '\x7d') :
    Numeral.Ends rest := by
  intro c hc
  have hclass := h c hc
  simp only [isBlank, Bool.or_eq_true, decide_eq_true_eq] at hclass
  rcases hclass with (((rfl | rfl) | rfl) | rfl) | rfl | rfl | rfl <;> decide

theorem ends_of_blank {b : List Char} (hb : Blank b) {c : Char}
    (hc : c = ',' ∨ c = ']' ∨ c = '\x7d') (rest : List Char) : Numeral.Ends (b ++ c :: rest) := by
  refine ends_of_head fun d hd => ?_
  cases b with
  | nil =>
    cases hd
    exact .inr hc
  | cons e b =>
    cases hd
    exact .inl (hb _ List.mem_cons_self)

theorem isBlank_of_isDigit {c : Char} (h : (c = '-' || c.isDigit) = true) : isBlank c = false := by
  cases hc : isBlank c with
  | false => rfl
  | true =>
    simp only [isBlank, Bool.or_eq_true, decide_eq_true_eq] at hc
    rcases hc with ((rfl | rfl) | rfl) | rfl <;> exact absurd h (by decide)

/-- The first character of a numeral. -/
theorem exists_cons_of_numeral {n : Numeral} {s : List Char} (h : n.Spells s) :
    ∃ c t, s = c :: t ∧ (c = '-' || c.isDigit) = true := by
  obtain ⟨negative, hwhole, -, -, -⟩ := h
  cases negative with
  | true => exact ⟨_, _, rfl, by decide⟩
  | false =>
    obtain ⟨c, t, rfl, hc⟩ := hwhole.exists_cons
    exact ⟨c, _, rfl, by simp [hc]⟩

theorem scan_of_numeral {s t : List Char} {c : Char} (h : skipBlanks s = c :: t)
    (hc : (c = '-' || c.isDigit) = true) :
    scan s = (ofNumeral (Numeral.scan (c :: t)), (Numeral.scan (c :: t)).rest) := by
  have hne : c ≠ '[' ∧ c ≠ '\x7b' ∧ c ≠ '"' ∧ c ≠ 'n' ∧ c ≠ 't' ∧ c ≠ 'f' := by
    refine ⟨?_, ?_, ?_, ?_, ?_, ?_⟩ <;> rintro rfl <;> exact absurd hc (by decide)
  rw [scan_def, h]
  simp [scanScalar, hne, hc]

theorem scan_of_quote {s t : List Char} (h : skipBlanks s = '"' :: t) :
    scan s = (text (RawText.scan t).1, (RawText.scan t).2) := by
  rw [scan_def, h]
  rfl

/-- The first character of a value is neither a blank nor a closing bracket. -/
theorem Spells.exists_cons {raw : RawValue} {s : List Char} (h : raw.Spells s) :
    ∃ c t, s = c :: t ∧ isBlank c = false ∧ c ≠ ']' := by
  cases h with
  | null => exact ⟨_, _, rfl, by decide, by decide⟩
  | bool b => cases b <;> exact ⟨_, _, rfl, by decide, by decide⟩
  | numeral hn =>
    obtain ⟨c, t, hs, hc⟩ := exists_cons_of_numeral hn
    refine ⟨c, t, hs, isBlank_of_isDigit hc, ?_⟩
    rintro rfl
    exact absurd hc (by decide)
  | text ht =>
    cases ht
    exact ⟨_, _, rfl, by decide, by decide⟩
  | emptyArray _ | array _ | emptyObject _ | object _ => exact ⟨_, _, rfl, by decide, by decide⟩

theorem SpellsItems.exists_cons {items : List RawValue} {s : List Char} (h : SpellsItems items s)
    (rest : List Char) : ∃ c t, skipBlanks (s ++ rest) = c :: t ∧ c ≠ ']' := by
  cases h with
  | one hb hitem _ | more hb hitem _ _ =>
    obtain ⟨c, t, rfl, hblank, hc⟩ := hitem.exists_cons
    simp only [List.append_assoc, List.cons_append]
    exact ⟨c, _, skipBlanks_append hb hblank _, hc⟩

theorem SpellsEntries.exists_cons {entries : List (RawText × RawValue)} {s : List Char}
    (h : SpellsEntries entries s) (rest : List Char) : ∃ t, skipBlanks (s ++ rest) = '"' :: t := by
  cases h with
  | one hb hkey _ _ _ _ | more hb hkey _ _ _ _ _ =>
    cases hkey
    simp only [List.append_assoc, List.cons_append]
    exact ⟨_, skipBlanks_append hb (by decide) _⟩

mutual

/-- A value is scanned to its tree, whatever follows it. -/
theorem Spells.scan_eq {raw : RawValue} {s : List Char} (h : raw.Spells s) {b rest : List Char}
    (hb : Blank b) (hrest : Numeral.Ends rest) : scan (b ++ (s ++ rest)) = (raw, rest) := by
  obtain ⟨c, t, hs, hblank, -⟩ := h.exists_cons
  have hskip : skipBlanks (b ++ (s ++ rest)) = s ++ rest := by
    rw [hs, List.cons_append, skipBlanks_append hb hblank]
  cases h with
  | null =>
    rw [scan_def, hskip]
    exact scanWord_append _ _ _
  | bool b =>
    rw [scan_def, hskip]
    cases b <;> exact scanWord_append _ _ _
  | numeral hn =>
    obtain ⟨c, t, hs, hc⟩ := exists_cons_of_numeral hn
    have hscan := hn.scan_eq hrest
    rw [hs, List.cons_append] at hskip hscan
    rw [hs, List.cons_append, scan_of_numeral hskip hc, hscan]
    rfl
  | text ht =>
    obtain ⟨hpieces⟩ := ht
    have hscan := hpieces.scan_append rest
    simp only [List.cons_append, List.append_assoc, List.nil_append] at hskip ⊢
    rw [scan_of_quote hskip, hscan]
  | emptyArray hb =>
    have hclose := skipBlanks_append hb (by decide) (c := ']') rest
    rw [scan_def, hskip]
    simp only [List.cons_append, List.append_assoc, List.nil_append, hclose]
  | array hitems =>
    have hparts := hitems.itemsOf_eq rest
    obtain ⟨c, t, hfirst, hc⟩ := hitems.exists_cons (']' :: rest)
    rw [scan_def, hskip]
    simp only [List.cons_append, List.append_assoc, List.nil_append, hfirst, hparts]
  | emptyObject hb =>
    have hclose := skipBlanks_append hb (by decide) (c := '\x7d') rest
    rw [scan_def, hskip]
    simp only [List.cons_append, List.append_assoc, List.nil_append, hclose]
  | object hentries =>
    have hparts := hentries.entriesOf_eq rest
    obtain ⟨t, hfirst⟩ := hentries.exists_cons ('\x7d' :: rest)
    rw [scan_def, hskip]
    simp only [List.cons_append, List.append_assoc, List.nil_append, hfirst, hparts]
    rfl

theorem SpellsItems.itemsOf_eq {items : List RawValue} {s : List Char} (h : SpellsItems items s)
    (rest : List Char) : itemsOf (s ++ ']' :: rest) = ((items, none), rest) := by
  cases h with
  | one hb hitem hb' =>
    have hscan := hitem.scan_eq hb (ends_of_blank hb' (.inr (.inl rfl)) rest)
    have hskip := skipBlanks_append hb' (by decide) (c := ']') rest
    rw [itemsOf_def]
    simp only [List.append_assoc, hscan, hskip]
  | more hb hitem hb' hitems =>
    rename_i items b s b' t
    have hparts := hitems.itemsOf_eq rest
    have hscan := hitem.scan_eq hb (ends_of_blank hb' (.inl rfl) (t ++ ']' :: rest))
    have hskip := skipBlanks_append hb' (by decide) (c := ',') (t ++ ']' :: rest)
    rw [itemsOf_def]
    simp only [List.append_assoc, List.cons_append, hscan, hskip, hparts]

theorem SpellsEntries.entriesOf_eq {entries : List (RawText × RawValue)} {s : List Char}
    (h : SpellsEntries entries s) (rest : List Char) :
    entriesOf (s ++ '\x7d' :: rest) = ((entries, none), rest) := by
  cases h with
  | one hb hkey hc hd hitem he =>
    obtain ⟨hpieces⟩ := hkey
    rename_i c d s e pieces k
    have hquote := skipBlanks_append hb (by decide) (c := '"')
      (k ++ '"' :: (c ++ ':' :: (d ++ (s ++ (e ++ '\x7d' :: rest)))))
    have htext := hpieces.scan_append (c ++ ':' :: (d ++ (s ++ (e ++ '\x7d' :: rest))))
    have hcolon := skipBlanks_append hc (by decide) (c := ':') (d ++ (s ++ (e ++ '\x7d' :: rest)))
    have hscan := hitem.scan_eq hd (ends_of_blank he (.inr (.inr rfl)) rest)
    have hskip := skipBlanks_append he (by decide) (c := '\x7d') rest
    rw [entriesOf_def]
    simp only [List.append_assoc, List.cons_append, List.nil_append, hquote, htext, hcolon, hscan,
      hskip]
  | more hb hkey hc hd hitem he hentries =>
    obtain ⟨hpieces⟩ := hkey
    rename_i entries c d s e t pieces k
    have hquote := skipBlanks_append hb (by decide) (c := '"')
      (k ++ '"' :: (c ++ ':' :: (d ++ (s ++ (e ++ ',' :: (t ++ '\x7d' :: rest))))))
    have htext := hpieces.scan_append
      (c ++ ':' :: (d ++ (s ++ (e ++ ',' :: (t ++ '\x7d' :: rest)))))
    have hcolon := skipBlanks_append hc (by decide) (c := ':')
      (d ++ (s ++ (e ++ ',' :: (t ++ '\x7d' :: rest))))
    have hscan := hitem.scan_eq hd (ends_of_blank he (.inl rfl) (t ++ '\x7d' :: rest))
    have hskip := skipBlanks_append he (by decide) (c := ',') (t ++ '\x7d' :: rest)
    have hparts := hentries.entriesOf_eq rest
    rw [entriesOf_def]
    simp only [List.append_assoc, List.cons_append, List.nil_append, hquote, htext, hcolon, hscan,
      hskip, hparts]

end

end RawValue

/-- A text that spells a tree is scanned to it. -/
theorem Document.ofText_eq {raw : RawValue} {text : String} (h : raw.IsTreeOf text) :
    Document.ofText text = ⟨raw, false⟩ := by
  obtain ⟨b, s, b', hb, hs, hb', htext⟩ := h
  have hends : Numeral.Ends b' :=
    RawValue.ends_of_head fun c hc => .inl (hb' c (List.mem_of_mem_head? hc))
  have hskip : RawValue.skipBlanks b' = [] := by
    rw [RawValue.skipBlanks, ← List.append_nil b', List.dropWhile_append_of_pos hb']
    rfl
  simp [Document.ofText, htext, hs.scan_eq hb hends, hskip]

/-- A reader gets the tree of a text that spells one. -/
theorem Document.read_ofText {α : Type} {raw : RawValue} {text : String} (h : raw.IsTreeOf text)
    (reader : RawValue → Except Problem α) : (Document.ofText text).read reader = reader raw := by
  rw [Document.ofText_eq h, Document.read]
  cases reader raw <;> rfl

end TokenInspector
