import TokenInspector.Json.Raw
import TokenInspector.Proofs.Source.Units

/-!
# The grammar of JSON text

`raw.Spells s`: `s` is written by the rules of JSON, without blanks around it, and has the tree
`raw`. The rules leave a choice: blanks between the parts, escapes in strings, the case of
hexadecimal digits and of the exponent mark.

`raw.Denotes json`: what the tree stands for, if its numbers are integers. A string stands for the
characters whose 16-bit units are written; a numeral stands for an integer if it has neither a
fraction nor an exponent and is not minus zero.

`json.HasText text` joins the two: `text` is a text of the value `json`.
-/

namespace TokenInspector

/-- Nothing but blanks. -/
def Blank (s : List Char) : Prop := ∀ c ∈ s, RawValue.isBlank c = true

/-! ### Numbers -/

namespace Numeral

/-- One or more decimal digits. -/
structure SpellsDigits (digits : List Nat) (s : List Char) : Prop where
  ne_nil : s ≠ []
  isDigit : ∀ c ∈ s, c.isDigit = true
  digits_eq : digits = s.map digitValue

/-- A point and digits, or nothing. -/
inductive SpellsFraction : Option (List Nat) → List Char → Prop
  | absent : SpellsFraction none []
  | digits {digits : List Nat} {s : List Char} : SpellsDigits digits s →
      SpellsFraction (some digits) ('.' :: s)

/-- The sign of an exponent: a minus, or a plus, which may be left out. -/
inductive SpellsSign : Bool → List Char → Prop
  | minus : SpellsSign true ['-']
  | plus : SpellsSign false ['+']
  | absent : SpellsSign false []

/-- A mark, a sign and digits, or nothing. -/
inductive SpellsExponent : Option Int → List Char → Prop
  | absent : SpellsExponent none []
  | digits {mark : Char} {negative : Bool} {digits : List Nat} {sign s : List Char} :
      mark = 'e' ∨ mark = 'E' → SpellsSign negative sign → SpellsDigits digits s →
      SpellsExponent (some (Double.signed negative (ofDigits digits))) (mark :: (sign ++ s))

/-- A sign, digits without a needless zero in front, and perhaps a fraction and an exponent. -/
inductive Spells : Numeral → List Char → Prop
  | mk {whole : List Nat} {fraction : Option (List Nat)} {exponent : Option Int}
      {w f e : List Char} (negative : Bool) :
      SpellsDigits whole w → (w.head? = some '0' → w = ['0']) → SpellsFraction fraction f →
      SpellsExponent exponent e →
      Spells ⟨negative, whole, fraction, exponent⟩
        ((if negative then ['-'] else []) ++ (w ++ (f ++ e)))

/-- Digits without a needless zero are a numeral, with or without a sign. -/
theorem spells_digits (negative : Bool) {s : List Char} (hne : s ≠ [])
    (h : s.all Char.isDigit = true) (hzero : s.head? = some '0' → s = ['0']) :
    Spells ⟨negative, s.map digitValue, none, none⟩ ((if negative then ['-'] else []) ++ s) := by
  have hdigits : SpellsDigits (s.map digitValue) s := ⟨hne, List.all_eq_true.mp h, rfl⟩
  simpa using Spells.mk negative hdigits hzero .absent .absent

/-- The integer that a numeral stands for. -/
structure Denotes (numeral : Numeral) (n : Int) : Prop where
  fraction : numeral.fraction = none
  exponent : numeral.exponent = none
  value : Double.signed numeral.negative (ofDigits numeral.whole) = n
  notMinusZero : numeral.negative = true → n ≠ 0

end Numeral

/-! ### Strings -/

namespace RawText

/-- The characters that may follow a backslash, and what they stand for. -/
def escapes : List (Char × Char) :=
  [('"', '"'), ('\\', '\\'), ('/', '/'), ('b', '\x08'), ('f', '\x0c'), ('n', '\n'), ('r', '\r'),
    ('t', '\t')]

/-- A character or a unit between quotes. -/
inductive SpellsPiece : TextPiece → List Char → Prop
  | plain {c : Char} : c ≠ '"' → c ≠ '\\' → isControl c = false → SpellsPiece (.char c) [c]
  | escaped {e c : Char} : (e, c) ∈ escapes → SpellsPiece (.char c) ['\\', e]
  | unit {a b c d : Char} {u : Nat} : hexUnit? a b c d = some u →
      SpellsPiece (.unit u) ['\\', 'u', a, b, c, d]

/-- What stands between quotes. -/
inductive SpellsPieces : List TextPiece → List Char → Prop
  | nil : SpellsPieces [] []
  | cons {piece : TextPiece} {pieces : List TextPiece} {s t : List Char} : SpellsPiece piece s →
      SpellsPieces pieces t → SpellsPieces (piece :: pieces) (s ++ t)

/-- A string with its quotes. -/
inductive Spells : RawText → List Char → Prop
  | mk {pieces : List TextPiece} {s : List Char} : SpellsPieces pieces s →
      Spells ⟨pieces, none⟩ ('"' :: (s ++ ['"']))

/-- Characters that stand for themselves between quotes. -/
def isPlain (c : Char) : Bool := c ≠ '"' && c ≠ '\\' && !isControl c

theorem spellsPieces_plain {s : List Char} (h : ∀ c ∈ s, isPlain c = true) :
    SpellsPieces (s.map .char) s := by
  induction s with
  | nil => exact .nil
  | cons c s ih =>
    obtain ⟨hc, hs⟩ := List.forall_mem_cons.mp h
    simp only [isPlain, Bool.and_eq_true, decide_eq_true_eq, Bool.not_eq_true'] at hc
    exact .cons (.plain hc.1.1 hc.1.2 hc.2) (ih hs)

/-- A name without quotes, backslashes and control characters is written as it stands. -/
theorem spells_plain {s : List Char} (h : s.all isPlain = true) :
    Spells ⟨s.map .char, none⟩ ('"' :: (s ++ ['"'])) :=
  .mk (spellsPieces_plain (List.all_eq_true.mp h))

/-- The characters that pieces stand for: a character stands for itself, and the units of a
character for that character. -/
inductive DenotesPieces : List TextPiece → List Char → Prop
  | nil : DenotesPieces [] []
  | char {c : Char} {pieces : List TextPiece} {s : List Char} : DenotesPieces pieces s →
      DenotesPieces (.char c :: pieces) (c :: s)
  | units {c : Char} {pieces : List TextPiece} {s : List Char} : DenotesPieces pieces s →
      DenotesPieces ((utf16Char c).map .unit ++ pieces) (c :: s)

/-- The text that a string stands for. -/
structure Denotes (t : RawText) (s : String) : Prop where
  flaw : t.flaw = none
  pieces : DenotesPieces t.pieces s.toList

end RawText

/-! ### Values -/

namespace RawValue

mutual

/-- A value. -/
inductive Spells : RawValue → List Char → Prop
  | null : Spells .null "null".toList
  | bool (b : Bool) : Spells (.bool b) (if b then "true".toList else "false".toList)
  | numeral {n : Numeral} {s : List Char} : n.Spells s → Spells (.numeral n) s
  | text {t : RawText} {s : List Char} : t.Spells s → Spells (.text t) s
  | emptyArray {b : List Char} : Blank b → Spells (.array [] none) ('[' :: (b ++ [']']))
  | array {items : List RawValue} {s : List Char} : SpellsItems items s →
      Spells (.array items none) ('[' :: (s ++ [']']))
  | emptyObject {b : List Char} : Blank b → Spells (.object [] none) ('\x7b' :: (b ++ ['\x7d']))
  | object {entries : List (RawText × RawValue)} {s : List Char} : SpellsEntries entries s →
      Spells (.object entries none) ('\x7b' :: (s ++ ['\x7d']))

/-- The items of an array, at least one, with commas between them. -/
inductive SpellsItems : List RawValue → List Char → Prop
  | one {item : RawValue} {b s b' : List Char} : Blank b → Spells item s → Blank b' →
      SpellsItems [item] (b ++ (s ++ b'))
  | more {item : RawValue} {items : List RawValue} {b s b' t : List Char} : Blank b →
      Spells item s → Blank b' → SpellsItems items t →
      SpellsItems (item :: items) (b ++ (s ++ (b' ++ ',' :: t)))

/-- The entries of an object, at least one, with commas between them. -/
inductive SpellsEntries : List (RawText × RawValue) → List Char → Prop
  | one {key : RawText} {item : RawValue} {b k c d s e : List Char} : Blank b → key.Spells k →
      Blank c → Blank d → Spells item s → Blank e →
      SpellsEntries [(key, item)] (b ++ (k ++ (c ++ ':' :: (d ++ (s ++ e)))))
  | more {key : RawText} {item : RawValue} {entries : List (RawText × RawValue)}
      {b k c d s e t : List Char} : Blank b → key.Spells k → Blank c → Blank d → Spells item s →
      Blank e → SpellsEntries entries t →
      SpellsEntries ((key, item) :: entries)
        (b ++ (k ++ (c ++ ':' :: (d ++ (s ++ (e ++ ',' :: t))))))

end

mutual

/-- What a tree stands for. -/
inductive Denotes : RawValue → Json Int → Prop
  | null : Denotes .null .null
  | bool (b : Bool) : Denotes (.bool b) (.bool b)
  | number {n : Numeral} {i : Int} : n.Denotes i → Denotes (.numeral n) (.number i)
  | text {t : RawText} {s : String} : t.Denotes s → Denotes (.text t) (.text s)
  | array {raws : List RawValue} {items : List (Json Int)} : DenotesItems raws items →
      Denotes (.array raws none) (.array items)
  | object {raws : List (RawText × RawValue)} {entries : List (String × Json Int)} :
      DenotesEntries raws entries → Denotes (.object raws none) (.object entries)

inductive DenotesItems : List RawValue → List (Json Int) → Prop
  | nil : DenotesItems [] []
  | cons {raw : RawValue} {raws : List RawValue} {item : Json Int} {items : List (Json Int)} :
      Denotes raw item → DenotesItems raws items → DenotesItems (raw :: raws) (item :: items)

inductive DenotesEntries : List (RawText × RawValue) → List (String × Json Int) → Prop
  | nil : DenotesEntries [] []
  | cons {key : RawText} {raw : RawValue} {raws : List (RawText × RawValue)} {name : String}
      {item : Json Int} {entries : List (String × Json Int)} : key.Denotes name →
      Denotes raw item → DenotesEntries raws entries →
      DenotesEntries ((key, raw) :: raws) ((name, item) :: entries)

end

/-- The whole text is a spelling of the tree, with blanks around it. -/
def IsTreeOf (raw : RawValue) (text : String) : Prop :=
  ∃ b s b', Blank b ∧ raw.Spells s ∧ Blank b' ∧ text.toList = b ++ (s ++ b')

theorem SpellsEntries.spells_of_mem {entries : List (RawText × RawValue)} {s : List Char}
    (h : SpellsEntries entries s) : ∀ entry ∈ entries, ∃ t, entry.2.Spells t := by
  induction entries generalizing s with
  | nil => simp
  | cons entry rest ih =>
    cases h with
    | one _ _ _ _ hitem _ => simpa using ⟨_, hitem⟩
    | more _ _ _ _ hitem _ hentries => exact List.forall_mem_cons.mpr ⟨⟨_, hitem⟩, ih hentries⟩

/-- The values of the entries of an object are written by the rules of JSON. -/
theorem IsTreeOf.spells_of_mem {entries : List (RawText × RawValue)} {text : String}
    (h : (RawValue.object entries none).IsTreeOf text) :
    ∀ entry ∈ entries, ∃ t, entry.2.Spells t := by
  obtain ⟨_, _, _, _, hspells, _, _⟩ := h
  cases hspells with
  | emptyObject _ => simp
  | object hentries => exact hentries.spells_of_mem

end RawValue

/-- The text is a text of the value, with or without blanks around it. -/
def Json.HasText (json : Json Int) (text : String) : Prop :=
  ∃ raw : RawValue, raw.IsTreeOf text ∧ raw.Denotes json

theorem Json.HasText.append_blank {json : Json Int} {text blanks : String} (h : json.HasText text)
    (hblanks : Blank blanks.toList) : json.HasText (text ++ blanks) := by
  obtain ⟨raw, ⟨b, s, b', hb, hs, hb', htext⟩, hdenotes⟩ := h
  refine ⟨raw, ⟨b, s, b' ++ blanks.toList, hb, hs, ?_, ?_⟩, hdenotes⟩
  · exact List.forall_mem_append.mpr ⟨hb', hblanks⟩
  · simp [htext]

end TokenInspector
