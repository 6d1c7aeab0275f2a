import TokenInspector.Json.Text
import TokenInspector.Json.Numeral

/-!
# The tree of a JSON text

`RawValue.scan` builds the tree of a text as far as the text can be scanned. The first flaw stays
in the tree at the place where it was met, and nothing is scanned after it, so a reader that walks
the tree from left to right meets the problems of the text in the order of the text. Whether a
number is in range or a string decodes is left to the reader. `Document.ofText` scans a whole text.
-/

namespace TokenInspector

/-- A value as scanned. The `flaw` of an array or object is what stands in the place of its closing
bracket, `none` if the bracket is there. -/
inductive RawValue where
  | null
  | bool (b : Bool)
  | numeral (n : Numeral)
  /-- The text ends inside a number. -/
  | cutNumeral
  | text (t : RawText)
  | array (items : List RawValue) (flaw : Option Problem)
  | object (entries : List (RawText × RawValue)) (flaw : Option Problem)
  /-- No value can be scanned here. -/
  | broken (problem : Problem)
  deriving Repr

namespace RawValue

/-- Blanks between the parts of a text: space, tab, line feed, carriage return. -/
def isBlank (c : Char) : Bool := c = ' ' || c = '\t' || c = '\n' || c = '\r'

/-- The text from its first character that is not blank. -/
def skipBlanks (s : List Char) : List Char := s.dropWhile isBlank

theorem length_skipBlanks_le (s : List Char) : (skipBlanks s).length ≤ s.length :=
  (List.dropWhile_sublist _).length_le

/-- Scans the rest of a word such as `null`. -/
def scanWord (word : List Char) (value : RawValue) (s : List Char) : RawValue × List Char :=
  match word, s with
  | [], s => (value, s)
  | _ :: _, [] => (broken .truncated, [])
  | w :: word, c :: s => if c = w then scanWord word value s else (broken .malformed, [])

theorem length_scanWord_le (word : List Char) (value : RawValue) (s : List Char) :
    (scanWord word value s).2.length ≤ s.length := by
  fun_induction scanWord word value s with
  | case1 => exact Nat.le_refl _
  | case2 => exact Nat.zero_le _
  | case3 word c s ih => exact Nat.le_succ_of_le ih
  | case4 => exact Nat.zero_le _

/-- The value that a scanned number is. -/
def ofNumeral : Numeral.Scanned → RawValue
  | .complete n _ => numeral n
  | .cut => cutNumeral
  | .bad => broken .malformed

/-- Scans a value that is neither an array nor an object. -/
def scanScalar (s : List Char) : RawValue × List Char :=
  match s with
  | [] => (broken .truncated, [])
  | '"' :: rest => (text (RawText.scan rest).1, (RawText.scan rest).2)
  | 'n' :: rest => scanWord "ull".toList null rest
  | 't' :: rest => scanWord "rue".toList (bool true) rest
  | 'f' :: rest => scanWord "alse".toList (bool false) rest
  | c :: _ =>
    if c = '-' || c.isDigit then (ofNumeral (Numeral.scan s), (Numeral.scan s).rest)
    else (broken .malformed, [])

theorem length_scanScalar_le (s : List Char) : (scanScalar s).2.length ≤ s.length := by
  unfold scanScalar
  split
  · exact Nat.le_refl _
  · exact Nat.le_succ_of_le (RawText.length_scan_le _)
  · exact Nat.le_succ_of_le (length_scanWord_le _ _ _)
  · exact Nat.le_succ_of_le (length_scanWord_le _ _ _)
  · exact Nat.le_succ_of_le (length_scanWord_le _ _ _)
  · split
    · exact Numeral.length_scan_le _
    · exact Nat.zero_le _

theorem length_lt_of_eq_cons {s : List Char} {c : Char} {rest : List Char} {n : Nat}
    (h : s = c :: rest) (hs : s.length ≤ n) : rest.length < n := by
  rwa [h, List.length_cons] at hs

/-- What was scanned from `s`, and the text left after it. -/
structure Scanned (α : Type) (s : List Char) where
  result : α
  rest : List Char
  length_le : rest.length ≤ s.length

/-- The parts of an array or object, and what stands in the place of the closing bracket. -/
abbrev Parts (α : Type) := List α × Option Problem

mutual

/-- Scans a value, blanks in front of it included. -/
def scanValue (s : List Char) : Scanned RawValue s :=
  have blanks := length_skipBlanks_le s
  match h : skipBlanks s with
  | '[' :: inner =>
    have := length_lt_of_eq_cons h blanks
    have blanks' := length_skipBlanks_le inner
    match h' : skipBlanks inner with
    | [] => ⟨array [] (some .truncated), [], Nat.zero_le _⟩
    | ']' :: rest => ⟨array [] none, rest, by have := length_lt_of_eq_cons h' blanks'; omega⟩
    | _ :: _ =>
      let ⟨(items, flaw), rest, hrest⟩ := scanItems inner
      ⟨array items flaw, rest, by omega⟩
  | '\x7b' :: inner =>
    have := length_lt_of_eq_cons h blanks
    have blanks' := length_skipBlanks_le inner
    match h' : skipBlanks inner with
    | '\x7d' :: rest => ⟨object [] none, rest, by have := length_lt_of_eq_cons h' blanks'; omega⟩
    | _ =>
      let ⟨(entries, flaw), rest, hrest⟩ := scanEntries inner
      ⟨object entries flaw, rest, by omega⟩
  | start =>
    ⟨(scanScalar start).1, (scanScalar start).2, by
      rw [h] at blanks
      exact Nat.le_trans (length_scanScalar_le start) blanks⟩
termination_by (s.length, 0)

/-- Scans the items of an array, at least one, and its closing bracket. -/
def scanItems (s : List Char) : Scanned (Parts RawValue) s :=
  let ⟨item, rest, hrest⟩ := scanValue s
  have blanks := length_skipBlanks_le rest
  match h : skipBlanks rest with
  | ']' :: rest' => ⟨([item], none), rest', by have := length_lt_of_eq_cons h blanks; omega⟩
  | ',' :: rest' =>
    have := length_lt_of_eq_cons h blanks
    let ⟨(items, flaw), rest'', hrest'⟩ := scanItems rest'
    ⟨(item :: items, flaw), rest'', by omega⟩
  | [] => ⟨([item], some .truncated), [], Nat.zero_le _⟩
  | _ :: _ => ⟨([item], some .malformed), [], Nat.zero_le _⟩
termination_by (s.length, 1)

/-- Scans the entries of an object, at least one, and its closing bracket. -/
def scanEntries (s : List Char) : Scanned (Parts (RawText × RawValue)) s :=
  have blanks := length_skipBlanks_le s
  match h : skipBlanks s with
  | '"' :: inner =>
    let key := (RawText.scan inner).1
    have keyRest := RawText.length_scan_le inner
    have blanks' := length_skipBlanks_le (RawText.scan inner).2
    match h' : skipBlanks (RawText.scan inner).2 with
    | ':' :: rest =>
      have := length_lt_of_eq_cons h blanks
      have := length_lt_of_eq_cons h' blanks'
      let ⟨value, rest', hrest⟩ := scanValue rest
      have blanks'' := length_skipBlanks_le rest'
      match h'' : skipBlanks rest' with
      | '\x7d' :: last =>
        ⟨([(key, value)], none), last, by have := length_lt_of_eq_cons h'' blanks''; omega⟩
      | ',' :: last =>
        have := length_lt_of_eq_cons h'' blanks''
        let ⟨(entries, flaw), rest'', hrest'⟩ := scanEntries last
        ⟨((key, value) :: entries, flaw), rest'', by omega⟩
      | [] => ⟨([(key, value)], some .truncated), [], Nat.zero_le _⟩
      | _ :: _ => ⟨([(key, value)], some .malformed), [], Nat.zero_le _⟩
    | [] => ⟨([(key, broken .truncated)], none), [], Nat.zero_le _⟩
    | _ :: _ => ⟨([(key, broken .malformed)], none), [], Nat.zero_le _⟩
  | [] => ⟨([], some .truncated), [], Nat.zero_le _⟩
  | _ :: _ => ⟨([], some .malformed), [], Nat.zero_le _⟩
termination_by (s.length, 1)

end

/-- Scans a value: its tree, and the text after it. -/
def scan (s : List Char) : RawValue × List Char := ((scanValue s).result, (scanValue s).rest)

end RawValue

/-- A whole text: its value, and whether more than blanks follows the value. -/
structure Document where
  root : RawValue
  trailing : Bool
  deriving Repr

/-- Scans a whole text. -/
def Document.ofText (text : String) : Document :=
  let (root, rest) := RawValue.scan text.toList
  ⟨root, !(RawValue.skipBlanks rest).isEmpty⟩

end TokenInspector
