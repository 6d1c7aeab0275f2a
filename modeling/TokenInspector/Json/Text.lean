import TokenInspector.Json.Basic

/-!
# Strings in JSON text

`RawText.scan` splits the text after an opening quote into pieces, characters and `\u` units, up
to the closing quote or the first flaw. `RawText.decode` joins the units that form surrogate pairs
and refuses those that do not; a string that is only skipped is never decoded. `quoted` writes a
string.
-/

namespace TokenInspector

/-- A piece of a string: a character, or a 16-bit unit written as `\u` and four digits. -/
inductive TextPiece where
  | char (c : Char)
  | unit (u : Nat)
  deriving DecidableEq, Repr

/-- A string as scanned: its pieces, and what is wrong after them, if anything. -/
structure RawText where
  pieces : List TextPiece
  flaw : Option Problem
  deriving DecidableEq, Repr

namespace RawText

/-- The value of a hexadecimal digit of either case. -/
def hexDigit? (c : Char) : Option Nat :=
  if '0' ≤ c ∧ c ≤ '9' then some (c.toNat - '0'.toNat)
  else if 'a' ≤ c ∧ c ≤ 'f' then some (c.toNat - 'a'.toNat + 10)
  else if 'A' ≤ c ∧ c ≤ 'F' then some (c.toNat - 'A'.toNat + 10)
  else none

/-- The unit that four hexadecimal digits spell. -/
def hexUnit? (a b c d : Char) : Option Nat :=
  match hexDigit? a, hexDigit? b, hexDigit? c, hexDigit? d with
  | some a, some b, some c, some d => some (((a * 16 + b) * 16 + c) * 16 + d)
  | _, _, _, _ => none

/-- The character that a backslash and `c` stand for. -/
def escaped? (c : Char) : Option Char :=
  match c with
  | '"' => some '"'
  | '\\' => some '\\'
  | '/' => some '/'
  | 'b' => some '\x08'
  | 'f' => some '\x0c'
  | 'n' => some '\n'
  | 'r' => some '\r'
  | 't' => some '\t'
  | _ => none

/-- Control characters may not stand in a string. -/
def isControl (c : Char) : Bool := c.toNat < 0x20

/-- A string that breaks off here. -/
def broken (problem : Problem) : RawText × List Char := (⟨[], some problem⟩, [])

/-- Adds a piece in front of what the rest of the text gives. -/
def prepend (piece : TextPiece) (scanned : RawText × List Char) : RawText × List Char :=
  (⟨piece :: scanned.1.pieces, scanned.1.flaw⟩, scanned.2)

/-- What is wrong with a `\u` that is not followed by four hexadecimal digits: a text with fewer
than four bytes left has ended too early. -/
def unitProblem (rest : List Char) : Problem :=
  if (String.ofList rest).utf8ByteSize < 4 then .truncated else .malformed

/-- Scans a string from after its opening quote; gives the text after the closing quote. -/
def scan : List Char → RawText × List Char
  | [] => broken .truncated
  | '"' :: rest => (⟨[], none⟩, rest)
  | '\\' :: [] => broken .truncated
  | '\\' :: 'u' :: a :: b :: c :: d :: rest =>
    match hexUnit? a b c d with
    | some u => prepend (.unit u) (scan rest)
    | none => broken .malformed
  | '\\' :: 'u' :: rest => broken (unitProblem rest)
  | '\\' :: c :: rest =>
    match escaped? c with
    | some d => prepend (.char d) (scan rest)
    | none => broken .malformed
  | c :: rest => if isControl c then broken .malformed else prepend (.char c) (scan rest)

theorem length_scan_le (s : List Char) : (scan s).2.length ≤ s.length := by
  fun_induction scan s <;> simp_all [broken, prepend] <;> omega

/-- Leading units open a surrogate pair. -/
def isLeading (u : Nat) : Bool := 0xD800 ≤ u && u ≤ 0xDBFF

/-- Trailing units close a surrogate pair. -/
def isTrailing (u : Nat) : Bool := 0xDC00 ≤ u && u ≤ 0xDFFF

/-- The character of a surrogate pair. -/
def pair (leading trailing : Nat) : Char :=
  Char.ofNat ((leading - 0xD800) * 0x400 + (trailing - 0xDC00) + 0x10000)

/-- The characters of a string: a unit is a character of its own or half of a surrogate pair. -/
def decodePieces : List TextPiece → Option Problem → Except Problem (List Char)
  | [], none => .ok []
  | [], some problem => .error problem
  | .char c :: rest, flaw => do return c :: (← decodePieces rest flaw)
  | .unit u :: .unit v :: rest, flaw =>
    if isTrailing u then .error .malformed
    else if isLeading u then
      if isTrailing v then do return pair u v :: (← decodePieces rest flaw)
      else .error .malformed
    else do return Char.ofNat u :: (← decodePieces (.unit v :: rest) flaw)
  | .unit u :: .char c :: rest, flaw =>
    if isTrailing u || isLeading u then .error .malformed
    else do return Char.ofNat u :: (← decodePieces (.char c :: rest) flaw)
  | [.unit u], flaw =>
    if isTrailing u then .error .malformed
    else if isLeading u then .error (flaw.getD .malformed)
    else do return Char.ofNat u :: (← decodePieces [] flaw)

/-- The string that a scanned string spells. -/
def decode (text : RawText) : Except Problem String :=
  (decodePieces text.pieces text.flaw).map String.ofList

/-! ### Writing -/

/-- The hexadecimal digit of a number below 16, in lower case. -/
def hexChar (n : Nat) : Char := n.digitChar

/-- How a character is written between quotes: quotes, backslashes and control characters are
escaped, all else stands for itself. -/
def escape (c : Char) : List Char :=
  match c with
  | '"' => ['\\', '"']
  | '\\' => ['\\', '\\']
  | '\x08' => ['\\', 'b']
  | '\x0c' => ['\\', 'f']
  | '\n' => ['\\', 'n']
  | '\r' => ['\\', 'r']
  | '\t' => ['\\', 't']
  | c =>
    if isControl c then ['\\', 'u', '0', '0', hexChar (c.toNat / 16), hexChar (c.toNat % 16)]
    else [c]

/-- A string as JSON text. -/
def quoted (s : String) : List Char := '"' :: s.toList.flatMap escape ++ ['"']

end RawText

end TokenInspector
