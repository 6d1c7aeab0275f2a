/-!
# Integer literals

A literal is an optional minus sign and digits, decimal or after a base mark `0x` or `0b`, in either
case of the mark and of the digits. Underscores may stand anywhere after the sign. The value must
fit 64 bits.
-/

namespace TokenInspector

/-- Why the digits of a literal are refused. -/
inductive DigitProblem where
  | noDigits
  | invalidDigit
  /-- The digits do not fit 64 bits. -/
  | tooLarge
  deriving DecidableEq, Repr

def DigitProblem.message : DigitProblem → String
  | noDigits => "cannot parse integer from empty string"
  | invalidDigit => "invalid digit found in string"
  | tooLarge => "number too large to fit in target type"

/-- Why a literal is refused. -/
inductive LiteralProblem where
  /-- A sign stands where the digits should begin. -/
  | unexpectedSign
  | digits (problem : DigitProblem)
  /-- The digits fit 64 bits, but the value with its sign does not. -/
  | outOfRange
  deriving DecidableEq, Repr

def LiteralProblem.message : LiteralProblem → String
  | unexpectedSign => "unexpected sign"
  | digits problem => problem.message
  | outOfRange => "out of range for i64"

namespace Literal

/-- The value of an ASCII digit or letter in a base. -/
def digit? (base : Nat) (c : Char) : Option Nat :=
  let value? :=
    if '0' ≤ c ∧ c ≤ '9' then some (c.toNat - '0'.toNat)
    else if 'a' ≤ c ∧ c ≤ 'z' then some (c.toNat - 'a'.toNat + 10)
    else if 'A' ≤ c ∧ c ≤ 'Z' then some (c.toNat - 'A'.toNat + 10)
    else none
  value?.filter (· < base)

/-- Reads digits from left to right after digits of value `read`. -/
def readDigits (base read : Nat) : List Char → Except DigitProblem Nat
  | [] => .ok read
  | c :: rest =>
    match digit? base c with
    | none => .error .invalidDigit
    | some digit =>
      if read * base + digit < UInt64.size then readDigits base (read * base + digit) rest
      else .error .tooLarge

/-- Reads an unsigned integer of 64 bits, at least one digit. -/
def magnitude (base : Nat) (digits : List Char) : Except DigitProblem Nat :=
  if digits.isEmpty then .error .noDigits else readDigits base 0 digits

/-- Splits off a base mark: the base, and the digits after the mark. -/
def splitBase (digits : List Char) : Nat × List Char :=
  match digits with
  | '0' :: 'x' :: rest | '0' :: 'X' :: rest => (16, rest)
  | '0' :: 'b' :: rest | '0' :: 'B' :: rest => (2, rest)
  | digits => (10, digits)

/-- Splits off one minus sign: whether there is one, and the text after it. -/
def splitSign (literal : List Char) : Bool × List Char :=
  match literal with
  | '-' :: rest => (true, rest)
  | literal => (false, literal)

def startsWithSign (digits : List Char) : Bool :=
  digits.head?.any fun c => c = '-' || c = '+'

/-- Reads a literal. -/
def read (literal : List Char) : Except LiteralProblem Int64 := do
  let (negative, unsigned) := splitSign literal
  let (base, digits) := splitBase (unsigned.filter (· ≠ '_'))
  if startsWithSign digits then throw .unexpectedSign
  let magnitude ← (magnitude base digits).mapError .digits
  let value : Int := if negative then -magnitude else magnitude
  if Int64.minValue.toInt ≤ value ∧ value ≤ Int64.maxValue.toInt then return Int64.ofInt value
  else throw .outOfRange

/-- Reads a text as a literal. -/
def ofText (text : String) : Except LiteralProblem Int64 := read text.toList

end Literal

/-- The message for a text that is no literal. -/
def LiteralProblem.describe (problem : LiteralProblem) (text : String) : String :=
  s!"invalid value '{text}': {problem.message}"

end TokenInspector
