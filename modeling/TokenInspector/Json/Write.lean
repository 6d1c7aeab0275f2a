import TokenInspector.Json.Text

/-!
# Writing JSON text

`Json.compact` writes a value without blanks. `Json.pretty` writes every item and entry on a line
of its own, indented by two spaces a level. Both write entries in their order.
-/

namespace TokenInspector

namespace Json

/-- An integer in decimal digits. -/
def decimal (n : Int) : List Char :=
  if n < 0 then '-' :: Nat.toDigits 10 n.natAbs else Nat.toDigits 10 n.natAbs

mutual

def compactChars : Json Int → List Char
  | null => "null".toList
  | bool b => if b then "true".toList else "false".toList
  | number n => decimal n
  | text s => RawText.quoted s
  | array items => '[' :: compactItems items ++ [']']
  | object entries => '\x7b' :: compactEntries entries ++ ['\x7d']

/-- The items with a comma between two of them. -/
def compactItems : List (Json Int) → List Char
  | [] => []
  | [item] => compactChars item
  | item :: next :: rest => compactChars item ++ ',' :: compactItems (next :: rest)

/-- The entries with a comma between two of them. -/
def compactEntries : List (String × Json Int) → List Char
  | [] => []
  | [(key, item)] => RawText.quoted key ++ ':' :: compactChars item
  | (key, item) :: next :: rest =>
    RawText.quoted key ++ ':' :: compactChars item ++ ',' :: compactEntries (next :: rest)

end

/-- A line break and the indentation of a level. -/
def newline (level : Nat) : List Char := '\n' :: List.replicate (2 * level) ' '

mutual

def prettyChars (level : Nat) : Json Int → List Char
  | null => "null".toList
  | bool b => if b then "true".toList else "false".toList
  | number n => decimal n
  | text s => RawText.quoted s
  | array [] => "[]".toList
  | array (item :: rest) => '[' :: prettyItems (level + 1) (item :: rest) ++ newline level ++ [']']
  | object [] => "\x7b\x7d".toList
  | object (entry :: rest) =>
    '\x7b' :: prettyEntries (level + 1) (entry :: rest) ++ newline level ++ ['\x7d']

/-- The items, each on a line of its own. -/
def prettyItems (level : Nat) : List (Json Int) → List Char
  | [] => []
  | [item] => newline level ++ prettyChars level item
  | item :: next :: rest =>
    newline level ++ prettyChars level item ++ ',' :: prettyItems level (next :: rest)

/-- The entries, each on a line of its own. -/
def prettyEntries (level : Nat) : List (String × Json Int) → List Char
  | [] => []
  | [(key, item)] => newline level ++ RawText.quoted key ++ ": ".toList ++ prettyChars level item
  | (key, item) :: next :: rest =>
    newline level ++ RawText.quoted key ++ ": ".toList ++ prettyChars level item ++
      ',' :: prettyEntries level (next :: rest)

end

/-- The text of a value without blanks. -/
def compact (json : Json Int) : String := String.ofList (compactChars json)

/-- The text of a value over several lines. -/
def pretty (json : Json Int) : String := String.ofList (prettyChars 0 json)

end Json

end TokenInspector
