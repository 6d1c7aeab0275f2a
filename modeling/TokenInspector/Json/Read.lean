import TokenInspector.Json.Raw

/-!
# Reading the tree of a JSON text

Three ways to walk the tree, each from left to right and stopping at the first problem.
`RawValue.value` reads a JSON value and checks everything: nesting, the range of numbers, surrogate
pairs. `RawValue.skip` passes over a value that nobody asked for and checks its shape only.
`RawValue.mismatch` is the problem of a value that is not of the kind asked for.
-/

namespace TokenInspector

namespace Numeral

/-- The number of a numeral, or the problem that it is too large. -/
def read (numeral : Numeral) : Except Problem Number :=
  match numeral.number? with
  | some number => .ok number
  | none => .error .malformed

end Numeral

/-- Succeeds if nothing is wrong. -/
def checkFlaw : Option Problem → Except Problem Unit
  | none => .ok ()
  | some problem => .error problem

namespace RawValue

/-- How deep arrays and objects may be nested in a value. -/
def maxDepth : Nat := 127

mutual

/-- Reads a value with at most `depth` levels of arrays and objects. -/
def value (depth : Nat) : RawValue → Except Problem (Json Number)
  | null => .ok .null
  | bool b => .ok (.bool b)
  | numeral n => do return .number (← n.read)
  | cutNumeral => .error .truncated
  | text t => do return .text (← t.decode)
  | array items flaw =>
    match depth with
    | 0 => .error .malformed
    | depth + 1 => do
      let items ← values depth items
      checkFlaw flaw
      return .array items
  | object entries flaw =>
    match depth with
    | 0 => .error .malformed
    | depth + 1 => do
      let entries ← entryValues depth entries
      checkFlaw flaw
      return .object entries
  | broken problem => .error problem

def values (depth : Nat) : List RawValue → Except Problem (List (Json Number))
  | [] => .ok []
  | item :: rest => do
    let item ← value depth item
    let rest ← values depth rest
    return item :: rest

def entryValues (depth : Nat) :
    List (RawText × RawValue) → Except Problem (List (String × Json Number))
  | [] => .ok []
  | (key, item) :: rest => do
    let key ← key.decode
    let item ← value depth item
    let rest ← entryValues depth rest
    return (key, item) :: rest

end

mutual

/-- Passes over a value; a number that the end of the text cuts is no number. -/
def skip : RawValue → Except Problem Unit
  | null | bool _ | numeral _ => .ok ()
  | cutNumeral => .error .malformed
  | text t => checkFlaw t.flaw
  | array items flaw => do
    skipItems items
    checkFlaw flaw
  | object entries flaw => do
    skipEntries entries
    checkFlaw flaw
  | broken problem => .error problem

def skipItems : List RawValue → Except Problem Unit
  | [] => .ok ()
  | item :: rest => do
    skip item
    skipItems rest

def skipEntries : List (RawText × RawValue) → Except Problem Unit
  | [] => .ok ()
  | (key, item) :: rest => do
    checkFlaw key.flaw
    skip item
    skipEntries rest

end

/-- The problem of a value that is not of the kind asked for. Numbers and strings are read first and
may have a problem of their own; arrays and objects are refused at their opening bracket. -/
def mismatch : RawValue → Problem
  | numeral n => match n.read with
    | .ok _ => .mismatched
    | .error problem => problem
  | cutNumeral => .truncated
  | text t => match t.decode with
    | .ok _ => .mismatched
    | .error problem => problem
  | broken problem => problem
  | null | bool _ | array _ _ | object _ _ => .mismatched

end RawValue

/-- What a reader makes of a whole text: only blanks may follow the value. -/
def Document.read {α : Type} (document : Document) (reader : RawValue → Except Problem α) :
    Except Problem α := do
  let result ← reader document.root
  if document.trailing then .error .malformed else return result

/-- Reads a text as one JSON value. -/
def Json.ofText (text : String) : Except Problem (Json Number) :=
  (Document.ofText text).read (RawValue.value RawValue.maxDepth)

end TokenInspector
