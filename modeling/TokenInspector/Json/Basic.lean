import TokenInspector.Double

/-!
# JSON values

`Json ν` is a JSON value whose numbers are of type `ν`. Text that is read gives numbers of type
`Number`, an integer or a double; text that is written holds integers only and is built from
`Json Int`. Objects keep their entries in text order, repeated keys included. A text is refused
with the kind of the first `Problem` met in it.
-/

namespace TokenInspector

/-- Why a JSON text is refused. -/
inductive Problem where
  /-- The text ends too early. -/
  | truncated
  /-- The text is not JSON. -/
  | malformed
  /-- The text is JSON so far, but not the value that was asked for. -/
  | mismatched
  deriving DecidableEq, Repr

/-- A number as it is read: an integer if it is written as one and fits 64 bits. -/
inductive Number where
  | integer (n : Int)
  | double (d : Double)
  deriving DecidableEq, Repr

/-- A JSON value with numbers in `ν`. -/
inductive Json (ν : Type) where
  | null
  | bool (b : Bool)
  | number (n : ν)
  | text (s : String)
  | array (items : List (Json ν))
  | object (entries : List (String × Json ν))
  deriving Repr

namespace Json

/-- Puts `value` under `key`: in the key's place if it has one, else at the end. -/
def put {α : Type} (entries : List (String × α)) (key : String) (value : α) :
    List (String × α) :=
  match entries with
  | [] => [(key, value)]
  | (k, v) :: rest => if k = key then (k, value) :: rest else (k, v) :: put rest key value

/-- The entries of an object by key: each key in its first place with its last value. -/
def lastValues {α : Type} (entries : List (String × α)) : List (String × α) :=
  entries.foldl (fun known (key, value) => put known key value) []

end Json

end TokenInspector
