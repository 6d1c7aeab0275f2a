import TokenInspector.Scan.Results

/-!
# Token files

A token file lists the tokens of a scan as an array, or as an object with the tokens and the errors
of the scan; the object may leave out the errors. The whole text has to be a JSON value before
either form is looked for.
-/

namespace TokenInspector

/-- The content of a token file. -/
structure TokenFile where
  tokens : List ScannedToken
  errors : List ScanError
  deriving DecidableEq, Repr

namespace TokenFile

/-- The entries of the object form as far as they were met. -/
structure Found where
  tokens : Option (List ScannedToken)
  errors : Option (List ScanError)
  deriving DecidableEq, Repr

/-- Takes an entry; the two known keys may stand once each. -/
def Found.take? (found : Found) (key : String) (value : Json Number) : Option Found :=
  if key = "tokens" then
    if found.tokens.isSome then none
    else do return { found with tokens := some (← Json.records? ScannedToken value) }
  else if key = "errors" then
    if found.errors.isSome then none
    else do return { found with errors := some (← Json.records? ScanError value) }
  else some found

/-- Takes the entries of an object one by one. -/
def Found.takeAll? (found : Found) : List (String × Json Number) → Option Found
  | [] => some found
  | (key, value) :: rest => do takeAll? (← found.take? key value) rest

/-- The object form: tokens, and errors if there are any. -/
def ofEntries? (entries : List (String × Json Number)) : Option TokenFile := do
  let found ← Found.takeAll? ⟨none, none⟩ entries
  return ⟨← found.tokens, found.errors.getD []⟩

/-- The array form: tokens only. -/
def ofArray? (json : Json Number) : Option TokenFile :=
  (Json.records? ScannedToken json).map (⟨·, []⟩)

/-- The token file that a value is, in either form. -/
def ofJson? (json : Json Number) : Option TokenFile :=
  match ofArray? json, json with
  | some file, _ => some file
  | none, .object entries => ofEntries? entries
  | none, _ => none

/-- The token file that a text holds. A value in neither form is refused before what follows it. -/
def ofText (text : String) : Except Problem TokenFile :=
  (Document.ofText text).read fun raw => do
    match ofJson? (← raw.value RawValue.maxDepth) with
    | some file => return file
    | none => .error .mismatched

/-- The results of the scan. -/
def results (file : TokenFile) : ScanResults :=
  file.errors.foldl ScanResults.pushError (ScanResults.ofTokens file.tokens)

end TokenFile

end TokenInspector
