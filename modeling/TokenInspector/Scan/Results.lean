import TokenInspector.Enumeration.BuiltIn
import TokenInspector.Scan.Token
import TokenInspector.Source.LineMap

/-!
# Results of a scan

`ScanResults` collects tokens, each named by its kind, and errors. The token of the end of the file
completes the tokens: those after it are not recorded, errors still are. A token starts where the
one before it ended.
-/

namespace TokenInspector

/-- The tokens and errors of a scan so far. -/
structure ScanResults where
  tokens : Array NamedToken
  errors : Array ScanError
  deriving DecidableEq, Repr

namespace ScanResults

def empty : ScanResults := ⟨#[], #[]⟩

/-- The end of the file was reached. -/
def isComplete (results : ScanResults) : Bool :=
  results.tokens.back?.any (·.kind = endOfFileKind)

/-- Names a token by a definition of the kinds. -/
def nameToken (kinds : EnumDefinition) (token : ScannedToken) : NamedToken :=
  ⟨token.kind, kinds.display (Int64.ofNat token.kind.toNat) false, token.stop⟩

/-- Records a token unless the tokens are complete, and answers whether more are wanted. -/
def offerWith (kinds : EnumDefinition) (results : ScanResults) (token : ScannedToken) :
    ScanResults × Bool :=
  if results.isComplete then (results, false)
  else
    let next := { results with tokens := results.tokens.push (nameToken kinds token) }
    (next, !next.isComplete)

/-- Offers a token, naming it by the built-in token kinds. -/
def offer (results : ScanResults) (token : ScannedToken) : ScanResults × Bool :=
  results.offerWith tokenKinds token

/-- Records a token unless the tokens are complete. -/
def push (results : ScanResults) (token : ScannedToken) : ScanResults :=
  (results.offer token).1

/-- Records an error. -/
def pushError (results : ScanResults) (error : ScanError) : ScanResults :=
  { results with errors := results.errors.push error }

/-- Offers tokens as long as more are wanted. -/
def offerAll (kinds : EnumDefinition) (results : ScanResults) : List ScannedToken → ScanResults
  | [] => results
  | token :: rest =>
    let (next, wanted) := results.offerWith kinds token
    if wanted then offerAll kinds next rest else next

/-- The results of tokens in scan order, by a definition of the kinds. -/
def ofTokensWith (kinds : EnumDefinition) (tokens : List ScannedToken) : ScanResults :=
  offerAll kinds empty tokens

/-- The results of tokens in scan order. -/
def ofTokens (tokens : List ScannedToken) : ScanResults := ofTokensWith tokenKinds tokens

/-- The results of the tokens that a text lists. -/
def ofText (text : String) : Except Problem ScanResults :=
  (Record.listOfText ScannedToken text).map ofTokens

def hasErrors (results : ScanResults) : Bool := !results.errors.isEmpty

def title (results : ScanResults) : String :=
  if results.hasErrors then "Scan failed" else "Scan results"

/-- Where a token starts and ends. -/
def span? (results : ScanResults) (index : Nat) : Option TokenSpan := do
  let token ← results.tokens[index]?
  match index with
  | 0 => return ⟨0, token.stop⟩
  | before + 1 => return ⟨(← results.tokens[before]?).stop, token.stop⟩

/-- The selection of a token in the text of a line map. -/
def selection? (results : ScanResults) (map : LineMap) (index : Nat) : Option Selection := do
  let span ← results.span? index
  return .ofPositions (← map.position? span.start.toNat) (← map.position? span.stop.toNat)

end ScanResults

end TokenInspector
