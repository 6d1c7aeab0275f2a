import TokenInspector.Scan.Report

/-!
# Scan sessions

A session is fed by a scanner as it runs over a text and answers with JSON text at any time.
`describeTokens` does the same at once for a list of tokens given as text.
-/

namespace TokenInspector

/-- The text of a scan, its lines, and the results so far. -/
structure ScanSession where
  source : String
  map : LineMap
  results : ScanResults
  deriving Repr

namespace ScanSession

/-- A session on a text that is still to be scanned. -/
def ofSource (source : String) : ScanSession := ⟨source, .ofText source, .empty⟩

/-- Records a token. -/
def pushToken (session : ScanSession) (token : ScannedToken) : ScanSession :=
  { session with results := session.results.push token }

/-- More tokens are wanted. -/
def wantsMore (session : ScanSession) : Bool := !session.results.isComplete

/-- Records an error. -/
def reportError (session : ScanSession) (error : ScanError) : ScanSession :=
  { session with results := session.results.pushError error }

def tokenCount (session : ScanSession) : Nat := session.results.tokens.size

/-- The name of a token. -/
def tokenName? (session : ScanSession) (index : Nat) : Option String :=
  session.results.tokens[index]?.map (·.name)

/-- The selection of a token as JSON text. -/
def selectionText? (session : ScanSession) (index : Nat) : Option String :=
  (session.results.selection? session.map index).map Record.toText

/-- The report as JSON text. -/
def reportText (session : ScanSession) : String :=
  (session.results.report session.source).toJson.compact

end ScanSession

/-- The report on a list of tokens as JSON text; `null` if the list cannot be read. -/
def describeTokens (tokens source : String) : String :=
  match ScanResults.ofText tokens with
  | .ok results => (results.report source).toJson.compact
  | .error _ => Json.null.compact

end TokenInspector
