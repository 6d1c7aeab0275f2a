import TokenInspector.Source.Position

/-!
# Tokens and errors of a scan

What a scanner reports: tokens by kind and end, and errors. A token that was named carries the name
of its kind. Ends and lengths count 16-bit units of the text.
-/

namespace TokenInspector

/-- A token as the scanner reports it. -/
structure ScannedToken where
  kind : UInt16
  stop : UInt32
  deriving DecidableEq, Repr

instance : Record ScannedToken where
  fields := [⟨"kind", .word16⟩, ⟨"end", .word32⟩]
  values token := [.integer token.kind.toNat, .integer token.stop.toNat]
  ofValues?
    | [.integer kind, .integer stop] => do return ⟨← word16? kind, ← word32? stop⟩
    | _ => none

/-- A token with the name of its kind. -/
structure NamedToken where
  kind : UInt16
  name : String
  stop : UInt32
  deriving DecidableEq, Repr

instance : Record NamedToken where
  fields := [⟨"kind", .word16⟩, ⟨"token", .text⟩, ⟨"end", .word32⟩]
  values token := [.integer token.kind.toNat, .text token.name, .integer token.stop.toNat]
  ofValues?
    | [.integer kind, .text name, .integer stop] => do
      return ⟨← word16? kind, name, ← word32? stop⟩
    | _ => none

/-- An error that the scanner reports. -/
structure ScanError where
  message : String
  length : UInt32
  deriving DecidableEq, Repr

instance : Record ScanError where
  fields := [⟨"message", .text⟩, ⟨"length", .word32⟩]
  values error := [.text error.message, .integer error.length.toNat]
  ofValues?
    | [.text message, .integer length] => do return ⟨message, ← word32? length⟩
    | _ => none

/-- Where a token starts and ends. -/
structure TokenSpan where
  start : UInt32
  stop : UInt32
  deriving DecidableEq, Repr

instance : Record TokenSpan where
  fields := [⟨"start", .word32⟩, ⟨"end", .word32⟩]
  values span := [.integer span.start.toNat, .integer span.stop.toNat]
  ofValues?
    | [.integer start, .integer stop] => do return ⟨← word32? start, ← word32? stop⟩
    | _ => none

end TokenInspector
