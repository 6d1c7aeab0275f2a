import TokenInspector.Enumeration.Display
import TokenInspector.Enumeration.Kinds
import TokenInspector.Enumeration.Flags

/-!
# Built-in enums

The four enums that need no definition file. `BuiltIn.find?` looks one up by name, ignoring the case
of ASCII letters.
-/

namespace TokenInspector

/-- The enums whose definitions are part of the program. -/
inductive BuiltIn where
  | tokenKinds
  | tokenFlags
  | modifierFlags
  | nodeFlags
  deriving DecidableEq, Repr

namespace BuiltIn

def all : List BuiltIn := [tokenKinds, tokenFlags, modifierFlags, nodeFlags]

def name : BuiltIn → String
  | tokenKinds => "SyntaxKind"
  | tokenFlags => "TokenFlags"
  | modifierFlags => "ModifierFlags"
  | nodeFlags => "NodeFlags"

def definition : BuiltIn → EnumDefinition
  | tokenKinds => TokenInspector.tokenKinds
  | tokenFlags => .ofPairs tokenFlagPairs
  | modifierFlags => .ofPairs modifierFlagPairs
  | nodeFlags => .ofPairs nodeFlagPairs

/-- Values of flag enums are unions of members. -/
def isFlags : BuiltIn → Bool
  | tokenKinds => false
  | tokenFlags | modifierFlags | nodeFlags => true

/-- Two names are the same but for the case of ASCII letters. -/
def sameName (a b : String) : Bool := a.toList.map Char.toLower = b.toList.map Char.toLower

/-- The built-in enum with a name. -/
def find? (name : String) : Option BuiltIn := all.find? fun known => sameName known.name name

/-- The text shown for a value of a built-in enum. -/
def display (known : BuiltIn) (value : Int64) : String :=
  known.definition.display value known.isFlags

/-- The text shown for the number of a token kind. -/
def displayKind (kind : UInt16) : String := tokenKinds.display (Int64.ofNat kind.toNat)

/-- The text shown for 32 bits of flags. -/
def displayBits (known : BuiltIn) (bits : UInt32) : String :=
  known.display (Int64.ofNat bits.toNat)

end BuiltIn

end TokenInspector
