import TokenInspector.Enumeration.Definition

/-!
# Flags

The flags of tokens, of declaration modifiers and of nodes, in declaration order. A flag is a bit or
the union of several bits; values have 32 bits.
-/

namespace TokenInspector

/-- The value of a single bit. -/
def bit (position : Nat) : Int64 := Int64.ofNat (1 <<< position)

/-- Flags of a token. -/
def tokenFlagPairs : List (String × Int64) := [
  ("None", 0),
  ("PrecedingLineBreak", bit 0),
  ("PrecedingJSDocComment", bit 1),
  ("Unterminated", bit 2),
  ("ExtendedUnicodeEscape", bit 3),
  ("Scientific", bit 4),
  ("Octal", bit 5),
  ("HexSpecifier", bit 6),
  ("BinarySpecifier", bit 7),
  ("OctalSpecifier", bit 8),
  ("ContainsSeparator", bit 9),
  ("UnicodeEscape", bit 10),
  ("ContainsInvalidEscape", bit 11),
  ("HexEscape", bit 12),
  ("ContainsLeadingZero", bit 13),
  ("ContainsInvalidSeparator", bit 14),
  ("PrecedingJSDocLeadingAsterisks", bit 15),
  ("BinaryOrOctalSpecifier", 0x180),
  ("WithSpecifier", 0x1c0),
  ("StringLiteralFlags", 0x1c08),
  ("NumericLiteralFlags", 0x63f0),
  ("TemplateLiteralLikeFlags", 0x1c08),
  ("IsInvalid", 0x6820)]

/-- Flags of a declaration's modifiers. -/
def modifierFlagPairs : List (String × Int64) := [
  ("None", 0),
  ("Public", bit 0),
  ("Private", bit 1),
  ("Protected", bit 2),
  ("Readonly", bit 3),
  ("Override", bit 4),
  ("Export", bit 5),
  ("Abstract", bit 6),
  ("Ambient", bit 7),
  ("Static", bit 8),
  ("Accessor", bit 9),
  ("Async", bit 10),
  ("Default", bit 11),
  ("Const", bit 12),
  ("In", bit 13),
  ("Out", bit 14),
  ("Decorator", bit 15),
  ("Deprecated", bit 16),
  ("JSDocPublic", bit 23),
  ("JSDocPrivate", bit 24),
  ("JSDocProtected", bit 25),
  ("JSDocReadonly", bit 26),
  ("JSDocOverride", bit 27),
  ("SyntacticOrJSDocModifiers", 0x1f),
  ("SyntacticOnlyModifiers", 0xffe0),
  ("SyntacticModifiers", 0xffff),
  ("JSDocCacheOnlyModifiers", 0xf800000),
  ("JSDocOnlyModifiers", 0x10000),
  ("NonCacheOnlyModifiers", 0x1ffff),
  ("HasComputedJSDocModifiers", bit 28),
  ("HasComputedFlags", bit 29),
  ("AccessibilityModifier", 0x7),
  ("ParameterPropertyModifier", 0x1f),
  ("NonPublicAccessibilityModifier", 0x6),
  ("TypeScriptModifier", 0x70df),
  ("ExportDefault", 0x820),
  ("All", 0x1ffff),
  ("Modifier", 0x17fff)]

/-- Flags of a node. -/
def nodeFlagPairs : List (String × Int64) := [
  ("None", 0),
  ("Let", bit 0),
  ("Const", bit 1),
  ("Using", bit 2),
  ("AwaitUsing", 0x6),
  ("NestedNamespace", bit 3),
  ("Synthesized", bit 4),
  ("Namespace", bit 5),
  ("OptionalChain", bit 6),
  ("ExportContext", bit 7),
  ("ContainsThis", bit 8),
  ("HasImplicitReturn", bit 9),
  ("HasExplicitReturn", bit 10),
  ("GlobalAugmentation", bit 11),
  ("HasAsyncFunctions", bit 12),
  ("DisallowInContext", bit 13),
  ("YieldContext", bit 14),
  ("DecoratorContext", bit 15),
  ("AwaitContext", bit 16),
  ("DisallowConditionalTypesContext", bit 17),
  ("ThisNodeHasError", bit 18),
  ("JavaScriptFile", bit 19),
  ("ThisNodeOrAnySubNodesHasError", bit 20),
  ("HasAggregatedChildData", bit 21),
  ("PossiblyContainsDynamicImport", bit 22),
  ("PossiblyContainsImportMeta", bit 23),
  ("JSDoc", bit 24),
  ("Ambient", bit 25),
  ("InWithStatement", bit 26),
  ("JsonFile", bit 27),
  ("TypeCached", bit 28),
  ("Deprecated", bit 29),
  ("BlockScoped", 0x7),
  ("Constant", 0x6),
  ("ReachabilityCheckFlags", 0x600),
  ("ReachabilityAndEmitFlags", 0x1600),
  ("ContextFlags", 0x60be000),
  ("TypeExcludesFlags", 0x14000),
  ("PermanentlySetIncrementalFlags", 0xc00000),
  ("IdentifierHasExtendedUnicodeEscape", 0x100),
  ("IdentifierIsInJSDocNamespace", 0x1000)]

end TokenInspector
