import TokenInspector.Enumeration.Definition

/-!
# Token kinds

The kinds of tokens that the scanner reports, by name and number, in declaration order. The names
after `OfKeyword` mark the ends of ranges of kinds; they stand last, so that the kinds come first
among the members of their value.
-/

namespace TokenInspector

/-- The kind of the token that ends a scan. -/
def endOfFileKind : UInt16 := 1

/-- Names and numbers of the token kinds. -/
def tokenKindPairs : List (String × Int64) := [
  ("Unknown", 0),
  ("EndOfFileToken", 1),
  ("SingleLineCommentTrivia", 2),
  ("MultiLineCommentTrivia", 3),
  ("NewLineTrivia", 4),
  ("WhitespaceTrivia", 5),
  ("ShebangTrivia", 6),
  ("ConflictMarkerTrivia", 7),
  ("NonTextFileMarkerTrivia", 8),
  ("NumericLiteral", 9),
  ("BigIntLiteral", 10),
  ("StringLiteral", 11),
  ("JsxText", 12),
  ("JsxTextAllWhiteSpaces", 13),
  ("RegularExpressionLiteral", 14),
  ("NoSubstitutionTemplateLiteral", 15),
  ("TemplateHead", 16),
  ("TemplateMiddle", 17),
  ("TemplateTail", 18),
  ("OpenBraceToken", 19),
  ("CloseBraceToken", 20),
  ("OpenParenToken", 21),
  ("CloseParenToken", 22),
  ("OpenBracketToken", 23),
  ("CloseBracketToken", 24),
  ("DotToken", 25),
  ("DotDotDotToken", 26),
  ("SemicolonToken", 27),
  ("CommaToken", 28),
  ("QuestionDotToken", 29),
  ("LessThanToken", 30),
  ("LessThanSlashToken", 31),
  ("GreaterThanToken", 32),
  ("LessThanEqualsToken", 33),
  ("GreaterThanEqualsToken", 34),
  ("EqualsEqualsToken", 35),
  ("ExclamationEqualsToken", 36),
  ("EqualsEqualsEqualsToken", 37),
  ("ExclamationEqualsEqualsToken", 38),
  ("EqualsGreaterThanToken", 39),
  ("PlusToken", 40),
  ("MinusToken", 41),
  ("AsteriskToken", 42),
  ("AsteriskAsteriskToken", 43),
  ("SlashToken", 44),
  ("PercentToken", 45),
  ("PlusPlusToken", 46),
  ("MinusMinusToken", 47),
  ("LessThanLessThanToken", 48),
  ("GreaterThanGreaterThanToken", 49),
  ("GreaterThanGreaterThanGreaterThanToken", 50),
  ("AmpersandToken", 51),
  ("BarToken", 52),
  ("CaretToken", 53),
  ("ExclamationToken", 54),
  ("TildeToken", 55),
  ("AmpersandAmpersandToken", 56),
  ("BarBarToken", 57),
  ("QuestionToken", 58),
  ("ColonToken", 59),
  ("AtToken", 60),
  ("QuestionQuestionToken", 61),
  ("BacktickToken", 62),
  ("HashToken", 63),
  ("EqualsToken", 64),
  ("PlusEqualsToken", 65),
  ("MinusEqualsToken", 66),
  ("AsteriskEqualsToken", 67),
  ("AsteriskAsteriskEqualsToken", 68),
  ("SlashEqualsToken", 69),
  ("PercentEqualsToken", 70),
  ("LessThanLessThanEqualsToken", 71),
  ("GreaterThanGreaterThanEqualsToken", 72),
  ("GreaterThanGreaterThanGreaterThanEqualsToken", 73),
  ("AmpersandEqualsToken", 74),
  ("BarEqualsToken", 75),
  ("BarBarEqualsToken", 76),
  ("AmpersandAmpersandEqualsToken", 77),
  ("QuestionQuestionEqualsToken", 78),
  ("CaretEqualsToken", 79),
  ("Identifier", 80),
  ("PrivateIdentifier", 81),
  ("JSDocCommentTextToken", 82),
  ("BreakKeyword", 83),
  ("CaseKeyword", 84),
  ("CatchKeyword", 85),
  ("ClassKeyword", 86),
  ("ConstKeyword", 87),
  ("ContinueKeyword", 88),
  ("DebuggerKeyword", 89),
  ("DefaultKeyword", 90),
  ("DeleteKeyword", 91),
  ("DoKeyword", 92),
  ("ElseKeyword", 93),
  ("EnumKeyword", 94),
  ("ExportKeyword", 95),
  ("ExtendsKeyword", 96),
  ("FalseKeyword", 97),
  ("FinallyKeyword", 98),
  ("ForKeyword", 99),
  ("FunctionKeyword", 100),
  ("IfKeyword", 101),
  ("ImportKeyword", 102),
  ("InKeyword", 103),
  ("InstanceOfKeyword", 104),
  ("NewKeyword", 105),
  ("NullKeyword", 106),
  ("ReturnKeyword", 107),
  ("SuperKeyword", 108),
  ("SwitchKeyword", 109),
  ("ThisKeyword", 110),
  ("ThrowKeyword", 111),
  ("TrueKeyword", 112),
  ("TryKeyword", 113),
  ("TypeOfKeyword", 114),
  ("VarKeyword", 115),
  ("VoidKeyword", 116),
  ("WhileKeyword", 117),
  ("WithKeyword", 118),
  ("ImplementsKeyword", 119),
  ("InterfaceKeyword", 120),
  ("LetKeyword", 121),
  ("PackageKeyword", 122),
  ("PrivateKeyword", 123),
  ("ProtectedKeyword", 124),
  ("PublicKeyword", 125),
  ("StaticKeyword", 126),
  ("YieldKeyword", 127),
  ("AbstractKeyword", 128),
  ("AccessorKeyword", 129),
  ("AsKeyword", 130),
  ("AssertsKeyword", 131),
  ("AssertKeyword", 132),
  ("AnyKeyword", 133),
  ("AsyncKeyword", 134),
  ("AwaitKeyword", 135),
  ("BooleanKeyword", 136),
  ("ConstructorKeyword", 137),
  ("DeclareKeyword", 138),
  ("GetKeyword", 139),
  ("InferKeyword", 140),
  ("IntrinsicKeyword", 141),
  ("IsKeyword", 142),
  ("KeyOfKeyword", 143),
  ("ModuleKeyword", 144),
  ("NamespaceKeyword", 145),
  ("NeverKeyword", 146),
  ("OutKeyword", 147),
  ("ReadonlyKeyword", 148),
  ("RequireKeyword", 149),
  ("NumberKeyword", 150),
  ("ObjectKeyword", 151),
  ("SatisfiesKeyword", 152),
  ("SetKeyword", 153),
  ("StringKeyword", 154),
  ("SymbolKeyword", 155),
  ("TypeKeyword", 156),
  ("UndefinedKeyword", 157),
  ("UniqueKeyword", 158),
  ("UnknownKeyword", 159),
  ("UsingKeyword", 160),
  ("FromKeyword", 161),
  ("GlobalKeyword", 162),
  ("BigIntKeyword", 163),
  ("OverrideKeyword", 164),
  ("OfKeyword", 165),
  ("FirstAssignment", 64),
  ("LastAssignment", 79),
  ("FirstCompoundAssignment", 65),
  ("LastCompoundAssignment", 79),
  ("FirstReservedWord", 83),
  ("LastReservedWord", 118),
  ("FirstKeyword", 83),
  ("LastKeyword", 165),
  ("FirstFutureReservedWord", 119),
  ("LastFutureReservedWord", 127),
  ("FirstPunctuation", 19),
  ("LastPunctuation", 79),
  ("FirstToken", 0),
  ("LastToken", 165),
  ("FirstTriviaToken", 2),
  ("LastTriviaToken", 7),
  ("FirstLiteralToken", 9),
  ("LastLiteralToken", 15),
  ("FirstTemplateToken", 15),
  ("LastTemplateToken", 18),
  ("FirstBinaryOperator", 30),
  ("LastBinaryOperator", 79),
  ("FirstContextualKeyword", 128),
  ("LastContextualKeyword", 165)]

/-- The definition of the token kinds. -/
def tokenKinds : EnumDefinition := .ofPairs tokenKindPairs

end TokenInspector
