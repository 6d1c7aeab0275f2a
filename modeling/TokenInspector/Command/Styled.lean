/-!
# Styled text

Output is a list of pieces, some of them in a style. With colour on, a styled piece is set in escape
sequences around the padded text, and a reset inside the text is followed by the style's sequence
again. With colour off, only the words and the padding are left.
-/

namespace TokenInspector

inductive Style where
  | bold
  | cyan
  | red
  deriving DecidableEq, Repr

namespace Style

/-- The sequence that turns a style on. -/
def opening : Style → List Char
  | bold => "\x1b[1m".toList
  | cyan => "\x1b[36m".toList
  | red => "\x1b[31m".toList

/-- The sequence that turns all styles off. -/
def reset : List Char := "\x1b[0m".toList

end Style

/-- A piece of output. -/
inductive Piece where
  | plain (text : String)
  /-- Text in a style, filled with blanks to a width. -/
  | styled (style : Style) (width : Nat) (text : String)
  deriving DecidableEq, Repr

namespace Piece

/-- Fills a text with blanks on the right. -/
def padRight (width : Nat) (text : List Char) : List Char :=
  text ++ List.replicate (width - text.length) ' '

/-- Fills a text with blanks on the left. -/
def padLeft (width : Nat) (text : List Char) : List Char :=
  List.replicate (width - text.length) ' ' ++ text

/-- Turns a style on again after every reset inside a text. -/
def reopen (style : Style) : List Char → List Char
  | '\x1b' :: '[' :: '0' :: 'm' :: rest => Style.reset ++ style.opening ++ reopen style rest
  | c :: rest => c :: reopen style rest
  | [] => []

/-- The characters of a piece, with colour on or off. -/
def render (colour : Bool) : Piece → List Char
  | plain text => text.toList
  | styled style width text =>
    if colour then style.opening ++ padRight width (reopen style text.toList) ++ Style.reset
    else padRight width text.toList

end Piece

/-- The text of output, with colour on or off. -/
def renderPieces (colour : Bool) (pieces : List Piece) : String :=
  String.ofList (pieces.flatMap (Piece.render colour))

end TokenInspector
