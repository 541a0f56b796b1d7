import MiniScheme.Position
import MiniScheme.Decimal.Layout

/-!
# Tokens

What the scanner produces: tokens, and flaws for text that is no token. A flaw takes its place in
the stream like a token does, so that scanning can go on behind it.
-/

namespace MiniScheme

/-- What a token is. -/
inductive TokenKind where
  | identifier (name : String)
  | boolean (value : Bool)
  | integer (value : Int64)
  | float (value : Float)
  | character (value : Char)
  | string (value : String)
  | openList
  | openVector
  | openBytes
  | close
  | quoteMark
  | backQuote
  | comma
  | commaAt
  | dot
  /-- `#;`, which drops the datum that follows it. -/
  | datumComment
  deriving BEq, Repr, Inhabited

/-- A token and the place it starts at. -/
structure Token where
  kind : TokenKind
  location : Location
  deriving BEq, Repr, Inhabited

/-- Why a piece of text is not a token. -/
inductive LexicalFault where
  | invalidPound
  | invalidCharName
  | unclosedString
  | unclosedComment
  | invalidDot
  | unfinishedChar
  | unexpectedCharacter
  | invalidEscape
  | badMarker
  | badExactness
  | badDigit
  | badDecimal
  | badSuffix
  | emptyNumber
  | overflow
  deriving DecidableEq, Repr, Inhabited

def LexicalFault.message : LexicalFault → String
  | .invalidPound => "Invalid # syntax."
  | .invalidCharName => "Invalid character name."
  | .unclosedString => "Unterminated string."
  | .unclosedComment => "Unterminated block comment."
  | .invalidDot => "Invalid use of '.'."
  | .unfinishedChar => "Unfinished character literal."
  | .unexpectedCharacter => "Unexpected character."
  | .invalidEscape => "Invalid escape sequence."
  | .badMarker => "Invalid number prefix."
  | .badExactness => "Number cannot be made exact."
  | .badDigit => "Invalid digit in number."
  | .badDecimal => "Invalid decimal number."
  | .badSuffix => "Invalid exponent."
  | .emptyNumber => "Missing digits in number."
  | .overflow => "Number out of range."

/-- A lexical fault and the place it is reported at. -/
structure TokenError where
  fault : LexicalFault
  location : Location
  deriving DecidableEq, Repr, Inhabited

/-- How floating-point tokens and data are written. -/
def Token.floatLayout : Decimal.Layout :=
  { infinity := "inf", negativeInfinity := "-inf", notANumber := "NaN" }

end MiniScheme
