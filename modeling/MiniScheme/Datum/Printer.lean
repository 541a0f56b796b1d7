import MiniScheme.Datum
import MiniScheme.Text.Quoted

/-!
# The text of data

Data are written so that reading the text gives the same datum again: abbreviations are written
out, and items are separated by single spaces.
-/

namespace MiniScheme

/-- `#u8(...)` notation for bytes. -/
def bytesText (bytes : List UInt8) : String :=
  "#u8(" ++ " ".intercalate (bytes.map fun byte => toString byte.toNat) ++ ")"

def booleanText (value : Bool) : String :=
  if value then "#t" else "#f"

def Atom.text : Atom → String
  | .boolean value => booleanText value
  | .integer value => toString value.toInt
  | .float value => Token.floatLayout.text value
  | .character value => Text.charLiteral value
  | .string value => Text.stringLiteral value
  | .symbol name => name
  | .bytes value => bytesText value

namespace Datum

mutual

def text : Datum → String
  | .atom value _ => value.text
  | .list items _ => "(" ++ itemsText items ++ ")"
  | .dotted items tail _ => "(" ++ itemsText items ++ " . " ++ tail.text ++ ")"
  | .vector items _ => "#(" ++ itemsText items ++ ")"

def itemsText : List Datum → String
  | [] => ""
  | [item] => item.text
  | item :: items => item.text ++ " " ++ itemsText items

end

end Datum

end MiniScheme
