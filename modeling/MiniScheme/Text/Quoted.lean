import MiniScheme.Text.Blank

/-!
# Literal notation for characters and strings

`charLiteral` and `stringLiteral` write text the way the reader takes it back. A string escapes
only what would end it or read as another character; everything else stands for itself.
-/

namespace MiniScheme.Text

/-- The digits of a number in base sixteen, lower case and without leading zeros. -/
def hexDigits (n : Nat) : String :=
  String.ofList (Nat.toDigits 16 n)

/-- The name of a character after `#\`. -/
def charName (c : Char) : String :=
  if c = '\n' then "newline"
  else if c = ' ' then "space"
  else if c = '\t' then "tab"
  else if c = '\r' then "return"
  else if c = '\x00' then "nul"
  else if isControl c then "x" ++ hexDigits c.toNat
  else c.toString

/-- `#\a` notation for a character. -/
def charLiteral (c : Char) : String :=
  "#\\" ++ charName c

/-- One character inside a quoted string. -/
def escapeChar (c : Char) : List Char :=
  if c = '"' then ['\\', '"']
  else if c = '\\' then ['\\', '\\']
  else if c = '\n' then ['\\', 'n']
  else if c = '\t' then ['\\', 't']
  else if c = '\r' then ['\\', 'r']
  else [c]

/-- A string between double quotes, with the reader's escapes. -/
def stringLiteral (text : String) : String :=
  String.ofList ('"' :: text.toList.flatMap escapeChar ++ ['"'])

/-- One character of a name in a note. -/
def noteChar (c : Char) : List Char :=
  if c = '\x00' then ['\\', '0']
  else if isControl c && escapeChar c == [c] then
    ("\\u\x7b" ++ hexDigits c.toNat ++ "\x7d").toList
  else escapeChar c

/-- A name that may be missing, as notes spell it. -/
def optionLiteral : Option String → String
  | some name => "Some(\"" ++ String.ofList (name.toList.flatMap noteChar) ++ "\")"
  | none => "None"

end MiniScheme.Text
