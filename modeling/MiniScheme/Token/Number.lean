import MiniScheme.Token

/-!
# Number literals

A literal is a run of `#` markers for radix and exactness, an optional sign, and digits. Whole
numbers are 64-bit integers; a decimal point or an exponent makes a double. The magnitude is read
first and negated afterwards, so the least 64-bit integer has no literal.
-/

namespace MiniScheme.Number

/-- The value of a number literal. -/
inductive Literal where
  | integer (value : Int64)
  | float (value : Float)
  deriving BEq, Repr, Inhabited

/-- What an exactness marker asks for. -/
inductive Exactness where
  | exact
  | inexact
  deriving DecidableEq, Repr

/-- Whether an atom was meant to be a number. -/
def looksNumeric : List Char → Bool
  | '+' :: '.' :: _ :: _ => true
  | '-' :: '.' :: _ :: _ => true
  | '+' :: c :: _ => c.isDigit
  | '-' :: c :: _ => c.isDigit
  | '.' :: c :: _ => c.isDigit
  | '#' :: c :: _ => c.toLower ∈ ['x', 'b', 'o', 'd', 'e', 'i']
  | c :: _ => c.isDigit
  | [] => false

/-- The value of a digit in a radix of at most sixteen. -/
def digitValue? (radix : Nat) (c : Char) : Option Nat :=
  let code := c.toNat
  let value :=
    if c.isDigit then code - '0'.toNat
    else if 'a' ≤ c ∧ c ≤ 'f' then code - 'a'.toNat + 10
    else if 'A' ≤ c ∧ c ≤ 'F' then code - 'A'.toNat + 10
    else radix
  if value < radix then some value else none

/-- The number written by digits, most significant first. Characters that are no digits count
as zero. -/
def ofDigits (radix : Nat) (digits : List Char) : Nat :=
  digits.foldl (fun total c => total * radix + (digitValue? radix c).getD 0) 0

/-- The number of a hexadecimal character code, if it is a Unicode scalar value. -/
def hexChar? (digits : List Char) : Option Char :=
  if digits.isEmpty || digits.any fun c => (digitValue? 16 c).isNone then none
  else
    let code := ofDigits 16 digits
    if code.isValidChar then some (Char.ofNat code) else none

/-- The largest 64-bit integer. -/
def maxInteger : Nat := 0x7fffffffffffffff

/-- A magnitude with its sign, as a 64-bit integer. -/
def signedInteger (negative : Bool) (magnitude : Nat) : Except LexicalFault Literal :=
  if magnitude ≤ maxInteger then
    .ok (.integer (Int64.ofInt (if negative then -(magnitude : Int) else magnitude)))
  else .error .overflow

/-- `digits * 10 ^ exponent` as the nearest double. Exponents far outside of the range of doubles
are decided by the number of digits alone. -/
def toFloat (digits : List Char) (exponent : Int) : Float :=
  let significand := ofDigits 10 digits
  let place := exponent + (Nat.toDigits 10 significand).length
  if significand = 0 then 0
  else if place > 400 then 1.0 / 0.0
  else if place < -400 then 0
  else if exponent < 0 then Float.ofScientific significand true (-exponent).toNat
  else Float.ofScientific significand false exponent.toNat

def isSign (c : Char) : Bool := c == '+' || c == '-'

/-- An unsigned decimal: digits with at most one point among them, and an optional exponent. -/
def decimal (text : List Char) : Except LexicalFault Float := do
  let isMark := fun c => c == 'e' || c == 'E'
  let mantissa := text.takeWhile fun c => !isMark c
  let suffix := text.drop mantissa.length
  unless mantissa.all fun c => c.isDigit || c == '.' do throw .badDigit
  unless mantissa.count '.' ≤ 1 ∧ mantissa.any Char.isDigit do throw .badDecimal
  let whole := mantissa.takeWhile (· != '.')
  let fraction := (mantissa.drop whole.length).filter Char.isDigit
  let exponent ← match suffix with
    | [] => pure 0
    | _ :: marked =>
      let digits := marked.dropWhile isSign
      unless !digits.isEmpty && digits.all Char.isDigit do throw .badSuffix
      unless marked.length ≤ digits.length + 1 do throw .badDecimal
      let size := (ofDigits 10 digits : Int)
      pure (if marked.head? = some '-' then -size else size)
  return toFloat (whole ++ fraction) (exponent - fraction.length)

/-- A literal without its markers. -/
def unmarked (radix : Nat) (text : List Char) : Except LexicalFault Literal := do
  let negative := text.head? = some '-'
  let digits := if text.head?.any isSign then text.drop 1 else text
  if digits.isEmpty then throw .emptyNumber
  if radix ≠ 10 then
    unless digits.all fun c => (digitValue? radix c).isSome do throw .badDigit
    signedInteger negative (ofDigits radix digits)
  else if digits.all Char.isDigit then
    signedInteger negative (ofDigits 10 digits)
  else
    let magnitude ← decimal digits
    return .float (if negative then -magnitude else magnitude)

/-- A whole double in the range of 64-bit integers as an integer. What is not finite has the bits of
a number out of that range. -/
def toExact (x : Float) : Except LexicalFault Literal :=
  let negative : Bool := x.toBits.toNat / 0x8000000000000000 = 1
  match (Decimal.Binary.ofFloat x).whole?.map (signedInteger negative) with
  | some (.ok literal) => .ok literal
  | _ => .error .badExactness

/-- What an exactness marker makes of a literal. -/
def withExactness : Option Exactness → Literal → Except LexicalFault Literal
  | some .inexact, .integer n => .ok (.float n.toFloat)
  | some .exact, .float x => toExact x
  | _, literal => .ok literal

/-- A complete literal. Each kind of marker may occur once. -/
def parse (radix : Option Nat) (exactness : Option Exactness) :
    List Char → Except LexicalFault Literal
  | '#' :: marker :: rest =>
    match marker.toLower, radix, exactness with
    | 'x', none, _ => parse (some 16) exactness rest
    | 'b', none, _ => parse (some 2) exactness rest
    | 'o', none, _ => parse (some 8) exactness rest
    | 'd', none, _ => parse (some 10) exactness rest
    | 'e', _, none => parse radix (some .exact) rest
    | 'i', _, none => parse radix (some .inexact) rest
    | _, _, _ => .error .badMarker
  | ['#'] => .error .badMarker
  | [] => .error .emptyNumber
  | text => do withExactness exactness (← unmarked (radix.getD 10) text)

end MiniScheme.Number
