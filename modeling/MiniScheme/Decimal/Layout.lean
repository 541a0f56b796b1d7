import MiniScheme.Decimal.Shortest

/-!
# How floating-point numbers are laid out

A finite number is written with its shortest digits: positionally in a range of magnitudes, and
with an exponent outside of it. What differs between the outputs of the program is only the
spelling of the numbers that are not finite, so a `Layout` is a record of those choices.
-/

namespace MiniScheme.Decimal

/-- The choices of a floating-point layout. -/
structure Layout where
  /-- The smallest leading decimal place written positionally. -/
  positionalFrom : Int := -4
  /-- The first leading decimal place written with an exponent again. -/
  positionalBelow : Int := 16
  infinity : String
  negativeInfinity : String
  notANumber : String

/-- Decimal digits without trailing zeros, and the place of the first of them. -/
def Scaled.significant (number : Scaled) : List Char × Int :=
  let digits := Nat.toDigits 10 number.digits
  let kept := (digits.reverse.dropWhile (· == '0')).reverse
  (kept, number.exponent + digits.length - 1)

/-- Digits written positionally, always with a digit on both sides of the point. -/
def positional (digits : List Char) (place : Int) : List Char :=
  if place < 0 then
    '0' :: '.' :: List.replicate (-place - 1).toNat '0' ++ digits
  else
    let whole := place.toNat + 1
    let missing := List.replicate (whole - digits.length) '0'
    let fraction := digits.drop whole
    digits.take whole ++ missing ++ '.' :: if fraction.isEmpty then ['0'] else fraction

/-- Digits written with one digit before the point and an exponent. -/
def scientific (digits : List Char) (place : Int) : List Char :=
  let mantissa :=
    match digits with
    | first :: second :: rest => first :: '.' :: second :: rest
    | short => short
  mantissa ++ 'e' :: (toString place).toList

def Layout.text (layout : Layout) (x : Float) : String :=
  if x.isNaN then layout.notANumber
  else
    let negative := x.toBits.toNat / 0x8000000000000000 = 1
    if x.isInf then if negative then layout.negativeInfinity else layout.infinity
    else
      let magnitude := Binary.ofFloat x
      let body :=
        if magnitude.mantissa = 0 then ['0', '.', '0']
        else
          let (digits, place) := magnitude.shortest.significant
          if layout.positionalFrom ≤ place && place < layout.positionalBelow then
            positional digits place
          else scientific digits place
      String.ofList (if negative then '-' :: body else body)

/-- A magnitude rounded to a whole number, right-aligned in a field. -/
def wholeText (width : Nat) (x : Float) : String :=
  let digits := toString (Binary.ofFloat x).round
  String.ofList (List.replicate (width - digits.length) ' ') ++ digits

end MiniScheme.Decimal
