/-!
# The shortest decimal that reads back

A finite positive double is `mantissa * 2 ^ exponent`. The decimals that round to it fill an
interval around it, whose ends belong to it when the mantissa is even. `Binary.shortest` finds
the coarsest power of ten that has a multiple inside the interval and takes the multiple nearest
to the number, the larger of two equally near ones. All comparisons are exact.
-/

namespace MiniScheme.Decimal

/-- A positive number `mantissa * 2 ^ exponent`. -/
structure Binary where
  mantissa : Nat
  exponent : Int
  /-- The gap below the number is half as wide as the gap above it. -/
  lopsided : Bool
  deriving DecidableEq, Repr

/-- The decimal `digits * 10 ^ exponent`. -/
structure Scaled where
  digits : Nat
  exponent : Int
  deriving DecidableEq, Repr

/-- The magnitude of a finite double; zero has mantissa zero. -/
def Binary.ofFloat (x : Float) : Binary :=
  let bits := x.toBits.toNat
  let field : Nat := bits / 0x10000000000000 % 0x800
  let fraction : Nat := bits % 0x10000000000000
  if field = 0 then
    { mantissa := fraction, exponent := -1074, lopsided := false }
  else
    { mantissa := fraction + 0x10000000000000, exponent := (field : Int) - 1075
      lopsided := fraction = 0 && 1 < field }

namespace Binary

/-- Quarter units of the last place, brought to the common scale on which `decimal` counts. -/
def quarters (number : Binary) (place : Int) (count : Nat) : Nat :=
  count * Nat.pow 2 (number.exponent - 2).toNat * Nat.pow 10 (-place).toNat

/-- `count * 10 ^ place`, on the scale of `quarters`. -/
def decimal (number : Binary) (place : Int) (count : Nat) : Nat :=
  count * Nat.pow 2 (2 - number.exponent).toNat * Nat.pow 10 place.toNat

/-- Whether the number is at least `10 ^ place`. -/
def reaches (number : Binary) (place : Int) : Bool :=
  number.decimal place 1 ≤ number.quarters place (4 * number.mantissa)

/-- The decimal place of the leading digit. -/
def leadingPlace (number : Binary) : Int :=
  let guess := (((number.mantissa.log2 : Int) + number.exponent) * 1233) / 4096
  if !number.reaches guess then guess - 1
  else if number.reaches (guess + 1) then guess + 1
  else guess

/-- Whether `count * 10 ^ place` rounds to the number. -/
def covers (number : Binary) (place : Int) (count : Nat) : Bool :=
  let low := number.quarters place (4 * number.mantissa - if number.lopsided then 1 else 2)
  let high := number.quarters place (4 * number.mantissa + 2)
  let here := number.decimal place count
  if number.mantissa % 2 = 0 then low ≤ here && here ≤ high else low < here && here < high

/-- The multiple of `10 ^ place` nearest to the number among its two neighbours that round to it. -/
def nearest? (number : Binary) (place : Int) : Option Nat :=
  let exact := number.quarters place (4 * number.mantissa)
  let below := exact / number.decimal place 1
  let above := below + 1
  match number.covers place below, number.covers place above with
  | true, true =>
      if number.decimal place above - exact ≤ exact - number.decimal place below then some above
      else some below
  | true, false => some below
  | false, true => some above
  | false, false => none

/-- The decimal with the fewest digits that rounds to the number. Seventeen digits always
suffice for a double. -/
def shortest (number : Binary) : Scaled :=
  let top := number.leadingPlace
  let hit := (List.range 17).findSome? fun (dropped : Nat) =>
    (number.nearest? (top - dropped)).map fun count =>
      { digits := count, exponent := top - dropped }
  hit.getD { digits := number.mantissa, exponent := 0 }

end Binary

/-- `numerator / denominator` rounded to the nearest whole number, a half to the even one. -/
def roundHalfEven (numerator denominator : Nat) : Nat :=
  let quotient := numerator / denominator
  let twice := 2 * (numerator % denominator)
  if twice < denominator then quotient
  else if denominator < twice then quotient + 1
  else if quotient % 2 = 0 then quotient
  else quotient + 1

/-- The magnitude rounded to a whole number, a half to the even one. -/
def Binary.round (number : Binary) : Nat :=
  if 0 ≤ number.exponent then number.mantissa * Nat.pow 2 number.exponent.toNat
  else roundHalfEven number.mantissa (Nat.pow 2 (-number.exponent).toNat)

/-- The magnitude, if it is a whole number. -/
def Binary.whole? (number : Binary) : Option Nat :=
  let unit := Nat.pow 2 (-number.exponent).toNat
  if number.mantissa % unit = 0 then
    some (number.mantissa / unit * Nat.pow 2 number.exponent.toNat)
  else none

end MiniScheme.Decimal
