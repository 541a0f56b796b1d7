import MiniScheme.Stdlib.Arguments
import MiniScheme.Datum.Reader

/-!
# Arithmetic

Integers are 64 bits wide and stay integers until a double joins in. A result that does not fit is
an error, never a wrapped number. Division of integers is exact if it can be and yields a double
otherwise.
-/

namespace MiniScheme.Stdlib

/-- Numbers of the language. -/
inductive Number where
  | integer (value : Int64)
  | float (value : Float)
  deriving Repr, Inhabited

namespace Number

def ofValue : Value → Except Fault Number
  | .integer value => .ok (.integer value)
  | .float value => .ok (.float value)
  | _ => .error .invalidArgument

def toValue : Number → Value
  | .integer value => .integer value
  | .float value => .float value

def toFloat : Number → Float
  | .integer value => value.toFloat
  | .float value => value

def isZero : Number → Bool
  | .integer value => value == 0
  | .float value => value == 0

/-- Whether an integer fits into 64 bits. -/
def fits (value : Int) : Bool :=
  -0x8000000000000000 ≤ value && value ≤ 0x7fffffffffffffff

/-- An integer that fits, or an overflow. -/
def checked (value : Int) : Except Fault Number :=
  if fits value then .ok (.integer (Int64.ofInt value)) else .error .integerOverflow

/-- An operation on integers, or on doubles as soon as one operand is a double. -/
def combine (exact : Int → Int → Int) (inexact : Float → Float → Float) :
    Number → Number → Except Fault Number
  | .integer left, .integer right => checked (exact left.toInt right.toInt)
  | left, right => .ok (.float (inexact left.toFloat right.toFloat))

def add : Number → Number → Except Fault Number := combine (· + ·) (· + ·)

def sub : Number → Number → Except Fault Number := combine (· - ·) (· - ·)

def mul : Number → Number → Except Fault Number := combine (· * ·) (· * ·)

def div (left right : Number) : Except Fault Number :=
  if right.isZero then .error .divisionByZero
  else match left, right with
    | .integer dividend, .integer divisor =>
      if dividend.toInt.tmod divisor.toInt = 0 then checked (dividend.toInt.tdiv divisor.toInt)
      else .ok (.float (dividend.toFloat / divisor.toFloat))
    | _, _ => .ok (.float (left.toFloat / right.toFloat))

/-- Compares integers as integers, and doubles as soon as one operand is a double. -/
def compare (exact : Int64 → Int64 → Bool) (inexact : Float → Float → Bool) :
    Number → Number → Bool
  | .integer left, .integer right => exact left right
  | left, right => inexact left.toFloat right.toFloat

/-- Combines arguments from left to right, checking each when its turn comes. -/
def fold (operation : Number → Number → Except Fault Number) (start : Number)
    (arguments : List Value) : Except Fault Value := do
  let total ← arguments.foldlM (fun total argument => do operation total (← ofValue argument)) start
  return total.toValue

/-- Combines a first argument with the others; a single argument with a neutral number. -/
def foldFirst (operation : Number → Number → Except Fault Number) (neutral : Number) :
    List Value → Except Fault Value
  | [] => .error (.wrongArity { required := 1, variadic := true })
  | [only] => do return (← operation neutral (← ofValue only)).toValue
  | first :: rest => do fold operation (← ofValue first) rest

end Number

def isInteger : Value → Bool
  | .integer _ => true
  | .float value => value.isFinite && value.floor == value
  | _ => false

def isFloat : Value → Bool
  | .float _ => true
  | _ => false

def isNumber : Value → Bool
  | .integer _ => true
  | .float _ => true
  | _ => false

def numberToString (heap : Heap) : List Value → Except Fault String :=
  unary fun argument => do
    let _ ← Number.ofValue argument
    return heap.writeText argument

/-- The number that a text reads as; false if it does not read as exactly one number. -/
def stringToNumber : List Value → Except Fault Value :=
  unary fun argument => do
    match read { text := ← text argument } with
    | .ok [.atom (.integer value) _] => return .integer value
    | .ok [.atom (.float value) _] => return .float value
    | _ => return .boolean false

def isZero : List Value → Except Fault Value :=
  unary fun argument => do return .boolean (← Number.ofValue argument).isZero

end MiniScheme.Stdlib
