import MiniScheme.Datum

/-!
# Script values

Pairs, vectors, closures and continuations live in the heap and are referred to by handles.
Strings and byte vectors are immutable, but scripts can tell two of them apart by identity, so
each carries the stamp it was created with. Native procedures and host objects belong to the
embedding application and are referred to by number.
-/

namespace MiniScheme

/-- A reference to a heap object. The generation tells the object apart from a later occupant of
the same slot. -/
structure Handle where
  index : Nat
  generation : UInt32
  deriving DecidableEq, Repr, Inhabited, Hashable

/-- The identity of an immutable string or byte vector. -/
abbrev Stamp := Nat

/-- The number of a native procedure in the machine's registry. -/
abbrev NativeId := Nat

/-- An object of the embedding application: its number and the name of its class. -/
structure HostRef where
  id : Nat
  className : String
  deriving DecidableEq, Repr, Inhabited

/-- Script values. -/
inductive Value where
  /-- What forms without a useful value yield. -/
  | unspecified
  | emptyList
  | boolean (value : Bool)
  | integer (value : Int64)
  | float (value : Float)
  | character (value : Char)
  | symbol (name : String)
  | string (stamp : Stamp) (text : String)
  | bytes (stamp : Stamp) (content : List UInt8)
  | pair (handle : Handle)
  | vector (handle : Handle)
  | closure (handle : Handle)
  /-- A captured continuation, a procedure of one argument. -/
  | continuation (handle : Handle)
  | native (id : NativeId)
  /-- The procedure that captures the current continuation. -/
  | capture
  /-- The procedure that applies a procedure to a list of arguments. -/
  | apply
  | host (object : HostRef)
  deriving Repr, Inhabited

namespace Value

/-- The heap object the value refers to, if any. -/
def handle? : Value → Option Handle
  | .pair handle => some handle
  | .vector handle => some handle
  | .closure handle => some handle
  | .continuation handle => some handle
  | _ => none

/-- Everything but false counts as true. -/
def isTrue : Value → Bool
  | .boolean value => value
  | _ => true

def isProcedure : Value → Bool
  | .closure _ => true
  | .continuation _ => true
  | .native _ => true
  | .capture => true
  | .apply => true
  | _ => false

/-- Identity of values: by value for numbers, characters, booleans and symbols, by reference for
everything else. -/
def eqv : Value → Value → Bool
  | .unspecified, .unspecified => true
  | .emptyList, .emptyList => true
  | .boolean left, .boolean right => left == right
  | .integer left, .integer right => left == right
  | .float left, .float right => left == right
  | .character left, .character right => left == right
  | .symbol left, .symbol right => left == right
  | .string left _, .string right _ => left == right
  | .bytes left _, .bytes right _ => left == right
  | .pair left, .pair right => left == right
  | .vector left, .vector right => left == right
  | .closure left, .closure right => left == right
  | .continuation left, .continuation right => left == right
  | .native left, .native right => left == right
  | .capture, .capture => true
  | .apply, .apply => true
  | .host left, .host right => left.id == right.id
  | _, _ => false

def typeName : Value → String
  | .unspecified => "unspecified"
  | .emptyList => "empty list"
  | .boolean _ => "boolean"
  | .integer _ => "integer"
  | .float _ => "float"
  | .character _ => "character"
  | .symbol _ => "symbol"
  | .string _ _ => "string"
  | .bytes _ _ => "bytevector"
  | .pair _ => "pair"
  | .vector _ => "vector"
  | .host _ => "host object"
  | _ => "procedure"

end Value

end MiniScheme
