import MiniScheme.Heap

/-!
# Values and objects of the embedding application

A `Variant` is a script value as the application sees it: lists and vectors become lists, symbols
and characters become strings, and procedures have no counterpart. A `HostObject` is an object
that the application shows to scripts. Scripts walk its tree, read and write named properties and
invoke named methods.
-/

namespace MiniScheme

/-- The application's representation of a script value. -/
inductive Variant where
  | null
  | bool (value : Bool)
  | int (value : Int64)
  | float (value : Float)
  | string (value : String)
  | list (items : List Variant)
  | bytes (value : List UInt8)
  | object (object : HostRef)
  deriving Repr, Inhabited

namespace Variant

mutual

/-- Equality of variants; objects are the same if they are identical. -/
def same : Variant → Variant → Bool
  | .null, .null => true
  | .bool left, .bool right => left == right
  | .int left, .int right => left == right
  | .float left, .float right => left == right
  | .string left, .string right => left == right
  | .list left, .list right => sameItems left right
  | .bytes left, .bytes right => left == right
  | .object left, .object right => left.id == right.id
  | _, _ => false

def sameItems : List Variant → List Variant → Bool
  | [], [] => true
  | left :: lefts, right :: rights => left.same right && sameItems lefts rights
  | _, _ => false

end

mutual

/-- The script value of a variant. -/
def toValue (heap : Heap) : Variant → Value × Heap
  | .null => (.unspecified, heap)
  | .bool value => (.boolean value, heap)
  | .int value => (.integer value, heap)
  | .float value => (.float value, heap)
  | .string value => heap.string value
  | .list items =>
    let (values, heap) := toValues heap items
    heap.list values
  | .bytes value => heap.bytes value
  | .object reference => (.host reference, heap)

def toValues (heap : Heap) : List Variant → List Value × Heap
  | [] => ([], heap)
  | item :: items =>
    let (value, heap) := toValue heap item
    let (values, heap) := toValues heap items
    (value :: values, heap)

end

/-- The variant of a script value that nests at most `levels` deep. -/
def ofValueWithin (heap : Heap) : Nat → Value → Except Fault Variant
  | levels, value =>
    let within := fun (values : List Value) =>
      match levels with
      | 0 => .error .invalidArgument
      | levels + 1 => return .list (← values.mapM (ofValueWithin heap levels))
    match value with
    | .unspecified => .ok .null
    | .boolean value => .ok (.bool value)
    | .integer value => .ok (.int value)
    | .float value => .ok (.float value)
    | .character value => .ok (.string value.toString)
    | .symbol name => .ok (.string name)
    | .string _ text => .ok (.string text)
    | .bytes _ content => .ok (.bytes content)
    | .emptyList => .ok (.list [])
    | .pair handle => match heap.elements? (.pair handle) with
      | some values => within values
      | none => .error .invalidArgument
    | .vector handle => match heap.vector? handle with
      | some items => within items.toList
      | none => .error .invalidArgument
    | .host reference => .ok (.object reference)
    | _ => .error .invalidArgument

/-- The variant of a script value. A structure without cycles nests no deeper than the heap has
slots. -/
def ofValue (heap : Heap) (value : Value) : Except Fault Variant :=
  ofValueWithin heap (heap.slots.size + 1) value

end Variant

/-- An object of the application. Its behaviour is a function of its properties and of what it is
asked; failures are in the application's own words. -/
structure HostObject where
  className : String
  parent : Option HostRef := none
  children : List HostRef := []
  properties : List (String × Variant) := []
  /-- Why a property cannot be set, if it cannot. -/
  refuses : String → Option String
  /-- Invokes a method of the object with that reference. -/
  invoke : HostRef → String → List Variant → Except String Variant :=
    fun _ method _ => .error ("Unknown method " ++ method ++ ".")

namespace HostObject

def property? (object : HostObject) (name : String) : Option Variant :=
  object.properties.lookup name

/-- Sets a property, or tells why it cannot be set. -/
def setProperty (object : HostObject) (name : String) (value : Variant) :
    Except String HostObject :=
  match object.refuses name with
  | some reason => .error reason
  | none => .ok { object with properties := (name, value) :: object.properties }

end HostObject

end MiniScheme
