import MiniScheme.Stdlib.Effects
import MiniScheme.Value.Equality

/-!
# Pairs, lists and vectors

Lists are chains of pairs that end in the empty list; a procedure that needs a proper list refuses
any other. Pairs and vectors are changed in place.
-/

namespace MiniScheme.Stdlib

def cons (_ : Store) : List Value → Except Fault Effect :=
  binary fun car cdr => .ok (.list [car] cdr)

def car (heap : Heap) : List Value → Except Fault Value :=
  unary fun argument => do return (← pair heap argument).1

def cdr (heap : Heap) : List Value → Except Fault Value :=
  unary fun argument => do return (← pair heap argument).2

def setPair (change : Value → Change) (store : Store) : List Value → Except Fault Effect :=
  binary fun
    | .pair handle, value => do
      let _ ← pair store.heap (.pair handle)
      return .change handle (change value)
    | _, _ => .error .invalidArgument

/-- The elements of all lists but the last, and the last one. -/
def appended (heap : Heap) : List Value → Except Fault (List Value × Value)
  | [] => .ok ([], .emptyList)
  | [last] => .ok ([], last)
  | list :: lists => do
    let front ← elements heap list
    let (back, last) ← appended heap lists
    return (front ++ back, last)

/-- Joins lists. All but the last are copied; the last becomes the shared tail. -/
def append (store : Store) (arguments : List Value) : Except Fault Effect := do
  let (values, last) ← appended store.heap arguments
  return .list values last

def length (heap : Heap) : List Value → Except Fault Value :=
  unary fun argument => do return .integer (Int64.ofNat (← elements heap argument).length)

def reversed (heap : Heap) : List Value → Except Fault (List Value) :=
  unary fun argument => do return (← elements heap argument).reverse

/-- What is left of a list after some pairs. -/
def dropPairs (heap : Heap) : Nat → Value → Except Fault Value
  | 0, current => .ok current
  | steps + 1, .pair handle => do dropPairs heap steps (← pair heap (.pair handle)).2
  | _ + 1, _ => .error .invalidIndex

/-- A tail of a list, which need not be proper. -/
def listTail (heap : Heap) : List Value → Except Fault Value :=
  binary fun list place => do
    let steps := (← integer place).toInt
    if steps < 0 then throw .invalidIndex
    dropPairs heap steps.toNat list

/-- An element of a list, which need not be proper. -/
def listRef (heap : Heap) (arguments : List Value) : Except Fault Value := do
  match ← listTail heap arguments with
  | .pair handle => return (← pair heap (.pair handle)).1
  | _ => throw .invalidIndex

/-- The first tail of a list whose first element matches; false if there is none. -/
def tailMatching (heap : Heap) (test : Value → Bool) : List Value → Value → Except Fault Value
  | [], _ => .ok (.boolean false)
  | element :: rest, current =>
    if test element then .ok current
    else do tailMatching heap test rest (← pair heap current).2

/-- Looks for an element in a list. -/
def member (same : Heap → Value → Value → Bool) (heap : Heap) : List Value → Except Fault Value :=
  binary fun wanted list => do tailMatching heap (same heap wanted) (← elements heap list) list

/-- The first association whose key matches; false if there is none. -/
def entryMatching (heap : Heap) (test : Value → Bool) : List Value → Except Fault Value
  | [] => .ok (.boolean false)
  | entry :: rest => do
    let (key, _) ← pair heap entry
    if test key then return entry else entryMatching heap test rest

/-- Looks for a key in an association list. -/
def association (same : Heap → Value → Value → Bool) (heap : Heap) :
    List Value → Except Fault Value :=
  binary fun wanted list => do entryMatching heap (same heap wanted) (← elements heap list)

/-- Identity, as a relation that could look at the heap. -/
def identical (_ : Heap) (left right : Value) : Bool :=
  left.eqv right

def comparison (same : Heap → Value → Value → Bool) (heap : Heap) :
    List Value → Except Fault Value :=
  binary fun left right => .ok (.boolean (same heap left right))

def isList (heap : Heap) : List Value → Except Fault Value :=
  unary fun argument => .ok (.boolean (heap.elements? argument).isSome)

/-! ### Vectors and byte vectors -/

/-- A vector of equal items, unspecified ones if none is given. -/
def makeVector : List Value → Except Fault (Array Value) :=
  leading fun size fill => do
    let size ← count size
    match fill with
    | [] => return Array.replicate size .unspecified
    | [fill] => return Array.replicate size fill
    | _ => throw .invalidArgument

def vectorLength (heap : Heap) : List Value → Except Fault Value :=
  unary fun argument => do return .integer (Int64.ofNat (← items heap argument).size)

def vectorRef (heap : Heap) : List Value → Except Fault Value :=
  binary fun vector place => do
    let content ← items heap vector
    return content[← index content.size place]

def vectorSet (store : Store) : List Value → Except Fault Effect :=
  ternary fun
    | .vector handle, place, value => do
      let size := (← items store.heap (.vector handle)).size
      return .change handle (.item (← index size place) value)
    | _, _, _ => .error .invalidArgument

def vectorFill (store : Store) : List Value → Except Fault Effect :=
  binary fun
    | .vector handle, value => do
      let _ ← items store.heap (.vector handle)
      return .change handle (.fill value)
    | _, _ => .error .invalidArgument

def vectorToList (heap : Heap) : List Value → Except Fault (List Value) :=
  unary fun argument => do return (← items heap argument).toList

def listToVector (heap : Heap) : List Value → Except Fault (Array Value) :=
  unary fun argument => do return (← elements heap argument).toArray

/-- The items of vectors, one after the other. -/
def vectorAppend (heap : Heap) (arguments : List Value) : Except Fault (Array Value) := do
  arguments.foldlM (fun joined argument => do return joined ++ (← items heap argument)) #[]

def octet (value : Value) : Except Fault UInt8 := do
  let number := (← integer value).toInt
  if 0 ≤ number ∧ number ≤ 255 then return UInt8.ofNat number.toNat else throw .invalidArgument

def bytevector (_ : Store) (arguments : List Value) : Except Fault Effect :=
  .bytes <$> arguments.mapM octet

def bytevectorLength : List Value → Except Fault Value :=
  unary fun argument => do return .integer (Int64.ofNat (← octets argument).length)

def bytevectorRef : List Value → Except Fault Value :=
  binary fun argument place => do
    let content ← octets argument
    return .integer (Int64.ofNat content[← index content.length place].toNat)

end MiniScheme.Stdlib
