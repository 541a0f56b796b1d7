import MiniScheme.Code
import MiniScheme.Stack

/-!
# The heap

Pairs, vectors, closures, invocations and continuations live in one table of slots. Values refer
to them by handle, so reference cycles are ordinary. A slot that has been emptied gets a new
generation, which makes the handles of its former occupant dangle for good.
-/

namespace MiniScheme

/-- Where the machine is within a procedure, and what a call saves of it. -/
structure Frame where
  pc : Nat
  invocation : Handle
  /-- Values pushed since the operands of the current call began. -/
  operandCount : Nat
  lambda : Lambda
  deriving Inhabited

/-- The whole control state of the machine, as a continuation captures it. -/
structure Snapshot where
  stack : Stack Value
  calls : Stack Frame
  current : Frame
  deriving Inhabited

/-- What the heap holds. -/
inductive Object where
  | pair (car cdr : Value)
  | vector (items : Array Value)
  /-- A compiled procedure and the invocation it was created in. -/
  | closure (lambda : Lambda) (parent : Option Handle)
  /-- One activation of a closure and its variable slots. The global one has no procedure. -/
  | invocation (procedure : Option Handle) (slots : Array Value)
  | continuation (snapshot : Snapshot)
  deriving Inhabited

structure Slot where
  generation : UInt32 := 0
  object : Option Object := none
  deriving Inhabited

/-- A table of slots, the indices of the empty ones, and a supply of stamps. -/
structure Heap where
  slots : Array Slot := #[]
  /-- The indices of the empty slots, the one to be used next first. -/
  free : List Nat := []
  nextStamp : Stamp := 0
  deriving Inhabited

namespace Heap

/-- The object behind a handle, unless the handle dangles. -/
def get? (heap : Heap) (handle : Handle) : Option Object :=
  match heap.slots[handle.index]? with
  | some slot => if slot.generation = handle.generation then slot.object else none
  | none => none

/-- Whether the object behind a handle has not been reclaimed yet. -/
def isLive (heap : Heap) (handle : Handle) : Bool :=
  (heap.get? handle).isSome

def liveCount (heap : Heap) : Nat :=
  heap.slots.size - heap.free.length

/-- Places an object in an empty slot, or in a new one if there is none. -/
def alloc (heap : Heap) (object : Object) : Handle × Heap :=
  match heap with
  | { slots, free := index :: free, nextStamp } =>
    match slots[index]? with
    | some slot =>
      ({ index, generation := slot.generation },
        { slots := slots.setIfInBounds index { slot with object := some object }, free, nextStamp })
    | none =>
      ({ index := slots.size, generation := 0 },
        { slots := slots.push { object := some object }, free, nextStamp })
  | { slots, free := [], nextStamp } =>
    ({ index := slots.size, generation := 0 },
      { slots := slots.push { object := some object }, free := [], nextStamp })

/-- Changes the object behind a handle in place; a dangling handle changes nothing. -/
def modify (heap : Heap) (handle : Handle) (change : Object → Object) : Heap :=
  { heap with
    slots := heap.slots.modify handle.index fun slot =>
      if slot.generation = handle.generation then { slot with object := slot.object.map change }
      else slot }

/-! ### Objects of a kind -/

def pair? (heap : Heap) (handle : Handle) : Option (Value × Value) :=
  match heap.get? handle with
  | some (.pair car cdr) => some (car, cdr)
  | _ => none

def vector? (heap : Heap) (handle : Handle) : Option (Array Value) :=
  match heap.get? handle with
  | some (.vector items) => some items
  | _ => none

/-- The procedure of a closure and the invocation it was created in. -/
def closure? (heap : Heap) (handle : Handle) : Option (Lambda × Option Handle) :=
  match heap.get? handle with
  | some (.closure lambda parent) => some (lambda, parent)
  | _ => none

def procedure? (heap : Heap) (handle : Handle) : Option Handle :=
  match heap.get? handle with
  | some (.invocation procedure _) => procedure
  | _ => none

def slots? (heap : Heap) (handle : Handle) : Option (Array Value) :=
  match heap.get? handle with
  | some (.invocation _ slots) => some slots
  | _ => none

def continuation? (heap : Heap) (handle : Handle) : Option Snapshot :=
  match heap.get? handle with
  | some (.continuation snapshot) => some snapshot
  | _ => none

def setCar (heap : Heap) (handle : Handle) (car : Value) : Heap :=
  heap.modify handle fun
    | .pair _ cdr => .pair car cdr
    | other => other

def setCdr (heap : Heap) (handle : Handle) (cdr : Value) : Heap :=
  heap.modify handle fun
    | .pair car _ => .pair car cdr
    | other => other

def modifyVector (heap : Heap) (handle : Handle) (change : Array Value → Array Value) : Heap :=
  heap.modify handle fun
    | .vector items => .vector (change items)
    | other => other

def modifySlots (heap : Heap) (handle : Handle) (change : Array Value → Array Value) : Heap :=
  heap.modify handle fun
    | .invocation procedure slots => .invocation procedure (change slots)
    | other => other

def modifyLambda (heap : Heap) (handle : Handle) (change : Lambda → Lambda) : Heap :=
  heap.modify handle fun
    | .closure lambda parent => .closure (change lambda) parent
    | other => other

/-! ### Values of a kind -/

def cons (heap : Heap) (car cdr : Value) : Value × Heap :=
  let (handle, heap) := heap.alloc (.pair car cdr)
  (.pair handle, heap)

def vector (heap : Heap) (items : Array Value) : Value × Heap :=
  let (handle, heap) := heap.alloc (.vector items)
  (.vector handle, heap)

def string (heap : Heap) (text : String) : Value × Heap :=
  (.string heap.nextStamp text, { heap with nextStamp := heap.nextStamp + 1 })

def bytes (heap : Heap) (content : List UInt8) : Value × Heap :=
  (.bytes heap.nextStamp content, { heap with nextStamp := heap.nextStamp + 1 })

/-- `(value ... . tail)`, of which the last pair is made first. -/
def listWithTail (heap : Heap) (values : List Value) (tail : Value) : Value × Heap :=
  values.reverse.foldl (fun (cdr, heap) car => heap.cons car cdr) (tail, heap)

def list (heap : Heap) (values : List Value) : Value × Heap :=
  heap.listWithTail values .emptyList

/-- Walks down a list for at most `steps` values, gathering its elements, last one first. -/
def walk (heap : Heap) (gathered : List Value) : Nat → Value → Option (List Value)
  | 0, _ => none
  | _ + 1, .emptyList => some gathered.reverse
  | steps + 1, .pair handle =>
    match heap.pair? handle with
    | some (car, cdr) => heap.walk (car :: gathered) steps cdr
    | none => none
  | _ + 1, _ => none

/-- The elements of a proper list. A proper list has no more pairs than the heap has slots, so a
longer walk is going round in a circle. -/
def elements? (heap : Heap) (value : Value) : Option (List Value) :=
  heap.walk [] (heap.slots.size + 1) value

end Heap

end MiniScheme
