import MiniScheme.Stdlib.Arguments

/-!
# What standard procedures do

A procedure looks at its arguments and at the store and decides what to do, or fails. What it then
does cannot fail: it answers with a value that it has, builds one, changes one object, or says
something.
-/

namespace MiniScheme.Stdlib

/-- Changes of a pair or a vector in place. -/
inductive Change where
  | car (value : Value)
  | cdr (value : Value)
  | item (offset : Nat) (value : Value)
  | fill (value : Value)

/-- Changes an object, if it is of the right kind. -/
def Change.apply : Change → Object → Object
  | .car value, .pair _ right => .pair value right
  | .cdr value, .pair left _ => .pair left value
  | .item offset value, .vector items => .vector (items.setIfInBounds offset value)
  | .fill value, .vector items => .vector (items.map fun _ => value)
  | _, object => object

/-- What a procedure does in the end. -/
inductive Effect where
  | answer (value : Value)
  /-- Builds a chain of pairs. -/
  | list (values : List Value) (tail : Value)
  | vector (items : Array Value)
  | string (text : String)
  | bytes (content : List UInt8)
  | variant (variant : Variant)
  | change (handle : Handle) (change : Change)
  | print (text : String)
  | note (text : String)
  | setHost (id : Nat) (object : HostObject)

/-- The answer, and the store afterwards. -/
def Effect.apply (effect : Effect) (store : Store) : Value × Store :=
  match effect with
  | .answer value => (value, store)
  | .list values tail => store.onHeap fun heap => heap.listWithTail values tail
  | .vector items => store.onHeap fun heap => heap.vector items
  | .string text => store.onHeap fun heap => heap.string text
  | .bytes content => store.onHeap fun heap => heap.bytes content
  | .variant given => store.onHeap fun heap => given.toValue heap
  | .change handle update =>
    (.unspecified, store.mapHeap fun heap => heap.modify handle update.apply)
  | .print text => (.unspecified, store.print text)
  | .note text => (.unspecified, store.note .info fun _ => text)
  | .setHost id object =>
    (.unspecified, { store with hosts := store.hosts.setIfInBounds id object })

/-- Decides what to do and does it. -/
def perform (plan : Store → List Value → Except Fault Effect) (arguments : List Value) :
    StoreM Value := fun store =>
  match plan store arguments with
  | .ok effect =>
    let (value, store) := effect.apply store
    .ok value store
  | .error fault => .error fault store

/-- A procedure that computes a value from its arguments alone. -/
def compute (work : List Value → Except Fault Value) : List Value → StoreM Value :=
  perform fun _ arguments => .answer <$> work arguments

/-- A procedure of one argument that only looks at it. -/
def predicate (test : Value → Bool) : List Value → StoreM Value :=
  compute (unary fun argument => .ok (.boolean (test argument)))

/-- A procedure that compares its arguments, each with the next, after checking all of them. -/
def chain {α : Type} (extract : Value → Except Fault α) (related : α → α → Bool) :
    List Value → StoreM Value :=
  compute fun arguments => do return .boolean (ascending related (← arguments.mapM extract))

/-- A procedure that only looks at the heap. -/
def inspect (work : Heap → List Value → Except Fault Value) : List Value → StoreM Value :=
  perform fun store arguments => .answer <$> work store.heap arguments

/-- A procedure that computes a new string. -/
def spell (work : Heap → List Value → Except Fault String) : List Value → StoreM Value :=
  perform fun store arguments => .string <$> work store.heap arguments

/-- A procedure that builds a new list of what it computes. -/
def enlist (work : Heap → List Value → Except Fault (List Value)) : List Value → StoreM Value :=
  perform fun store arguments => (.list · .emptyList) <$> work store.heap arguments

/-- A procedure that builds a new vector of what it computes. -/
def envector (work : Heap → List Value → Except Fault (Array Value)) : List Value → StoreM Value :=
  perform fun store arguments => .vector <$> work store.heap arguments

end MiniScheme.Stdlib
