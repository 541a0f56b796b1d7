import MiniScheme.Native

/-!
# Taking arguments apart

Standard procedures check their arguments one by one, from left to right. An argument of the wrong
type is invalid, whatever else is wrong with it.
-/

namespace MiniScheme.Stdlib

def unary {α : Type} (work : Value → Except Fault α) : List Value → Except Fault α
  | [argument] => work argument
  | _ => .error (.wrongArity { required := 1 })

def binary {α : Type} (work : Value → Value → Except Fault α) : List Value → Except Fault α
  | [first, second] => work first second
  | _ => .error (.wrongArity { required := 2 })

def ternary {α : Type} (work : Value → Value → Value → Except Fault α) :
    List Value → Except Fault α
  | [first, second, third] => work first second third
  | _ => .error (.wrongArity { required := 3 })

def leading {α : Type} (work : Value → List Value → Except Fault α) : List Value → Except Fault α
  | first :: rest => work first rest
  | [] => .error (.wrongArity { required := 1, variadic := true })

def integer : Value → Except Fault Int64
  | .integer value => .ok value
  | _ => .error .invalidArgument

/-- A place among `size` places. -/
def index (size : Nat) (value : Value) : Except Fault (Fin size) := do
  let number := (← integer value).toInt
  if number < 0 then throw .invalidIndex
  if inside : number.toNat < size then return ⟨number.toNat, inside⟩ else throw .invalidIndex

/-- A size or count, which must not be negative. -/
def count (value : Value) : Except Fault Nat := do
  let number := (← integer value).toInt
  if number < 0 then throw .invalidArgument else return number.toNat

def character : Value → Except Fault Char
  | .character value => .ok value
  | _ => .error .invalidArgument

def text : Value → Except Fault String
  | .string _ content => .ok content
  | _ => .error .invalidArgument

def symbol : Value → Except Fault String
  | .symbol name => .ok name
  | _ => .error .invalidArgument

def boolean : Value → Except Fault Bool
  | .boolean value => .ok value
  | _ => .error .invalidArgument

def octets : Value → Except Fault (List UInt8)
  | .bytes _ content => .ok content
  | _ => .error .invalidArgument

def pair (heap : Heap) : Value → Except Fault (Value × Value)
  | .pair handle => (heap.pair? handle).elim (.error .invalidArgument) .ok
  | _ => .error .invalidArgument

def elements (heap : Heap) (value : Value) : Except Fault (List Value) :=
  (heap.elements? value).elim (.error .invalidArgument) .ok

def items (heap : Heap) : Value → Except Fault (Array Value)
  | .vector handle => (heap.vector? handle).elim (.error .invalidArgument) .ok
  | _ => .error .invalidArgument

/-- Whether a relation holds between all neighbours. -/
def ascending {α : Type} (related : α → α → Bool) : List α → Bool
  | first :: second :: rest => related first second && ascending related (second :: rest)
  | _ => true

end MiniScheme.Stdlib
