import MiniScheme.Token

/-!
# Data

A datum is what reading yields and what rules and the compiler work on: an atom, a list, a dotted
list or a vector, each with the position it was read at. `Datum.withTail` keeps data in normal
form: a dotted list has at least one item, and its tail is neither a list nor a dotted list.
-/

namespace MiniScheme

/-- Data without parts. -/
inductive Atom where
  | boolean (value : Bool)
  | integer (value : Int64)
  | float (value : Float)
  | character (value : Char)
  | string (value : String)
  | symbol (name : String)
  | bytes (value : List UInt8)
  deriving BEq, Repr, Inhabited

/-- A tree of atoms that knows where each part was read. -/
inductive Datum where
  | atom (value : Atom) (position : Position)
  | list (items : List Datum) (position : Position)
  /-- `(item ... . tail)` -/
  | dotted (items : List Datum) (tail : Datum) (position : Position)
  | vector (items : List Datum) (position : Position)
  deriving Repr, Inhabited

namespace Datum

def position : Datum → Position
  | .atom _ position => position
  | .list _ position => position
  | .dotted _ _ position => position
  | .vector _ position => position

def ofSymbol (name : String) (position : Position) : Datum :=
  .atom (.symbol name) position

def symbol? : Datum → Option String
  | .atom (.symbol name) _ => some name
  | _ => none

def list? : Datum → Option (List Datum)
  | .list items _ => some items
  | _ => none

/-- The items of a list or dotted list, and the tail of the latter. -/
def elements? : Datum → Option (List Datum × Option Datum)
  | .list items _ => some (items, none)
  | .dotted items tail _ => some (items, some tail)
  | _ => none

def isSymbol (datum : Datum) (name : String) : Bool :=
  datum.symbol? == some name

/-- `(item ... . tail)`, with a list or dotted list in the tail spliced in. Without items there is
only the tail. -/
def withTail (items : List Datum) (tail : Datum) (position : Position) : Datum :=
  match items, tail with
  | [], tail => tail
  | items, .list rest _ => .list (items ++ rest) position
  | items, .dotted rest last _ => .dotted (items ++ rest) last position
  | items, tail => .dotted items tail position

mutual

/-- Equality of data, wherever they were read. -/
def same : Datum → Datum → Bool
  | .atom left _, .atom right _ => left == right
  | .list left _, .list right _ => sameItems left right
  | .dotted left leftTail _, .dotted right rightTail _ =>
    sameItems left right && leftTail.same rightTail
  | .vector left _, .vector right _ => sameItems left right
  | _, _ => false

def sameItems : List Datum → List Datum → Bool
  | [], [] => true
  | left :: lefts, right :: rights => left.same right && sameItems lefts rights
  | _, _ => false

end

mutual

/-- Dotted lists have an item, and a tail that could not have been spliced in. -/
inductive NormalForm : Datum → Prop where
  | atom (value : Atom) (position : Position) : NormalForm (.atom value position)
  | list {items : List Datum} {position : Position} (items_normal : NormalItems items) :
      NormalForm (.list items position)
  | dotted {items : List Datum} {tail : Datum} {position : Position}
      (items_normal : NormalItems items) (tail_normal : NormalForm tail) (items_ne : items ≠ [])
      (tail_atomic : tail.elements? = none) : NormalForm (.dotted items tail position)
  | vector {items : List Datum} {position : Position} (items_normal : NormalItems items) :
      NormalForm (.vector items position)

inductive NormalItems : List Datum → Prop where
  | nil : NormalItems []
  | cons {item : Datum} {items : List Datum} (item_normal : NormalForm item)
      (items_normal : NormalItems items) : NormalItems (item :: items)

end

end Datum

end MiniScheme
