import MiniScheme.Datum.Printer
import MiniScheme.Heap
import Std.Data.TreeSet.Basic

/-!
# The text of values

Values print in two ways: `write` notation, which the reader takes back, and `display` notation,
with strings and characters as they are. Heap structure may be cyclic, so the printer keeps the
path of objects it is inside of and elides an object that contains itself; nesting beyond a fixed
depth is elided as well. Shared structure that is not cyclic prints in full every time.
-/

namespace MiniScheme

/-- How handles are ordered: by index, then by generation. -/
def Handle.compare (left right : Handle) : Ordering :=
  (Ord.compare left.index right.index).then (Ord.compare left.generation right.generation)

/-- The objects that printing is inside of. -/
abbrev Path := Std.TreeSet Handle Handle.compare

/-- Nesting that is printed before the rest is elided. -/
def maxPrintDepth : Nat := 256

/-- How floating-point values are written. -/
def Value.floatLayout : Decimal.Layout :=
  { infinity := "+inf.0", negativeInfinity := "-inf.0", notANumber := "+nan.0" }

/-- The two ways to print. -/
inductive Style where
  | write
  | display
  deriving DecidableEq, Repr

/-- The text of a value that is neither a pair nor a vector. -/
def Value.atomText (style : Style) : Value → String
  | .unspecified => ""
  | .emptyList => "()"
  | .boolean value => booleanText value
  | .integer value => toString value.toInt
  | .float value => floatLayout.text value
  | .character value => match style with
    | .write => Text.charLiteral value
    | .display => value.toString
  | .symbol name => name
  | .string _ text => match style with
    | .write => Text.stringLiteral text
    | .display => text
  | .bytes _ content => bytesText content
  | .continuation _ => "<continuation>"
  | .host object => "<" ++ object.className ++ ">"
  | _ => "<procedure>"

namespace Heap

/-- Prints the pairs of a list from `current` on, after the text printed so far. `steps` bounds
the length of the walk. -/
def printSpine (heap : Heap) (print : Path → String → Value → String) :
    Nat → Path → Bool → String → Value → String
  | 0, _, _, out, _ => out
  | steps + 1, path, first, out, current =>
    match current with
    | .emptyList => out
    | .pair handle =>
      if path.contains handle then out ++ if first then "..." else " ..."
      else match heap.pair? handle with
        | none => out
        | some (car, cdr) =>
          let path := path.insert handle
          let out := print path (if first then out else out ++ " ") car
          heap.printSpine print steps path false out cdr
    | tail => print path (out ++ " . ") tail

/-- Prints the items of a vector, separated by spaces. -/
def printItems (print : String → Value → String) (out : String) : List Value → String
  | [] => out
  | [item] => print out item
  | item :: items => printItems print (print out item ++ " ") items

/-- Prints a value after the text printed so far. `room` is the nesting still allowed. No list
has more pairs than the heap has slots, and a dangling pair ends the walk. -/
def print (heap : Heap) (style : Style) : Nat → Path → String → Value → String
  | room, path, out, value =>
    match value with
    | .vector handle => match room with
      | 0 => out ++ "..."
      | room + 1 =>
        if path.contains handle then out ++ "..."
        else
          let items := ((heap.vector? handle).getD #[]).toList
          printItems (heap.print style room (path.insert handle)) (out ++ "#(") items ++ ")"
    | .pair handle => match room with
      | 0 => out ++ "..."
      | room + 1 =>
        heap.printSpine (heap.print style room) (heap.slots.size + 2) path true (out ++ "(")
          (.pair handle) ++ ")"
    | value => out ++ value.atomText style

/-- The text of a value in `write` notation. -/
def writeText (heap : Heap) (value : Value) : String :=
  heap.print .write maxPrintDepth {} "" value

/-- The text of a value in `display` notation. -/
def displayText (heap : Heap) (value : Value) : String :=
  heap.print .display maxPrintDepth {} "" value

end Heap

end MiniScheme
